import UdtKernel.Datagram.Head
import UdtKernel.Lib.Layout

set_option autoImplicit false

/-! How a packet becomes the bytes of a datagram, and the bytes a packet. -/

namespace UdtKernel
open UdtKernel.Lib Head

/-- What a header says of the moment and the program that sends it, and the byte of it that is not
    set. -/
structure Stamp where
  timeMs : ℕ
  time : ℕ
  fromUuid : ℕ
  counter : ℕ
  reserved : Byte

def byteOf (n : ℕ) : Byte := Fin.ofNat 256 n

/-- The fields of a `head_t` before `FCrcHead`, as a machine writes them. There is no `FDataCrc`. -/
def headFields (me : Endian) (stamp : Stamp) (major minor msgType flags dataSize : ℕ) :
    List (List Byte) :=
  [[byteOf sizeofHead], [me.code], me.bytes 2 stamp.timeMs, [byteOf major], [byteOf minor],
    me.bytes 2 0, me.bytes 4 dataSize, me.bytes 4 stamp.time, me.bytes 8 stamp.fromUuid,
    me.bytes 2 0, [byteOf msgType], [byteOf flags], me.bytes 2 stamp.counter, [stamp.reserved]]

def fillDgHead (me : Endian) (stamp : Stamp) (major minor msgType flags fullSize : ℕ) :
    List (List Byte) :=
  let fields := headFields me stamp major minor msgType flags (fullSize - sizeofHead)
  fields ++ [[byteOf (headerCrc fields.flatten)]]

/-- The flags of a `user_data_flags`, from the end at which the machine begins. -/
def flagsByte : Endian → ℕ → Bool → Byte
  | .little, endian, isLast => byteOf ((endian % 4) <<< 5 ||| isLast.toNat <<< 7)
  | .big, endian, isLast => byteOf ((endian % 4) <<< 1 ||| isLast.toNat)

def flagsEndian : Endian → Byte → ℕ
  | .little, b => (b.val >>> 5) &&& 3
  | .big, b => (b.val >>> 1) &&& 3

def flagsIsLast : Endian → Byte → Bool
  | .little, b => (b.val >>> 7) &&& 1 = 1
  | .big, b => b.val &&& 1 = 1

def reverseBits (b : Byte) : Byte :=
  let b₁ := byteOf ((b.val &&& 0xF0) >>> 4 ||| (b.val &&& 0x0F) <<< 4)
  let b₂ := byteOf ((b₁.val &&& 0xCC) >>> 2 ||| (b₁.val &&& 0x33) <<< 2)
  byteOf ((b₂.val &&& 0xAA) >>> 1 ||| (b₂.val &&& 0x55) <<< 1)

def sizeofUserDataHeader : ℕ := 8 * 5

/-- `FProtocolName`: `static_cast<uint8_t>(_name_protocol) + 1`. -/
def protocolNameByte (nameProtocol : ℕ) : Byte :=
  if nameProtocol = 0 then 0 else byteOf (nameProtocol % 256 + 1)

/-- The fields of a `user_data_header_t`. -/
def userHeaderFields (me : Endian) (info : UserDataInfo) (size : ℕ) : List (List Byte) :=
  [me.bytes 8 info.routing.from_.uuid, info.what.messageHeader,
    [flagsByte me info.endian.code.val info.split.isLast], [byteOf info.eventsList.length],
    me.bytes 2 info.split.counter, me.bytes 4 info.dataOffset, me.bytes 2 info.split.coefficient,
    [byteOf info.destination.length], [byteOf info.routing.uuids.length],
    [byteOf info.registrators.length], [protocolNameByte (lengthCode info.protocol)],
    [byteOf info.what.version.minor], [byteOf info.what.version.major],
    me.bytes 4 info.packetNumber, me.bytes 4 size]

/-- The name and a `\0`, if there is a name. -/
def nameBytes (protocol : Text) : Except Abort (List Byte) :=
  if lengthCode protocol = 0 then .ok []
  else do return (← copyText (lengthCode protocol) protocol) ++ [0]

/-- The lists and the name behind a `user_data_header_t`. -/
def dynamicFields (me : Endian) (info : UserDataInfo) (name : List Byte) : List (List Byte) :=
  [info.eventsList.flatMap (me.bytes 4), info.destination.flatMap (me.bytes 8),
    info.routing.uuids.flatMap (me.bytes 8), info.registrators.flatMap (me.bytes 8), name]

def fillHeader (me : Endian) (info : UserDataInfo) (size : ℕ) : Except Abort (List (List Byte)) :=
  do return userHeaderFields me info size ++ dynamicFields me info (← nameBytes info.protocol)

/-- `FHeadSize + MGetDataSize()`, the sum of a `uint8_t` and a `uint32_t`. -/
def headAndDataSize (headSize dataSize : ℕ) : ℕ := (headSize + dataSize % 2 ^ 32) % 2 ^ 32

/-- The size that is checked behind the writing is the one meant just when 32 bits hold it. -/
theorem headAndDataSize_eq_iff {size : ℕ} (h : sizeofHead ≤ size) :
    size = headAndDataSize sizeofHead (size - sizeofHead) ↔ size < 2 ^ 32 := by
  have hsum : headAndDataSize sizeofHead (size - sizeofHead) = size % 2 ^ 32 := by
    unfold headAndDataSize
    rw [Nat.add_mod_mod, Nat.add_sub_cancel' h]
  rw [hsum, eq_comm, Nat.mod_eq_iff_lt (by decide)]

/-- `serialize` of a `user_data_info_t`: the datagram before its data. -/
def serializeInfo (me : Endian) (stamp : Stamp) (info : UserDataInfo) (size : ℕ) :
    Except Abort (List Byte) := do
  let fields ← fillHeader me info size
  let fullSize := sizeofHead + fields.flatten.length
  let head := fillDgHead me stamp 0 2 21 0 (fullSize + size)
  if fullSize + size = headAndDataSize sizeofHead (fullSize + size - sizeofHead) then
    return head.flatten ++ fields.flatten
  else throw .sizeIsWrong

/-- A `user_data_header_t` in the byte order of the machine. -/
structure UserDataHeader where
  uuidFrom : ℕ
  messageHeader : List Byte
  flags : Byte
  eventList : ℕ
  splitCounter : ℕ
  dataOffset : ℕ
  splitCoefficient : ℕ
  destination : ℕ
  routing : ℕ
  registrators : ℕ
  protocolName : ℕ
  minor : ℕ
  major : ℕ
  number : ℕ
  dataSize : ℕ

/-- `MGetUserDataHeader`. -/
def userDataHeader (me : Endian) (dg : List Byte) : UserDataHeader where
  uuidFrom := endianCorrectValue me dg (field dg 32 8)
  messageHeader := field dg 40 8
  flags :=
    let flags := dg.getD 48 0
    if isValidEndian me dg then flags else reverseBits flags
  eventList := byteAt dg 49
  splitCounter := endianCorrectValue me dg (field dg 50 2)
  dataOffset := endianCorrectValue me dg (field dg 52 4)
  splitCoefficient := endianCorrectValue me dg (field dg 56 2)
  destination := byteAt dg 58
  routing := byteAt dg 59
  registrators := byteAt dg 60
  protocolName := byteAt dg 61
  minor := byteAt dg 62
  major := byteAt dg 63
  number := endianCorrectValue me dg (field dg 64 4)
  dataSize := endianCorrectValue me dg (field dg 68 4)

/-- A `user_data_t` as a datagram holds it: the codes of the protocol name and the value of
    `FEndian` as they come, the sender without its name. -/
structure WireData where
  eventsList : List ℕ
  destination : List ℕ
  routing : List ℕ
  registrators : List ℕ
  fromUuid : ℕ
  packetNumber : ℕ
  dataOffset : ℕ
  split : SplitPacket
  what : RequiredHeader
  endian : ℕ
  protocol : List ℕ
  data : List Byte
  deriving DecidableEq

def readNumbers (me : Endian) (dg : List Byte) (offset n count : ℕ) : Except Abort (List ℕ) :=
  match readItems n count (dg.drop offset) with
  | some items => .ok (items.map (endianCorrectValue me dg))
  | none => .error .readOutside

def readProtocol (dg : List Byte) (offset count : ℕ) : Except Abort (List ℕ) :=
  if count = 0 then .ok [] else textOf (dg.drop offset)

/-- The data, when its end is where the head says. -/
def readData (me : Endian) (dg : List Byte) (offset size : ℕ) : Except Abort (List Byte) :=
  if offset + size ≠ headAndDataSize (headSize dg) (dataSize me dg) then .error .sizeIsWrong
  else if dg.length < offset + size then .error .readOutside
  else .ok (field dg offset size)

/-- `deserialize` of a `user_data_dg_t`. -/
def deserializeData (me : Endian) (dg : List Byte) : Except Abort WireData := do
  let header := userDataHeader me dg
  let offset := sizeofHead + sizeofUserDataHeader
  let eventsList ← readNumbers me dg offset 4 header.eventList
  let offset := offset + header.eventList * 4
  let destination ← readNumbers me dg offset 8 header.destination
  let offset := offset + header.destination * 8
  let routing ← readNumbers me dg offset 8 header.routing
  let offset := offset + header.routing * 8
  let registrators ← readNumbers me dg offset 8 header.registrators
  let offset := offset + header.registrators * 8
  let protocol ← readProtocol dg offset header.protocolName
  let offset := offset + header.protocolName
  let data ← readData me dg offset header.dataSize
  return {
    eventsList, destination, routing, registrators, protocol, data
    fromUuid := header.uuidFrom
    packetNumber := header.number
    dataOffset := header.dataOffset
    split := ⟨flagsIsLast me header.flags, header.splitCounter, header.splitCoefficient⟩
    what := ⟨⟨header.major, header.minor, 0⟩, header.messageHeader⟩
    endian := flagsEndian me header.flags }

end UdtKernel
