import Mathlib.Data.Prod.Lex
import UdtKernel.Lib.SortedMap
import UdtKernel.Types

set_option autoImplicit false

/-! Long packets are split and their pieces merged: `CPacketDivisor`. -/

namespace UdtKernel.Divisor
open UdtKernel.Lib

/-- `split_info`. `calculate` is `pMCalculate`: the size of a message with its service header. -/
structure SplitInfo where
  canNotSplit : Bool
  limited : Bool
  maxSize : ℕ
  calculate : Option (UserData → ℕ)

def SplitInfo.dataSize (i : SplitInfo) (d : UserData) : ℕ :=
  match i.calculate with
  | some f => f d
  | none => d.data.length

def isSplited (s : SplitPacket) : Bool := !(s.counter == 1 && s.coefficient == 1 && s.isLast)

/-- A part size that would leave the data in one part is cut to one byte less. -/
def clipPartSize (size aPartSize : ℕ) : ℕ := if size ≤ aPartSize then size - 1 else aPartSize

/-- The number of parts is made even. -/
def validNumPart (size partSize : ℕ) : ℕ :=
  let numPart := if size % partSize = 0 then size / partSize else size / partSize + 1
  if numPart % 2 = 0 then numPart else numPart + 1

/-- A conversion to `uint16_t`. What is converted was computed in a `size_t`, whose wrap at
    `2 ^ 64` does not show in the low 16 bits. -/
def toUint16 (n : ℤ) : ℕ := (n % 2 ^ 16).toNat

/-- Part `i` of `n` parts; all but the last are `size` bytes long. -/
def part (d : UserData) (n size i : ℕ) : UserData :=
  let isEnd := i + 1 = n
  let s := d.dataId.split
  let split := { isLast := if isEnd then s.isLast else false
                 counter := toUint16 (s.counter * n - n + 1 + i)
                 coefficient := toUint16 (s.coefficient * n) }
  { dataId := { d.dataId with split := split }
    data := if isEnd then d.data.drop (size * i) else (d.data.drop (size * i)).take size }

/-- The bytes of a part are inserted into the buffer of a new message. -/
def makePart (d : UserData) (n size i : ℕ) : Except Abort UserData := do
  let data ← insertRange [] (part d n size i).data
  return { part d n size i with data := data }

/-- `MSplit` of the first message of a list. -/
def split (d : UserData) (aPartSize : ℕ) : Except Abort (List UserData) :=
  let size := d.data.length
  if size = 0 then .error .splitOfEmptyData
  else
    let partSize := clipPartSize size aPartSize
    if partSize = 0 then .error .splitByZero
    else
      let n := validNumPart size partSize
      (List.range n).mapM (makePart d n (size / n))

/-- `merge_key`, ordered by the sender first. -/
abbrev MergeKey := Uuid ×ₗ Descriptor

structure MergeOperation where
  bufForMerge : List Byte
  mergedPackets : List UserData
  newPackets : List UserData
  info : UserDataInfo
  splitLevel : SortedMap ℕ SplitPacket
  error : ErrorType
  isMerged : Bool

namespace MergeOperation

/-- The constructor: an entry that starts in the middle of a packet starts with an error. -/
def new (info : UserDataInfo) : Except Abort MergeOperation :=
  let op := MergeOperation.mk [] [] [] info .empty eNoError false
  if info.split.counter ≠ 1 then .ok { op with error := ePacketLost }
  else if info.split.isLast then .error .firstPieceIsLast
  else .ok op

def mergePacket (op : MergeOperation) (what : UserData) : Except Abort (Bool × MergeOperation) :=
  if op.bufForMerge = [] ∧ what.dataId.split.counter ≠ 1 then .error .mergeStartsInTheMiddle
  else do
    let buf ← insertRange op.bufForMerge what.data
    return (what.dataId.split.isLast, { op with bufForMerge := buf })

def createPacket (op : MergeOperation) : Option UserData × MergeOperation :=
  if op.bufForMerge ≠ [] then
    (some ⟨{ op.info with split := .default }, op.bufForMerge⟩, { op with bufForMerge := [] })
  else (none, op)

/-- `MCheckingSequence`: a gap in the counters of a level is an error, yet merging goes on. -/
def checkingSequence (op : MergeOperation) (d : UserData) : Except Abort MergeOperation :=
  let s := d.dataId.split
  let seen := { op with splitLevel := op.splitLevel.insert s.coefficient s }
  match op.splitLevel.find s.coefficient with
  | some prev =>
    if prev.counter + 1 ≠ s.counter then
      if isSplited s then .ok { seen with error := ePacketLost } else .error .lostPieceOfWholePacket
    else .ok seen
  | none => .ok seen

/-- The loop of `MMerging` over the new packets. -/
def mergingLoop : List UserData → MergeOperation → Except Abort (Bool × MergeOperation)
  | [], op => .ok (false, { op with newPackets := [] })
  | d :: ds, op => do
    let op ← op.checkingSequence d
    let (isLast, op) ← op.mergePacket d
    let op := { op with mergedPackets := op.mergedPackets ++ [d], newPackets := ds }
    if isLast then return (true, op) else mergingLoop ds op

/-- `MMerging`: the list is what it puts into `aTo`, the flag what it returns. -/
def merging (op : MergeOperation) : Except Abort (Bool × List UserData × MergeOperation) :=
  if op.newPackets = [] then .error .nothingToMerge
  else do
    let (isLast, op) ← mergingLoop op.newPackets op
    if isLast then
      if op.newPackets ≠ [] then .error .piecesAfterLast
      else match op.createPacket with
        | (some d, op) =>
          let op := { op with isMerged := true }
          return (op.error = eNoError, [d], op)
        | (none, op) => return (false, [], { op with error := eMergeError })
    else return (op.error = eNoError ∧ op.isMerged, [], op)

def hasToBeRemoved (op : MergeOperation) : Bool := op.isMerged || op.error ≠ eNoError

/-- What a call of `merge_operation_t::MMerge` leaves: the pieces not taken, the packets
    delivered, the entry. -/
structure Merged where
  rest : List UserData
  delivered : List UserData
  op : MergeOperation

def merge (op : MergeOperation) (d : UserData) (ds : List UserData) : Except Abort Merged :=
  let differs := op.info.packetNumber ≠ d.dataId.packetNumber
  let rest := if differs then d :: ds else []
  let op := if differs then
      if op.error = eNoError then { op with error := ePacketLost } else op
    else { op with newPackets := op.newPackets ++ d :: ds }
  if op.error ≠ eNoError then .ok ⟨rest, [], op⟩
  else do
    let (ok, data, op) ← op.merging
    return ⟨rest, if ok then data else [], op⟩

end MergeOperation

/-- What the loop of `MSplitOrMergeIfNeed` changes; `fails` and `nonSent` are the messages
    handed back and the reports. -/
structure Sending where
  mergeOp : SortedMap MergeKey MergeOperation
  sent : List UserData
  fails : List UserData
  nonSent : List FailSend

def mergeKey (aFor : Descriptor) (d : UserData) : MergeKey :=
  toLex (d.dataId.routing.from_.uuid, aFor)

/-- The entry of the key, or one made for the packet of `d`. -/
def findOrNew (m : SortedMap MergeKey MergeOperation) (key : MergeKey) (d : UserData) :
    Except Abort MergeOperation :=
  match m.find key with
  | some op => .ok op
  | none => MergeOperation.new d.dataId

/-- One turn of the last loop of `MMerge`: the entry of the key is found or made, takes the
    pieces if they are of its packet, and is dropped once it is merged or in error. -/
def mergeTurn (key : MergeKey) (d : UserData) (ds : List UserData) (s : Sending) :
    Except Abort (List UserData × Sending) := do
  let op ← findOrNew s.mergeOp key d
  let m ← op.merge d ds
  let s := { s with sent := s.sent ++ m.delivered }
  let failed := m.op.error ≠ eNoError
  let s := if failed then
      { s with nonSent := s.nonSent ++ [(FailSend.ofInfo m.op.info).setError m.op.error]
               fails := s.fails ++ m.op.mergedPackets ++ m.op.newPackets }
    else s
  let op := if failed then { m.op with mergedPackets := [], newPackets := [] } else m.op
  return (m.rest, { s with mergeOp :=
    if op.hasToBeRemoved then s.mergeOp.erase key else s.mergeOp.insert key op })

/-- The last loop of `MMerge`. An entry of another packet is dropped in the first turn and an
    entry just made takes all the pieces, so that two turns are enough. -/
def mergeLoop (key : MergeKey) : ℕ → List UserData → Sending → Except Abort Sending
  | 0, _, s => .ok s
  | _ + 1, [], s => .ok s
  | n + 1, d :: ds, s => do
    let (rest, s) ← mergeTurn key d ds s
    mergeLoop key n rest s

def samePacket (d e : UserData) : Bool :=
  d.dataId.packetNumber == e.dataId.packetNumber &&
    d.dataId.routing.from_.uuid == e.dataId.routing.from_.uuid

/-- `MMerge`: the pieces of one packet at the front of the list are merged together. -/
def merge (aFor : Descriptor) (d : UserData) (ds : List UserData) (s : Sending) :
    Except Abort Sending :=
  let pieces := ds.takeWhile (samePacket d)
  if pieces.all fun e => isSplited e.dataId.split then
    mergeLoop (mergeKey aFor d) 2 (d :: pieces) s
  else .error .wholePacketAmongPieces

/-- The loop of `MSplitOrMergeIfNeed` for a descriptor that has limits. -/
def sendLoop (aFor : Descriptor) (i : SplitInfo) :
    List UserData → Sending → Except Abort Sending
  | [], s => .ok s
  | d :: ds, s =>
    let fits := i.maxSize = 0 ∨ i.dataSize d ≤ i.maxSize
    if i.canNotSplit then
      if isSplited d.dataId.split then do
        let s ← merge aFor d ds s
        sendLoop aFor i (ds.dropWhile (samePacket d)) s
      else if fits then sendLoop aFor i ds { s with sent := s.sent ++ [d] }
      else sendLoop aFor i ds
        { s with nonSent := s.nonSent ++ [(FailSend.ofInfo d.dataId).setError eDataTooLarge]
                 fails := s.fails ++ [d] }
    else if i.limited = false ∨ fits then sendLoop aFor i ds { s with sent := s.sent ++ [d] }
    else do
      let ps ← split d i.maxSize
      sendLoop aFor i ds { s with sent := s.sent ++ ps }
termination_by what => what.length
decreasing_by
  all_goals simp only [List.length_cons]
  · exact Nat.lt_succ_of_le (List.dropWhile_sublist _).length_le
  all_goals omega

/-- `CPacketDivisor`, the limits of each descriptor and the packets being merged. -/
structure PacketDivisor where
  limitsInfo : SortedMap Descriptor SplitInfo
  mergeOp : SortedMap MergeKey MergeOperation

structure Divided where
  divisor : PacketDivisor
  sent : List UserData
  fails : List UserData
  nonSent : List FailSend

def splitOrMergeIfNeed (p : PacketDivisor) (aFor : Descriptor) (what : List UserData) :
    Except Abort Divided :=
  match p.limitsInfo.find aFor with
  | none => .ok ⟨p, what, [], []⟩
  | some i => do
    let s ← sendLoop aFor i what ⟨p.mergeOp, [], [], []⟩
    return ⟨{ p with mergeOp := s.mergeOp }, s.sent, s.fails, s.nonSent⟩

end UdtKernel.Divisor
