import UdtKernel.Datagram.Head
import UdtKernel.Lib.Loop
import UdtKernel.Lib.Run
import Mathlib.Data.Int.DivMod

set_option autoImplicit false

/-! The parser of the datagrams that are received: `CInParser`. -/

namespace UdtKernel
open UdtKernel.Lib Head

/-- `e_error_t`. -/
inductive ParseCode where
  | ok
  | sizeDg
  | bufferIsSmall
  | noDg
  deriving DecidableEq

/-- What a `CInParser` is built with: the byte order of the machine, and `MAJOR` and `MINOR` of the
    datagrams that `RECEIVES` names. -/
structure Receives where
  endian : Endian
  version : ℕ → Option (ℕ × ℕ)

/-- The code, the position `*aLast` and the datagrams passed to `MProcess`. -/
structure Look where
  code : ParseCode
  last : ℕ
  passed : List (List Byte)
  deriving DecidableEq

/-- A turn of `MAnalizeBuffer` goes on from a position, or returns one. -/
inductive ParseTurn where
  | next (n : ℕ) (passed : List (List Byte))
  | stop (n : ℕ)
  deriving DecidableEq

namespace Receives
variable (P : Receives)

/-- The loop of `MLookingForHead`, from a position on; the position of the last header that can
    stand there is not looked at. -/
def searchHead (p : ℕ) : List Byte → Except Abort (ParseCode × ℕ)
  | [] => .error .readOutside
  | b :: l =>
    if (b :: l).length = sizeofHead then .ok (.noDg, p)
    else if (b :: l).length < sizeofHead then .error .readOutside
    else if isValidProtocol (b :: l) && headSize (b :: l) == sizeofHead then .ok (.ok, p)
    else searchHead (p + 1) l

def lookingForHead (l : List Byte) : Except Abort (ParseCode × ℕ) :=
  if l.length < sizeofHead then .ok (.bufferIsSmall, 0)
  else if isValidProtocol l then .ok (.ok, 0)
  else searchHead 1 l.tail

/-- `(int) _size_kd`, compared with the size of the buffer. -/
def isSmall (l : List Byte) : Bool := (l.length : ℤ) < Int.bmod (sizeKd P.endian l) (2 ^ 32)

/-- Whether the sum over the data is the one in the header, if there is one. -/
def isDataCrcValid (l : List Byte) : Except Abort Bool :=
  if 2 ≤ dataSize P.endian l ∧ dataCrc P.endian l ≠ 0 then
    if l.length < sizeofHead + dataSize P.endian l then .error .readOutside
    else .ok (dataCrcOf (field l sizeofHead (dataSize P.endian l)) == dataCrc P.endian l)
  else .ok true

/-- `*aLast = aPBegin + _size_kd`. -/
def pass (l : List Byte) (passed : List (List Byte)) : Except Abort Look :=
  if l.length < sizeKd P.endian l then .error .positionOutside
  else .ok ⟨.ok, sizeKd P.endian l, passed⟩

/-- `MCheckKD` of a datagram that is received. -/
def checkKd (version : ℕ × ℕ) (l : List Byte) : Except Abort Look :=
  if P.isSmall l then .ok ⟨.bufferIsSmall, 0, []⟩
  else do
    let isCrcValid ← P.isDataCrcValid l
    let isCompatible := version.1 == major l && decide (version.2 ≤ minor l)
    P.pass l (if isCompatible && isCrcValid then [l.take (sizeKd P.endian l)] else [])

/-- There is no version, no sender or no time. -/
def isBlank (l : List Byte) : Bool :=
  (major l == 0 && minor l == 0) || fromUuid P.endian l == 0 || time P.endian l == 0

/-- `MCheckKD` of a datagram that is not received; `*aLast` stays when it is not right. -/
def checkHead (l : List Byte) (last : ℕ) : Except Abort Look :=
  if P.isSmall l then .ok ⟨.bufferIsSmall, 0, []⟩
  else if P.isBlank l then .ok ⟨.ok, last, []⟩
  else do
    if ← P.isDataCrcValid l then P.pass l [] else return ⟨.ok, last, []⟩

def lookingForDg (l : List Byte) (last : ℕ) : Except Abort Look :=
  if headSize l ≠ sizeofHead then .ok ⟨.sizeDg, last, []⟩
  else match P.version (msgType l) with
    | some version => P.checkKd version l
    | none => P.checkHead l last

/-- A turn of the loop of `MAnalizeBuffer`: the datagram is looked for where the turn begins, also
    when the header was found behind it. -/
def turn (l : List Byte) : Except Abort ParseTurn := do
  let (code, last) ← lookingForHead l
  let look ← if code = .ok then P.lookingForDg l last else pure ⟨code, last, []⟩
  match look.code with
  | .ok => return .next (if look.last ≠ 0 then look.last else 1) look.passed
  | .sizeDg => return .next 1 []
  | .bufferIsSmall | .noDg => return .stop look.last

abbrev Parsed := List (List Byte) × List Byte

/-- The body of the loop of `MAnalizeBuffer`. -/
def analizeTurn (s : Parsed) : Except Abort (Parsed ⊕ Parsed) :=
  if s.2 = [] then .ok (.inr s)
  else do
    match ← P.turn s.2 with
    | .next n passed => return .inl (s.1 ++ passed, s.2.drop n)
    | .stop n => return .inr (s.1, s.2.drop n)

def analizeBuffer (l : List Byte) : Except Abort Parsed :=
  (loop P.analizeTurn (l.length + 1) ([], l)).getD (.error .hang)

/-- Bytes that are received, and what the memory behind the bytes of `FBuf` holds then. -/
structure Chunk where
  bytes : List Byte
  behind : ℕ → Byte

/-- `erase` of the first bytes of a buffer, of which some are left: the start moves, the size stays,
    so that as many bytes of the memory behind it belong to the buffer. -/
def eraseFront (behind : ℕ → Byte) (n : ℕ) (buf : List Byte) : List Byte :=
  buf.drop n ++ (List.range n).map behind

/-- `FBuf` when `rest` is what was not passed over. -/
def bufferAfter (behind : ℕ → Byte) (buf chunk rest : List Byte) : List Byte :=
  if rest = [] ∨ buf = [] then rest
  else eraseFront behind ((buf ++ chunk).length - rest.length) (buf ++ chunk)

/-- `MReceivedData`, with the datagrams passed so far and `FBuf`. -/
def receivedData (chunk : Chunk) (s : Parsed) : Except Abort Parsed :=
  if chunk.bytes = [] then .ok s
  else do
    let (passed, rest) ← P.analizeBuffer (s.2 ++ chunk.bytes)
    return (s.1 ++ passed, bufferAfter chunk.behind s.2 chunk.bytes rest)

def receiveAll (chunks : List Chunk) : Except Abort Parsed := runAll P.receivedData chunks ([], [])

def received (chunks : List Chunk) : List Byte := chunks.flatMap Chunk.bytes

end Receives

end UdtKernel
