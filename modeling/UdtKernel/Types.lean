import Mathlib.Data.Nat.Notation
import Mathlib.Data.Int.Notation
import Mathlib.Data.Fin.Basic
import Mathlib.Data.List.Basic
import Mathlib.Algebra.GroupWithZero.Nat
import Mathlib.Algebra.Group.Int.Defs
import Mathlib.Order.CompletePartialOrder

set_option autoImplicit false

/-! The types that the kernel's services share. -/

namespace UdtKernel

/-- `uuid_t`, one 64-bit value; `MIs` holds of every value but zero. -/
abbrev Uuid := ℕ

/-- `descriptor_t`, an `int`; the valid ones are not negative. -/
abbrev Descriptor := ℤ

abbrev Text := List Char

abbrev Byte := Fin 256

instance neZeroByte : NeZero 256 := ⟨by decide⟩

/-- The eight bytes of `FMessageHeader`, ordered as `memcmp` orders them. -/
abbrev Header := List Byte

def invalidDescriptor : Descriptor := -1

def isValidDescriptor (d : Descriptor) : Bool := decide (0 ≤ d)

inductive Endian where
  | little
  | big
  deriving DecidableEq

/-- `E_SHARE_ENDIAN`: the byte order of the machine the kernel is built for. -/
def shareEndian : Endian := .little

structure Version where
  major : ℕ
  minor : ℕ
  release : ℕ
  deriving DecidableEq

structure RequiredHeader where
  version : Version
  messageHeader : Header
  deriving DecidableEq

/-- `id_t`: the name is carried along, comparisons look at the uuid only. -/
structure Id where
  uuid : Uuid
  name : Text
  deriving DecidableEq

structure Routing where
  from_ : Id
  uuids : List Uuid
  deriving DecidableEq

structure SplitPacket where
  isLast : Bool
  counter : ℕ
  coefficient : ℕ
  deriving DecidableEq

/-- The default `split_packet_t`, that of a packet which is not split. -/
def SplitPacket.default : SplitPacket := ⟨true, 1, 1⟩

structure UserDataInfo where
  packetNumber : ℕ
  protocol : Text
  dataOffset : ℕ
  eventsList : List ℕ
  destination : List Uuid
  registrators : List Uuid
  routing : Routing
  split : SplitPacket
  endian : Endian
  what : RequiredHeader
  deriving DecidableEq

structure UserData where
  dataId : UserDataInfo
  data : List Byte
  deriving DecidableEq

/-- `error_type`, a mask of `eErrorBitwiseCode` bits. -/
abbrev ErrorType := ℕ

def eNoError : ErrorType := 0x0
def eCannotSwapEndian : ErrorType := 2 ^ 9
def eHandlerIsNotExist : ErrorType := 2 ^ 10
def eNoRoute : ErrorType := 2 ^ 11
def eUnknownError : ErrorType := 2 ^ 12
def eParserIsNotExist : ErrorType := 2 ^ 13
def ePacketLost : ErrorType := 2 ^ 17
def eDataTooLarge : ErrorType := 2 ^ 18
def eMergeError : ErrorType := 2 ^ 19
def eProtocolVersionIsNotCompatible : ErrorType := 2 ^ 20

structure FailSend where
  info : UserDataInfo
  error : ErrorType
  deriving DecidableEq

def setRouting (info : UserDataInfo) (aTo : List Uuid) : UserDataInfo :=
  { info with routing := { info.routing with uuids := aTo } }

@[simp] theorem setRouting_routing (info : UserDataInfo) (aTo : List Uuid) :
    (setRouting info aTo).routing = ⟨info.routing.from_, aTo⟩ := rfl

namespace FailSend

/-- `fail_send_t(info)`, with no error set yet. -/
def ofInfo (info : UserDataInfo) : FailSend := ⟨info, eNoError⟩

def setError (f : FailSend) (e : ErrorType) : FailSend := { f with error := f.error ||| e }

/-- `fail_send_t(info, aTo, error)`: the routing list is replaced by `aTo`. -/
def ofRouting (info : UserDataInfo) (aTo : List Uuid) (e : ErrorType) : FailSend :=
  ⟨setRouting info aTo, eNoError ||| e⟩

@[simp] theorem setError_info (f : FailSend) (e : ErrorType) : (f.setError e).info = f.info := rfl

end FailSend

structure RoutingUserData where
  desc : Descriptor
  data : List UserData
  deriving DecidableEq

/-- What ends the process: a `CHECK` that fails, a division by zero, or a place outside of the
    memory that is looked at. -/
inductive Abort where
  | splitOfEmptyData
  | splitByZero
  | nothingToMerge
  | firstPieceIsLast
  | mergeStartsInTheMiddle
  | lostPieceOfWholePacket
  | piecesAfterLast
  | wholePacketAmongPieces
  | addressEndsWithSeparator
  | noHandlerToRemove
  | clientIsKnown
  | removedSenderTooNear
  | missingVertex
  | negativeLatency
  | missingOwnKernel
  | missingUuidFrom
  | kernelIsPresent
  | bufferIsHandled
  | bufferIsNotHandled
  | readOutside
  | positionOutside
  | hang
  | textIsShort
  | textIsEmpty
  | sizeIsWrong
  | countIsWrong
  | arrayWithoutKey
  | noUserData
  | emptyRange
  deriving DecidableEq

/-- `CBuffer::insert` of a range of constant iterators at the end: a range without a byte is
    refused. -/
def insertRange (aTo aRange : List Byte) : Except Abort (List Byte) :=
  if aRange = [] then .error .emptyRange else .ok (aTo ++ aRange)

theorem insertRange_nil (aTo : List Byte) : insertRange aTo [] = .error .emptyRange := if_pos rfl

theorem insertRange_eq (aTo : List Byte) {aRange : List Byte} (h : aRange ≠ []) :
    insertRange aTo aRange = .ok (aTo ++ aRange) := if_neg h

end UdtKernel
