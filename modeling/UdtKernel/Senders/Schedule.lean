import Mathlib.Data.Finset.Max
import Mathlib.Data.Int.Order.Basic
import UdtKernel.Info.Net
import UdtKernel.Io.Buffering

set_option autoImplicit false

/-! How user data comes from the buffers to the channels: the senders of `CKernelIo`. -/

namespace UdtKernel.Senders
open UdtKernel.Lib

def eSocketClosed : ErrorType := 2 ^ 15
def eBufferIsFull : ErrorType := 2 ^ 16

/-- A packet as it was accepted, which nothing looks at, and as it is now. -/
structure Item where
  accepted : UserData
  current : UserData

inductive Outcome where
  /-- `MSend` took it. -/
  | sent (as_ : UserData)
  /-- `MSend` refused it, or was not called any more. -/
  | failed (as_ : UserData) (error : ErrorType)
  /-- `MFillMsgHandlersFor` refused it. -/
  | refused (as_ : UserData) (error : ErrorType)
  /-- Its sender did not find the descriptor. -/
  | dropped
  /-- It was in the buffer when the channel was removed. -/
  | closed (as_ : UserData)

def Outcome.report : Outcome → Option FailSend
  | .failed as_ e | .refused as_ e => some ((FailSend.ofInfo as_.dataId).setError e)
  | .closed as_ => some ((FailSend.ofInfo as_.dataId).setError eSocketClosed)
  | .sent _ | .dropped => none

/-- Where a thread stands in `MSendUserDataImpl`. -/
inductive Place where
  /-- Before `MBeginSend`. -/
  | started
  /-- In `MBeginSend`, with the descriptor that it took; it reads `FIoManagers`. -/
  | chosen (desc : Descriptor)
  /-- Behind `MBeginSend`. -/
  | begun (desc : Descriptor) (data : List Packet)
  /-- At the beginning of the loop. -/
  | looping (desc : Descriptor) (isConsumer : Bool) (data : List Packet)
  /-- In `MSendingUserDataTo`. -/
  | sending (desc : Descriptor) (isConsumer isNotClosed : Bool) (data : List Item)
      (fails : List FailSend)
  /-- Before `MNextSend`. -/
  | next (desc : Descriptor) (isConsumer : Bool)

/-- `FIoManagers`, `FOperartionSendFor` and the operations of `sMSendUser`; `descriptors` are the
types of the programs that `CDescriptors` knows of. -/
structure State where
  managers : Descriptor → Option Buffering
  currentSm : ℕ
  operationSendFor : Finset Descriptor
  pending : ℕ
  running : SortedMap ℕ Place
  descriptors : Descriptor → Option ProgramType
  /-- The descriptors that a channel was added for, and as what they were opened. -/
  added : Descriptor → Bool
  types : Descriptor → Option ProgramType
  /-- What the buffers took, the packets of it that are through, and the calls of
  `MNoteFailSend`. -/
  accepted : Descriptor → List UserData
  outcomes : List (Descriptor × UserData × Outcome)
  noted : List (List FailSend)

namespace State

def init : State :=
  ⟨fun _ => none, 0, ∅, 0, .empty, fun _ => none, fun _ => false, fun _ => none, fun _ => [], [],
    []⟩

variable (s : State)

def note (fails : List FailSend) : State :=
  if fails = [] then s else { s with noted := s.noted ++ [fails] }

def conclude (desc : Descriptor) (l : List (UserData × Outcome)) : State :=
  { s with outcomes := s.outcomes ++ l.map fun o => (desc, o) }

/-- A thread has `FIoManagers` for reading. -/
def isRead : Bool :=
  s.running.values.any fun
    | .chosen _ => true
    | _ => false

def mAddChannelFor (aVal : Descriptor) (limits : ℕ × ℕ) : State :=
  match s.managers aVal with
  | some _ => s
  | none => { s with
      managers := Function.update s.managers aVal (some (.init limits.1 limits.2))
      added := Function.update s.added aVal true }

/-- `MRemoveManagerFor`, with the data that is not sent. -/
def mRemoveManagerFor (aVal : Descriptor) : State × List Packet :=
  let s := { s with operationSendFor := s.operationSendFor.erase aVal }
  match s.managers aVal with
  | none => (s, [])
  | some m =>
    ({ s with managers := Function.update s.managers aVal none }, m.clearImidiatle.2)

def mRemoveChannelFor (aVal : Descriptor) : State :=
  let (s, notSent) := s.mRemoveManagerFor aVal
  (s.conclude aVal (notSent.map fun p => (p.data, .closed p.data))).note
    (notSent.map fun p => (FailSend.ofInfo p.data.dataId).setError eSocketClosed)

/-- The buffer of a descriptor, with the size of what is in shared memory. -/
def setManager (desc : Descriptor) (currentSm : ℕ) (m : Buffering) : State :=
  { s with currentSm := currentSm, managers := Function.update s.managers desc (some m) }

def take (aBy : Descriptor) (currentSm : ℕ) (m : Buffering) (taken : List Packet) : State :=
  { s.setManager aBy currentSm m with
    accepted := Function.update s.accepted aBy (s.accepted aBy ++ taken.map Packet.data) }

/-- Somebody has to send for a descriptor, unless somebody does or is going to. -/
def wake (aBy : Descriptor) (m : Buffering) : State :=
  if m.doingThread = 0 ∧ aBy ∉ s.operationSendFor then
    { s with
      operationSendFor := insert aBy s.operationSendFor
      pending := s.pending + 1 }
  else s

/-- `MPutUserDataToSendFifo`, with the packets that are not taken. -/
def mPutUserDataToSendFifo (aBy : Descriptor) (aData : List Packet) :
    Except Abort (ErrorType × State × List Packet) :=
  match s.managers aBy with
  | none => .ok (eSocketClosed, s, aData)
  | some m =>
    if aData = [] then .error .noUserData
    else
      let r := m.put s.currentSm aData
      .ok (if r.2 = [] then eNoError else eBufferIsFull,
        (s.take aBy r.1.1 r.1.2 (aData.take (aData.length - r.2.length))).wake aBy r.1.2, r.2)

def mSendUserData (aBy : Descriptor) (aData : List Packet) :
    Except Abort (ErrorType × State × List Packet) :=
  if !isValidDescriptor aBy then .ok (eSocketClosed, s, aData)
  else if aData = [] then .ok (eNoError, s, aData)
  else s.mPutUserDataToSendFifo aBy aData

def setPlace (t : ℕ) (p : Place) : State := { s with running := s.running.insert t p }

def end_ (t : ℕ) : State := { s with running := s.running.erase t }

def start (t : ℕ) : State :=
  if t ≠ 0 ∧ s.pending ≠ 0 ∧ s.running.find t = none then
    { s with pending := s.pending - 1 }.setPlace t .started
  else s

/-- The first block of `MBeginSend`. -/
def choose (t : ℕ) : State :=
  if h : s.operationSendFor.Nonempty then
    let desc := s.operationSendFor.min' h
    { s with operationSendFor := s.operationSendFor.erase desc }.setPlace t (.chosen desc)
  else s.end_ t

/-- The second block of `MBeginSend`. -/
def begin_ (t : ℕ) (desc : Descriptor) : Except Abort State :=
  match s.managers desc with
  | none => .ok (s.end_ t)
  | some m =>
    if m.doingThread ≠ 0 then .ok (s.end_ t)
    else do
      match ← m.try_ t s.currentSm with
      | none => return s.end_ t
      | some (r, data) => return (s.setManager desc r.1 r.2).setPlace t (.begun desc data)

/-- `CDescriptors::sMIsValid` and `MGet` decide whether the loop is entered. -/
def enter (t : ℕ) (desc : Descriptor) (data : List Packet) : State :=
  match if isValidDescriptor desc then s.descriptors desc else none with
  | some type => s.setPlace t (.looping desc (decide (type = .consumer)) data)
  | none => (s.conclude desc (data.map fun p => (p.data, .dropped))).end_ t

end State

/-- What `MFillMsgHandlersFor` makes of a packet at that time: it goes on when there is no error. -/
abbrev Filling := UserData → UserData × ErrorType

/-- What a thread meets: the handlers, and whether `MSend` succeeds. -/
structure Meeting where
  filling : Filling
  isSent : Bool

namespace State

variable (s : State)

/-- `MFillMsgHandlersFor` for a consumer, nothing for a kernel. -/
def fill (filling : Filling) (t : ℕ) (desc : Descriptor) (isConsumer : Bool)
    (data : List Packet) : Except Abort State :=
  if isConsumer then
    if data.any fun p => p.data.dataId.routing.uuids.length ≠ 1 then .error .sizeIsWrong
    else
      let fails := data.filter fun p => (filling p.data).2 ≠ eNoError
      let handled := data.filter fun p => (filling p.data).2 = eNoError
      .ok ((s.conclude desc (fails.map fun p =>
          (p.data, .refused (filling p.data).1 (filling p.data).2))).setPlace t
        (.sending desc isConsumer true (handled.map fun p => ⟨p.data, (filling p.data).1⟩)
          (fails.map fun p =>
            (FailSend.ofInfo (filling p.data).1.dataId).setError (filling p.data).2)))
  else
    .ok (s.setPlace t
      (.sending desc isConsumer true (data.map fun p => ⟨p.data, p.data⟩) []))

/-- One turn of `MSendingUserDataTo`, and `MNoteFailSend` behind its last one. -/
def send (isSent : Bool) (t : ℕ) (desc : Descriptor) (isConsumer isNotClosed : Bool)
    (fails : List FailSend) : List Item → State
  | [] => (s.note fails).setPlace t (.next desc isConsumer)
  | i :: rest =>
    if isNotClosed && isSent then
      (s.conclude desc [(i.accepted, .sent i.current)]).setPlace t
        (.sending desc isConsumer isNotClosed rest fails)
    else
      let isNotClosed := isNotClosed && (s.descriptors desc).isSome
      let error := if isNotClosed then eSocketClosed else eUnknownError
      (s.conclude desc [(i.accepted, .failed i.current error)]).setPlace t
        (.sending desc isConsumer isNotClosed rest
          (fails ++ [(FailSend.ofInfo i.current.dataId).setError error]))

def mNextSend (t : ℕ) (desc : Descriptor) (isConsumer : Bool) : Except Abort State :=
  match s.managers desc with
  | none => .ok (s.end_ t)
  | some m => do
    let m ← m.finish t [] false
    match ← m.try_ t s.currentSm with
    | none => return (s.setManager desc s.currentSm m).end_ t
    | some (r, data) =>
      return (s.setManager desc r.1 r.2).setPlace t (.looping desc isConsumer data)

def goOn (t : ℕ) (meeting : Meeting) : Except Abort State :=
  match s.running.find t with
  | none => .ok s
  | some .started => .ok (s.choose t)
  | some (.chosen desc) => s.begin_ t desc
  | some (.begun desc data) => .ok (s.enter t desc data)
  | some (.looping desc isConsumer data) => s.fill meeting.filling t desc isConsumer data
  | some (.sending desc isConsumer isNotClosed data fails) =>
    .ok (s.send meeting.isSent t desc isConsumer isNotClosed fails data)
  | some (.next desc isConsumer) => s.mNextSend t desc isConsumer

end State

inductive Step where
  | addChannel (aVal : Descriptor) (limits : ℕ × ℕ)
  | removeChannel (aVal : Descriptor)
  | opened (aVal : Descriptor) (type : ProgramType)
  | closed (aVal : Descriptor)
  | send (aBy : Descriptor) (aData : List Packet)
  | start (t : ℕ)
  | goOn (t : ℕ) (meeting : Meeting)

/-- Channels are added and removed while nobody reads `FIoManagers`. -/
def step : Step → State → Except Abort State
  | .addChannel aVal limits, s => .ok (if s.isRead then s else s.mAddChannelFor aVal limits)
  | .removeChannel aVal, s => .ok (if s.isRead then s else s.mRemoveChannelFor aVal)
  | .opened aVal type, s =>
    .ok { s with
      descriptors := Function.update s.descriptors aVal (some type)
      types := Function.update s.types aVal (some type) }
  | .closed aVal, s => .ok { s with descriptors := Function.update s.descriptors aVal none }
  | .send aBy aData, s => do
    let (_, s, _) ← s.mSendUserData aBy aData
    return s
  | .start t, s => .ok (s.start t)
  | .goOn t meeting, s => s.goOn t meeting

/-- How the rest of the kernel uses it: a descriptor is a new number, opened as one type of
program; what is sent to a channel has an open descriptor, and one receiver when that is a
consumer; a descriptor is closed behind its channel. -/
def Used (s : State) : Step → Prop
  | .addChannel aVal _ => s.added aVal = false
  | .opened aVal type => ∀ type' ∈ s.types aVal, type' = type
  | .closed aVal => (s.managers aVal).isNone = true
  | .send aBy aData => (s.managers aBy).isSome = true → ∃ type ∈ s.descriptors aBy,
      type = .consumer → ∀ p ∈ aData, p.data.dataId.routing.uuids.length = 1
  | .removeChannel _ | .start _ | .goOn _ _ => True

instance (s : State) : (op : Step) → Decidable (Used s op)
  | .addChannel aVal _ => inferInstanceAs (Decidable (s.added aVal = false))
  | .opened aVal type => inferInstanceAs (Decidable (∀ type' ∈ s.types aVal, type' = type))
  | .closed aVal => inferInstanceAs (Decidable ((s.managers aVal).isNone = true))
  | .send aBy aData => inferInstanceAs (Decidable ((s.managers aBy).isSome = true →
      ∃ type ∈ s.descriptors aBy,
        type = .consumer → ∀ p ∈ aData, p.data.dataId.routing.uuids.length = 1))
  | .removeChannel _ | .start _ | .goOn _ _ => isTrue trivial

end UdtKernel.Senders
