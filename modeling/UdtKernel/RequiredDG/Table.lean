import Mathlib.Data.Prod.Lex
import UdtKernel.RequiredDG.Demand

set_option autoImplicit false

/-! The table of who sends which messages to whom. -/

namespace UdtKernel
open UdtKernel.Lib

namespace RequiredDG

/-- Where `std::lower_bound` finds the place of a priority. -/
def lowerBound (aPriorities : List ℕ) (aPriority : ℕ) : ℕ :=
  (aPriorities.takeWhile (· < aPriority)).length

theorem insertIdx_lowerBound (ps : List ℕ) (p : ℕ) :
    ps.insertIdx (lowerBound ps p) p = ps.takeWhile (· < p) ++ p :: ps.dropWhile (· < p) := by
  unfold lowerBound
  induction ps with
  | nil => rfl
  | cons q ps ih =>
    by_cases hq : q < p
    · simpa [hq] using ih
    · simp [hq]

theorem insertIdx_sorted {ps : List ℕ} (h : ps.Pairwise (· ≤ ·)) (p : ℕ) :
    (ps.insertIdx (lowerBound ps p) p).Pairwise (· ≤ ·) := by
  rw [insertIdx_lowerBound]
  induction ps with
  | nil => simp
  | cons q ps ih =>
    obtain ⟨hq, hps⟩ := List.pairwise_cons.1 h
    by_cases hqp : q < p
    · simp only [hqp, decide_true, List.takeWhile_cons_of_pos, List.dropWhile_cons_of_pos,
        List.cons_append]
      refine List.pairwise_cons.2 ⟨fun x hx => ?_, ih hps⟩
      have hsplit := List.takeWhile_append_dropWhile (p := (· < p)) (l := ps)
      rcases List.mem_append.1 hx with hx | hx
      · exact hq x (hsplit ▸ List.mem_append_left _ hx)
      · rcases List.mem_cons.1 hx with rfl | hx
        · exact hqp.le
        · exact hq x (hsplit ▸ List.mem_append_right _ hx)
    · simp only [hqp, decide_false, Bool.false_eq_true, not_false_eq_true,
        List.takeWhile_cons_of_neg, List.dropWhile_cons_of_neg, List.nil_append]
      refine List.pairwise_cons.2 ⟨fun x hx => ?_, h⟩
      rcases List.mem_cons.1 hx with rfl | hx
      · exact not_lt.1 hqp
      · exact (not_lt.1 hqp).trans (hq x hx)

/-- `msg_handlers_t`: the handlers of a message with their priorities, in order of priority. -/
structure MsgHandlers where
  handlers : List ℕ
  priorities : List ℕ
  version : Version
  real : ℕ
  sameLength : handlers.length = priorities.length
  sorted : priorities.Pairwise (· ≤ ·)

namespace MsgHandlers

def empty : MsgHandlers := ⟨[], [], ⟨0, 0, 0⟩, 0, rfl, List.Pairwise.nil⟩

def put (c : MsgHandlers) (aHandler aPriority : ℕ) : MsgHandlers :=
  let i := lowerBound c.priorities aPriority
  { c with
    handlers := c.handlers.insertIdx i aHandler
    priorities := c.priorities.insertIdx i aPriority
    sameLength := by rw [List.length_insertIdx, List.length_insertIdx, c.sameLength]
    sorted := insertIdx_sorted c.sorted aPriority }

def removeAt (c : MsgHandlers) (i : ℕ) : MsgHandlers :=
  { c with
    handlers := c.handlers.eraseIdx i
    priorities := c.priorities.eraseIdx i
    sameLength := by rw [List.length_eraseIdx, List.length_eraseIdx, c.sameLength]
    sorted := c.sorted.sublist (List.eraseIdx_sublist _ _) }

/-- A handler that is there already moves when its new priority comes first, else stays. -/
def place (c : MsgHandlers) (aWhat : DemandDg) : MsgHandlers :=
  match c.handlers.idxOf? aWhat.handler with
  | some i =>
    if aWhat.handlerPriority < c.priorities.getD i 0 then
      (c.removeAt i).put aWhat.handler aWhat.handlerPriority
    else c
  | none => c.put aWhat.handler aWhat.handlerPriority

/-- `MAddHandler`: the flag says that it is the first real handler. -/
def addHandler (c : MsgHandlers) (aWhat : DemandDg) : Bool × MsgHandlers :=
  let c := c.place aWhat
  let c := if aWhat.what.version.isExist then { c with version := aWhat.what.version } else c
  if aWhat.flags.registrator then (false, c)
  else (c.real + 1 = 1, { c with real := c.real + 1 })

/-- `MRemoveHandler`: the flag says that it was the last real handler. -/
def removeHandler (c : MsgHandlers) (aWhat : DemandDg) : Except Abort (Bool × MsgHandlers) :=
  if aWhat.flags.registrator = false ∧ c.real = 0 then .error .noHandlerToRemove
  else
    let real := if aWhat.flags.registrator then c.real else c.real - 1
    let removed := match c.handlers.idxOf? aWhat.handler with
      | some i => c.removeAt i
      | none => c
    .ok (!aWhat.flags.registrator && real = 0, { removed with real := real })

end MsgHandlers

/-- `uuids_of_receiver_t`; the number of real receivers is an `unsigned`. -/
structure ReceiversOfMsg where
  receivers : SortedMap Uuid MsgHandlers
  numberOfReal : ℕ

def ReceiversOfMsg.empty : ReceiversOfMsg := ⟨.empty, 0⟩

/-- `uuids_of_expecting_dg_t`. -/
abbrev ExpectingDg := SortedMap Header ReceiversOfMsg

structure DataRouting where
  bufferedData : List Byte
  expected : ExpectingDg

def DataRouting.empty : DataRouting := ⟨[], .empty⟩

end RequiredDG

/-- `CRequiredDG`. `ids` are the names by uuid, `nearestInfo` the distances by receiver and
    handler. -/
structure RequiredDG where
  whatIsSendingBy : SortedMap Uuid (SortedMap Protocol RequiredDG.DataRouting)
  dgs : DemandDgsFor
  ids : SortedMap Uuid Text
  msgsGenealogy : Genealogy
  nearestInfo : SortedMap (Uuid ×ₗ ℕ) ℕ

namespace RequiredDG

def start (g : Genealogy) : RequiredDG := ⟨.empty, .empty, .empty, g, .empty⟩

/-- `MGetOrCreateExpectedListFor(..).FExpected`. -/
def expectedFor (dg : RequiredDG) (aFrom : Uuid) (aProtocol : Text) : ExpectingDg :=
  match (dg.whatIsSendingBy.find aFrom).bind fun protocols => protocols.find ⟨aProtocol⟩ with
  | some routing => routing.expected
  | none => .empty

/-- Change the list of a sender and a protocol, which is created when it does not exist. -/
def setExpected (dg : RequiredDG) (aFrom : Uuid) (aProtocol : Text) (aTo : ExpectingDg) :
    RequiredDG :=
  let put (protocols : SortedMap Protocol DataRouting) : SortedMap Protocol DataRouting :=
    protocols.alter ⟨aProtocol⟩ fun r => some ⟨(r.getD .empty).bufferedData, aTo⟩
  { dg with
    whatIsSendingBy := dg.whatIsSendingBy.alter aFrom fun o => some (put (o.getD .empty)) }

/-- A table together with what is reported of its change: the demands that a sender begins
    and ceases to be sent for. -/
structure Patch where
  dg : RequiredDG
  new : DemandDgsFor
  removed : DemandDgsFor

def named (aWhat : DemandDg) (aTo : Uuid) : DemandDg := { aWhat with uuidFrom := some aTo }

def registeringReceiverForMsg (aWhat : DemandDg) (aFrom aTo : Uuid) (s : Patch) : Patch :=
  let uuids := s.dg.expectedFor aFrom aWhat.protocol
  let r := (uuids.find aWhat.what.messageHeader).getD .empty
  let added := ((r.receivers.find aTo).getD .empty).addHandler aWhat
  let r : ReceiversOfMsg :=
    { receivers := r.receivers.insert aTo added.2
      numberOfReal := if aWhat.flags.registrator then r.numberOfReal
        else (r.numberOfReal + 1) % 2 ^ 32 }
  { s with
    dg := s.dg.setExpected aFrom aWhat.protocol (uuids.insert aWhat.what.messageHeader r)
    new := if added.1 then pushDemand s.new aFrom (named aWhat aTo) else s.new }

/-- `MUnRegisteringReceiverForMsg`: receivers without handlers and messages without receivers
    are dropped. -/
def unRegisteringReceiverForMsg (aWhat : DemandDg) (aFrom aTo : Uuid) (s : Patch) :
    Except Abort Patch :=
  let uuids := s.dg.expectedFor aFrom aWhat.protocol
  let untouched := { s with dg := s.dg.setExpected aFrom aWhat.protocol uuids }
  match uuids.find aWhat.what.messageHeader with
  | none => .ok untouched
  | some r => match r.receivers.find aTo with
    | none => .ok untouched
    | some c => do
      let (isLast, c) ← c.removeHandler aWhat
      let r : ReceiversOfMsg :=
        { receivers := if c.handlers = [] then r.receivers.erase aTo else r.receivers.insert aTo c
          numberOfReal := if aWhat.flags.registrator then r.numberOfReal
            else (r.numberOfReal + 2 ^ 32 - 1) % 2 ^ 32 }
      let uuids :=
        if r.receivers.entries = [] then uuids.erase aWhat.what.messageHeader
        else uuids.insert aWhat.what.messageHeader r
      return { s with
        dg := s.dg.setExpected aFrom aWhat.protocol uuids
        removed := if isLast then pushDemand s.removed aFrom (named aWhat aTo) else s.removed }

/-- How a parser module changes the byte order of a header of its protocol, if it can. -/
abbrev SwapHeader := Text → RequiredHeader → Option RequiredHeader

def getValidHeader (swap : SwapHeader) (aWhat : DemandDg) : Option DemandDg :=
  if aWhat.isValidEndian then some aWhat
  else match swap aWhat.protocol aWhat.what with
    | some what => some { aWhat with what := what }.switchEndianFlag
    | none => none

def withChildren (g : Genealogy) (aMsg : DemandDg) : List DemandDg :=
  aMsg :: (g.getMessageChildren aMsg.protocol aMsg.what).map (getChildDemand aMsg)

/-- `MSendPacketFromTo` with `MIncludeMessageChildren`. -/
def sendPacketFromTo (swap : SwapHeader) (aFrom aTo : Uuid) (aWhat : DemandDg) (s : Patch) :
    Patch :=
  let s := { s with dg :=
    s.dg.setExpected aFrom aWhat.protocol (s.dg.expectedFor aFrom aWhat.protocol) }
  match getValidHeader swap aWhat with
  | none => s
  | some msg => (withChildren s.dg.msgsGenealogy msg).foldl
      (fun s d => registeringReceiverForMsg d aFrom aTo s) s

/-- `MUnSendPacketFromTo` with `MUnincludeMessageChildren`. -/
def unSendPacketFromTo (swap : SwapHeader) (aFrom aTo : Uuid) (aWhat : DemandDg) (s : Patch) :
    Except Abort Patch :=
  let s := { s with dg :=
    s.dg.setExpected aFrom aWhat.protocol (s.dg.expectedFor aFrom aWhat.protocol) }
  match getValidHeader swap aWhat with
  | none => .ok s
  | some msg => (withChildren s.dg.msgsGenealogy msg).foldlM
      (fun s d => unRegisteringReceiverForMsg d aFrom aTo s) s

end RequiredDG

end UdtKernel
