import Mathlib.Logic.Function.Basic
import Mathlib.Data.Nat.Notation
import Mathlib.Algebra.GroupWithZero.Nat
import Mathlib.Order.CompletePartialOrder

set_option autoImplicit false

/-! The clock of a model, which its participants advance together: `CRTCForModeling`. -/

namespace UdtKernel.Rtc

inductive Fault where
  | past
  | notLater
  | manyUnlocked
  | waiters
  deriving DecidableEq

def endOfTime : ℕ := 2 ^ 64 - 1

/-- A participant that is blocked in `MNextTime`: `aNewTime`, `_time` and `_prev_step`. -/
structure Request where
  newTime : ℕ
  time : ℕ
  prevStep : ℕ

/-- `CRTCForModeling`; a participant leaves while `MLeaveFromRTC` waits for its `MNextTime`. -/
structure Participant where
  isJoin : Bool
  isLeaving : Bool
  request : Option Request

/-- `time_info_t`, the signal of `FHasToBeUpdated`, and the `_step` of the dispatcher. The posts
of `FTimeUpdated` are as many as `numOfUnlocked`. -/
structure Clock where
  numOfWorking : ℕ
  numOfWait : ℕ
  numOfLocked : ℕ
  numOfUnlocked : ℕ
  timeStep : ℕ
  time : ℕ
  nextTimer : ℕ
  hasToBeUpdated : Bool
  step : ℕ
  isDone : Bool
  participant : ℕ → Participant

namespace Clock

def new : Clock where
  numOfWorking := 0
  numOfWait := 0
  numOfLocked := 0
  numOfUnlocked := 0
  timeStep := 0
  time := 0
  nextTimer := endOfTime
  hasToBeUpdated := false
  step := 0
  isDone := false
  participant := fun _ => ⟨false, false, none⟩

variable (s : Clock)

def setParticipant (p : ℕ) (q : Participant) : Clock :=
  { s with participant := Function.update s.participant p q }

def mCheckForTimeHasCome : Except Fault Clock :=
  if s.numOfWait = s.numOfWorking ∧ 0 < s.numOfWorking then
    if s.nextTimer ≤ s.time then .error .notLater
    else .ok { s with hasToBeUpdated := true, timeStep := s.timeStep + 1, numOfWait := 0 }
  else .ok s

def mResetRTC : Clock :=
  if s.time = endOfTime ∨ s.numOfWorking = 0 then
    { s with time := 0, timeStep := 0, nextTimer := endOfTime }
  else s

/-- `MJoinToRTC`; it waits while the participant is in `MNextTime` or leaves. -/
def mJoinToRTC (p : ℕ) : Clock :=
  let q := s.participant p
  if q.isJoin || q.isLeaving || q.request.isSome then s
  else { s with numOfWorking := s.numOfWorking + 1 }.setParticipant p { q with isJoin := true }

/-- `MNextTime` until it waits for `FTimeUpdated`, when there is nobody to be unlocked. -/
def beginNextTime (p aNewTime : ℕ) : Except Fault Clock :=
  let q := s.participant p
  if q.isJoin && q.request.isNone && s.numOfUnlocked == 0 then
    if aNewTime < s.time then .error .past
    else if s.numOfWorking = 0 then .error .waiters
    else
      mCheckForTimeHasCome
        { s with
          nextTimer := min aNewTime s.nextTimer
          numOfLocked := s.numOfLocked + 1
          numOfWait := s.numOfWait + 1
          participant := Function.update s.participant p
            { q with request := some ⟨aNewTime, s.time, s.timeStep⟩ } }
  else .ok s

/-- `MNextTime` after a post of `FTimeUpdated`; it returns, or waits again. -/
def endNextTime (p : ℕ) : Except Fault (Option ℕ × Clock) :=
  let q := s.participant p
  match q.request with
  | none => .ok (none, s)
  | some r =>
    if s.numOfUnlocked = 0 then .ok (none, s)
    else
      let s := { s with numOfUnlocked := s.numOfUnlocked - 1 }
      if 2 ^ 16 - 1 ≤ s.numOfUnlocked then .error .manyUnlocked
      else if r.time = s.time ∧ q.isJoin = true then .ok (none, s)
      else if s.numOfLocked = 0 then .error .waiters
      else
        let s := { s with numOfLocked := s.numOfLocked - 1 }.setParticipant p
          { q with request := none }
        if q.isJoin then
          if r.prevStep + 1 ≠ s.timeStep ∨ r.newTime < s.time ∨ s.numOfWorking ≤ s.numOfLocked then
            .error .waiters
          else .ok (some s.time, s)
        else .ok (some r.newTime, s)

def mUnlockWaiter : Except Fault Clock :=
  if s.numOfUnlocked ≠ 0 then .error .waiters
  else .ok { s with numOfUnlocked := s.numOfLocked }

def mUpdateTime (aNewTime : ℕ) : Except Fault Clock :=
  let s := { s with time := aNewTime }
  if s.nextTimer ≤ s.time then mUnlockWaiter { s with nextTimer := endOfTime }
  else .ok s

def mDispatcher : Except Fault Clock :=
  if s.hasToBeUpdated && !s.isDone then
    let s := { s with hasToBeUpdated := false }
    if s.step = s.timeStep then .ok s
    else if s.numOfUnlocked ≠ 0 ∨ s.numOfLocked ≠ s.numOfWorking ∨ s.numOfWait ≠ 0 then
      .error .waiters
    else do
      let s ← s.mUpdateTime s.nextTimer
      return { s with step := s.timeStep, isDone := s.time == endOfTime }
  else .ok s

/-- One participant less is counted, which has waited in `MNextTime` or not. -/
def takeOut (wasWait : Bool) : Clock :=
  { s with
    numOfWorking := s.numOfWorking - 1
    numOfWait := if wasWait then s.numOfWait - 1 else s.numOfWait }

/-- The end of `MLeaveFromRTC`. -/
def resetOrCheck : Except Fault Clock :=
  if s.numOfWorking = 0 then .ok s.mResetRTC else s.mCheckForTimeHasCome

/-- `MLeaveFromRTC`, until it has to wait for the end of `MNextTime`. -/
def mLeaveFromRTC (p : ℕ) : Except Fault Clock :=
  let q := s.participant p
  if q.isJoin then
    if q.request.isSome then .ok (s.setParticipant p { q with isJoin := false, isLeaving := true })
    else ((s.setParticipant p { q with isJoin := false }).takeOut false).resetOrCheck
  else .ok s

/-- The rest of `MLeaveFromRTC`: a participant that still waits is waked up when there is nobody
else to be unlocked. -/
def endLeave (p : ℕ) : Except Fault Clock :=
  let q := s.participant p
  if q.isLeaving then
    match q.request with
    | none => ((s.setParticipant p { q with isLeaving := false }).takeOut true).resetOrCheck
    | some _ =>
      if s.numOfUnlocked = 0 then
        (({ s with numOfLocked := s.numOfLocked - 1 }.setParticipant p
          { q with isLeaving := false, request := none }).takeOut true).resetOrCheck
      else .ok s
  else .ok s

end Clock

inductive ClockStep where
  | join (p : ℕ)
  | next (p aNewTime : ℕ)
  | wake (p : ℕ)
  | dispatch
  | leave (p : ℕ)
  | endLeave (p : ℕ)

def clockStep : ClockStep → Clock → Except Fault Clock
  | .join p, s => .ok (s.mJoinToRTC p)
  | .next p aNewTime, s => s.beginNextTime p aNewTime
  | .wake p, s => (s.endNextTime p).map Prod.snd
  | .dispatch, s => s.mDispatcher
  | .leave p, s => s.mLeaveFromRTC p
  | .endLeave p, s => s.endLeave p

end UdtKernel.Rtc
