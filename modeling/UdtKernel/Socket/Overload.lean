import UdtKernel.Lib.Run
import Mathlib.Algebra.Order.BigOperators.Group.List
import Mathlib.Tactic.SplitIfs

set_option autoImplicit false

/-! What a shared-memory socket has received and its reader has not fetched. -/

namespace UdtKernel.Socket
open UdtKernel.Lib

/-- A received buffer. `MSend` sends none that is empty, and `FSize` has 32 bits. -/
structure Recv where
  idFrom : ℕ
  flags : ℕ
  data : List UInt8
  nonempty : data ≠ []
  size_lt : data.length < 2 ^ 32
deriving DecidableEq

/-- The checks of `CSharedMemoryBase::CImpl` and its client. -/
inductive Check
  | noEvents
  | events
  | noBuffers
  | noSize
  | notOverload
deriving DecidableEq

/-- The part of a socket that the reader's buffers are in; `events` is `FFifo.FState`. -/
structure SharedMemory where
  isOpened : Bool
  isConnected : Bool
  eventDone : Bool
  events : Option (BitVec 8)
  buffers : List Recv
  curentBufSize : ℕ
deriving DecidableEq

def eOverload : BitVec 8 := 0x1 <<< 1

namespace SharedMemory

variable (recvBufferSize : ℕ)

def new : SharedMemory := ⟨false, false, true, none, [], 0⟩

def mSetOverload (s : SharedMemory) (overload : Bool) : Except Check SharedMemory :=
  match s.events with
  | none => .error .noEvents
  | some state => .ok { s with
      events := some (if overload then state ||| eOverload else state &&& ~~~eOverload) }

def mOverload (s : SharedMemory) : Except Check Bool :=
  match s.events with
  | none => .error .noEvents
  | some state => .ok (state &&& eOverload != 0)

def mReceiveData (s : SharedMemory) (r : Recv) : Except Check SharedMemory :=
  let s := { s with
    buffers := s.buffers ++ [r]
    curentBufSize := (s.curentBufSize + r.data.length) % 2 ^ 64 }
  if recvBufferSize < s.curentBufSize then s.mSetOverload true else .ok s

def mGetData (s : SharedMemory) : Except Check (Recv × SharedMemory) :=
  match s.buffers with
  | [] => .error .noBuffers
  | r :: buffers =>
    if s.curentBufSize = 0 then .error .noSize
    else do
      let curret := s.curentBufSize
      let s := { s with
        buffers := buffers
        curentBufSize := (curret + 2 ^ 64 - r.data.length) % 2 ^ 64 }
      if s.curentBufSize ≤ recvBufferSize ∧ recvBufferSize < curret then
        unless ← s.mOverload do throw .notOverload
        return (r, ← s.mSetOverload false)
      else return (r, s)

/-- The client's `MReceiveData`, as far as it does not wait. -/
def mReceive (s : SharedMemory) : Except Check (Option Recv × SharedMemory) :=
  if s.isOpened && s.isConnected && !s.eventDone && !s.buffers.isEmpty then do
    let (r, s) ← s.mGetData recvBufferSize
    return (some r, s)
  else .ok (none, s)

def mFreeBase (s : SharedMemory) : SharedMemory :=
  { s with eventDone := true, events := none, buffers := [] }

def mEventConnected (s : SharedMemory) : SharedMemory :=
  if s.isOpened && !s.isConnected then { s with isConnected := true, eventDone := false } else s

def mEventDisconnected (s : SharedMemory) : SharedMemory :=
  { s with isConnected := false, eventDone := true }

def mClose (s : SharedMemory) : SharedMemory :=
  if s.isOpened then { s.mEventDisconnected with isOpened := false }.mFreeBase else s

/-- `MOpen`; `isValid` is whether there is such a memory with a server in it. -/
def mOpen (s : SharedMemory) (isValid : Bool) : Except Check SharedMemory :=
  if s.isConnected || s.isOpened then .ok s
  else if s.events.isSome then .error .events
  else if isValid then .ok { s with isOpened := true, events := some 0 }
  else .ok s.mFreeBase

def mReOpen (s : SharedMemory) (isValid : Bool) : Except Check SharedMemory :=
  s.mClose.mOpen isValid

end SharedMemory

/-- What happens to a socket; the event handler stops when `FEventDone` is set. -/
inductive SocketStep
  | data (r : Recv)
  | receive
  | connected
  | disconnected
  | close
  | «open» (isValid : Bool)
  | reOpen (isValid : Bool)
deriving DecidableEq

namespace SharedMemory

variable (recvBufferSize : ℕ)

def socketStep : SocketStep → SharedMemory → Except Check SharedMemory
  | .data r, s => if s.eventDone then .ok s else s.mReceiveData recvBufferSize r
  | .receive, s => (s.mReceive recvBufferSize).map Prod.snd
  | .connected, s => .ok s.mEventConnected
  | .disconnected, s => .ok (if s.eventDone then s else s.mEventDisconnected)
  | .close, s => .ok s.mClose
  | .open isValid, s => s.mOpen isValid
  | .reOpen isValid, s => s.mReOpen isValid

def total (buffers : List Recv) : ℕ := (buffers.map fun r => r.data.length).sum

@[simp] theorem total_nil : total [] = 0 := rfl

@[simp] theorem total_cons (r : Recv) (buffers : List Recv) :
    total (r :: buffers) = r.data.length + total buffers := by
  unfold total
  rw [List.map_cons, List.sum_cons]

@[simp] theorem total_append (buffers : List Recv) (r : Recv) :
    total (buffers ++ [r]) = total buffers + r.data.length := by
  unfold total
  rw [List.map_append, List.sum_append]
  rfl

theorem total_eq_zero {buffers : List Recv} : total buffers = 0 ↔ buffers = [] := by
  cases buffers with
  | nil => exact ⟨fun _ => rfl, fun _ => rfl⟩
  | cons r rest =>
    have hpos := List.length_pos_iff.2 r.nonempty
    constructor
    · intro h
      rw [total_cons] at h
      omega
    · rintro ⟨⟩

/-- `FCurentBufSize` is what is queued, and the peer sees an overload just when it is too much. -/
structure Accounts (s : SharedMemory) : Prop where
  size : s.curentBufSize = total s.buffers
  overload : ∀ state ∈ s.events, state &&& eOverload ≠ 0 ↔ recvBufferSize < total s.buffers

structure Inv (s : SharedMemory) : Prop where
  closed : s.isOpened = false → s.events = none ∧ s.buffers = [] ∧ s.isConnected = false
  opened : s.isOpened = true → s.events.isSome = true
  eventDone : s.eventDone = !s.isConnected
  size_lt : s.curentBufSize < 2 ^ 64

/-- A close meets an empty queue, and what is queued can be counted. -/
def Drained (s : SharedMemory) : SocketStep → Prop
  | .data r => s.eventDone = false → total s.buffers + r.data.length < 2 ^ 64
  | .close | .reOpen _ => s.buffers = []
  | _ => True

instance (s : SharedMemory) : (st : SocketStep) → Decidable (s.Drained st)
  | .data _ => inferInstanceAs (Decidable (_ → _))
  | .close | .reOpen _ => inferInstanceAs (Decidable (_ = _))
  | .receive | .connected | .disconnected | .open _ => isTrue trivial

variable {recvBufferSize} {s : SharedMemory}

theorem set_overload_ne (state : BitVec 8) : (state ||| eOverload) &&& eOverload ≠ 0 := by
  revert state
  decide

theorem unset_overload_eq (state : BitVec 8) : (state &&& ~~~eOverload) &&& eOverload = 0 := by
  revert state
  decide

/-- A socket whose handler runs is open, and its events are there. -/
theorem Inv.of_running (h : s.Inv) (hdone : s.eventDone = false) :
    s.isOpened = true ∧ s.isConnected = true ∧ ∃ state, s.events = some state := by
  have hconnected : s.isConnected = true := by
    have hnot := h.eventDone
    rw [hdone] at hnot
    simpa using hnot.symm
  cases hopened : s.isOpened with
  | false =>
    have hclosed := (h.closed hopened).2.2
    rw [hconnected] at hclosed
    cases hclosed
  | true => exact ⟨rfl, hconnected, Option.isSome_iff_exists.1 (h.opened hopened)⟩

theorem inv_new : new.Inv := by
  constructor
  · intro _
    exact ⟨rfl, rfl, rfl⟩
  · rintro ⟨⟩
  · rfl
  · exact Nat.two_pow_pos 64

theorem accounts_new : new.Accounts recvBufferSize := by
  constructor
  · rfl
  · rintro state ⟨⟩

theorem mSetOverload_some {state : BitVec 8} (hevents : s.events = some state) (overload : Bool) :
    s.mSetOverload overload = .ok { s with
      events := some (if overload then state ||| eOverload else state &&& ~~~eOverload) } := by
  unfold mSetOverload
  rw [hevents]

/-- What a received buffer makes of a socket. -/
theorem mReceiveData_ok {state : BitVec 8} (hevents : s.events = some state) (r : Recv) :
    ∃ state', s.mReceiveData recvBufferSize r = .ok { s with
        events := some state'
        buffers := s.buffers ++ [r]
        curentBufSize := (s.curentBufSize + r.data.length) % 2 ^ 64 } ∧
      (recvBufferSize < (s.curentBufSize + r.data.length) % 2 ^ 64 → state' &&& eOverload ≠ 0) ∧
      (¬ recvBufferSize < (s.curentBufSize + r.data.length) % 2 ^ 64 → state' = state) := by
  unfold mReceiveData
  dsimp only
  by_cases hover : recvBufferSize < (s.curentBufSize + r.data.length) % 2 ^ 64
  · rw [if_pos hover]
    exact ⟨_, @mSetOverload_some { s with
      buffers := s.buffers ++ [r]
      curentBufSize := (s.curentBufSize + r.data.length) % 2 ^ 64 } state hevents true,
      fun _ => set_overload_ne state, fun h => absurd hover h⟩
  · rw [if_neg hover]
    exact ⟨state, by rw [hevents], fun h => absurd h hover, fun _ => rfl⟩

theorem data_step (hinv : s.Inv) (h : s.Accounts recvBufferSize) (r : Recv)
    (hdone : s.eventDone = false) (hfits : total s.buffers + r.data.length < 2 ^ 64) :
    ∃ s', s.mReceiveData recvBufferSize r = .ok s' ∧ s'.Inv ∧ s'.Accounts recvBufferSize := by
  obtain ⟨hopened, hconnected, state, hevents⟩ := hinv.of_running hdone
  obtain ⟨state', heq, hset, hkeep⟩ := @mReceiveData_ok recvBufferSize s state hevents r
  rw [h.size, Nat.mod_eq_of_lt hfits] at heq hset hkeep
  refine ⟨_, heq, ⟨?_, ?_, hinv.eventDone, hfits⟩, ⟨(total_append _ _).symm, ?_⟩⟩
  · intro hclosed
    rw [hopened] at hclosed
    cases hclosed
  · intro _
    rfl
  · intro st hst
    cases hst
    rw [total_append]
    by_cases hover : recvBufferSize < total s.buffers + r.data.length
    · exact ⟨fun _ => hover, fun _ => hset hover⟩
    · rw [hkeep hover, h.overload state hevents]
      omega

/-- A count that is right stays so for what is left. -/
theorem size_tail {r : Recv} {buffers : List Recv} (hsize : s.curentBufSize = total (r :: buffers))
    (hlt : s.curentBufSize < 2 ^ 64) :
    (s.curentBufSize + 2 ^ 64 - r.data.length) % 2 ^ 64 = total buffers := by
  rw [total_cons] at hsize
  omega

theorem mGetData_step (hinv : s.Inv) (h : s.Accounts recvBufferSize)
    (hdone : s.eventDone = false) (hsome : s.buffers ≠ []) :
    ∃ r s', s.mGetData recvBufferSize = .ok (r, s') ∧ s'.Inv ∧ s'.Accounts recvBufferSize ∧
      s.buffers = r :: s'.buffers := by
  obtain ⟨hopened, hconnected, state, hevents⟩ := hinv.of_running hdone
  have hoverload := h.overload state hevents
  have hsize := h.size
  unfold mGetData
  cases hbuffers : s.buffers with
  | nil => exact absurd hbuffers hsome
  | cons r buffers =>
    rw [hbuffers] at hsize hoverload
    have hpos := List.length_pos_iff.2 r.nonempty
    have hcount : s.curentBufSize ≠ 0 := by
      rw [hsize, total_cons]
      omega
    have htail := size_tail hsize hinv.size_lt
    have hkept : ∀ state', (state' &&& eOverload ≠ 0 ↔ recvBufferSize < total buffers) →
        { s with
          events := some state'
          buffers := buffers
          curentBufSize := total buffers }.Inv ∧
        { s with
          events := some state'
          buffers := buffers
          curentBufSize := total buffers }.Accounts recvBufferSize := by
      intro state' hstate'
      refine ⟨⟨?_, fun _ => rfl, hinv.eventDone, ?_⟩, ⟨rfl, ?_⟩⟩
      · intro hclosed
        rw [hopened] at hclosed
        cases hclosed
      · exact htail ▸ Nat.mod_lt _ (Nat.two_pow_pos 64)
      · intro st hst
        cases hst
        exact hstate'
    dsimp only
    rw [if_neg hcount, htail]
    split_ifs with hcross
    · have hset : state &&& eOverload ≠ 0 := hoverload.2 (hsize ▸ hcross.2)
      have hgot := hkept (state &&& ~~~eOverload)
        ⟨fun hne => absurd (unset_overload_eq state) hne, fun hlt' => by omega⟩
      refine ⟨r, _, ?_, hgot.1, hgot.2, rfl⟩
      unfold mOverload mSetOverload
      dsimp only
      rw [hevents]
      simp only [bne_iff_ne.2 hset]
      rfl
    · have hgot := hkept state (hoverload.trans (by rw [← hsize]; rw [total_cons] at hsize; omega))
      rw [← hevents] at hgot
      exact ⟨r, _, rfl, hgot.1, hgot.2, rfl⟩

theorem Inv.of_closed (hsize : s.curentBufSize < 2 ^ 64) : ({ s with
    isOpened := false
    isConnected := false
    eventDone := true
    events := none
    buffers := [] } : SharedMemory).Inv := by
  refine ⟨fun _ => ⟨rfl, rfl, rfl⟩, ?_, rfl, hsize⟩
  rintro ⟨⟩

theorem mClose_inv (hinv : s.Inv) : s.mClose.Inv ∧ s.mClose.isOpened = false := by
  unfold mClose
  split_ifs with hopened
  · exact ⟨Inv.of_closed hinv.size_lt, rfl⟩
  · exact ⟨hinv, Bool.not_eq_true _ ▸ hopened⟩

theorem mClose_accounts (h : s.Accounts recvBufferSize) (hempty : s.buffers = []) :
    s.mClose.Accounts recvBufferSize := by
  unfold mClose
  split_ifs with hopened
  · constructor
    · have hsize := h.size
      rw [hempty] at hsize
      exact hsize
    · rintro state ⟨⟩
  · exact h

theorem mOpen_inv (hinv : s.Inv) (isValid : Bool) :
    ∃ s', s.mOpen isValid = .ok s' ∧ s'.Inv ∧ s'.curentBufSize = s.curentBufSize ∧
      s'.buffers = s.buffers := by
  unfold mOpen
  cases hopened : s.isOpened with
  | true =>
    rw [Bool.or_true]
    exact ⟨s, rfl, hinv, rfl, rfl⟩
  | false =>
    obtain ⟨hevents, hbuffers, hconnected⟩ := hinv.closed hopened
    have hdone := hinv.eventDone
    rw [hconnected] at hdone
    rw [hconnected, hevents]
    cases isValid with
    | true =>
      refine ⟨_, rfl, ⟨?_, fun _ => rfl, hdone, hinv.size_lt⟩, rfl, rfl⟩
      rintro ⟨⟩
    | false =>
      refine ⟨_, rfl, ⟨fun _ => ⟨rfl, rfl, hconnected⟩, ?_, ?_, hinv.size_lt⟩, rfl, hbuffers.symm⟩
      · intro h
        rw [show s.mFreeBase.isOpened = s.isOpened from rfl, hopened] at h
        cases h
      · rw [show s.mFreeBase.isConnected = s.isConnected from rfl, hconnected]
        rfl

/-- The events that an opened socket starts with show no overload. -/
theorem mOpen_accounts (hinv : s.Inv) (h : s.Accounts recvBufferSize) (isValid : Bool) :
    ∃ s', s.mOpen isValid = .ok s' ∧ s'.Inv ∧ s'.Accounts recvBufferSize := by
  obtain ⟨s', heq, hinv', hsize, hbuffers⟩ := mOpen_inv hinv isValid
  refine ⟨s', heq, hinv', by rw [hsize, hbuffers, h.size], ?_⟩
  unfold mOpen at heq
  cases hopened : s.isOpened with
  | true =>
    rw [hopened, Bool.or_true] at heq
    cases heq
    exact h.overload
  | false =>
    obtain ⟨hevents, hempty, hconnected⟩ := hinv.closed hopened
    rw [hopened, hconnected, hevents] at heq
    rw [hbuffers, hempty]
    cases isValid with
    | true =>
      cases heq
      rintro state ⟨⟩
      exact ⟨fun hne => absurd rfl hne, fun hlt => absurd hlt (Nat.not_lt_zero _)⟩
    | false =>
      cases heq
      rintro state ⟨⟩

theorem mReceive_step (hinv : s.Inv) (h : s.Accounts recvBufferSize) :
    ∃ got s', s.mReceive recvBufferSize = .ok (got, s') ∧ s'.Inv ∧ s'.Accounts recvBufferSize ∧
      s.buffers = got.toList ++ s'.buffers := by
  unfold mReceive
  split_ifs with hgo
  · simp only [Bool.and_eq_true, Bool.not_eq_true', List.isEmpty_eq_false_iff] at hgo
    obtain ⟨r, s', heq, hinv', h', hbuffers⟩ := mGetData_step hinv h hgo.1.2 hgo.2
    rw [heq]
    exact ⟨some r, s', rfl, hinv', h', hbuffers⟩
  · exact ⟨none, s, rfl, hinv, h, rfl⟩

theorem mEventConnected_step (hinv : s.Inv) (h : s.Accounts recvBufferSize) :
    s.mEventConnected.Inv ∧ s.mEventConnected.Accounts recvBufferSize := by
  unfold mEventConnected
  split_ifs with hgo
  · rw [Bool.and_eq_true] at hgo
    refine ⟨⟨?_, hinv.opened, rfl, hinv.size_lt⟩, h.size, h.overload⟩
    intro hclosed
    rw [show s.isOpened = true from hgo.1] at hclosed
    cases hclosed
  · exact ⟨hinv, h⟩

theorem mEventDisconnected_step (hinv : s.Inv) (h : s.Accounts recvBufferSize) :
    s.mEventDisconnected.Inv ∧ s.mEventDisconnected.Accounts recvBufferSize :=
  ⟨⟨fun hclosed => ⟨(hinv.closed hclosed).1, (hinv.closed hclosed).2.1, rfl⟩, hinv.opened, rfl,
    hinv.size_lt⟩, h.size, h.overload⟩

theorem socketStep_ok (hs : s.Inv ∧ s.Accounts recvBufferSize) {st : SocketStep}
    (hst : s.Drained st) :
    ∃ s', socketStep recvBufferSize st s = .ok s' ∧ (s'.Inv ∧ s'.Accounts recvBufferSize) ∧
      s'.Accounts recvBufferSize := by
  obtain ⟨hinv, h⟩ := hs
  have hstep : ∃ s', socketStep recvBufferSize st s = .ok s' ∧ s'.Inv ∧
      s'.Accounts recvBufferSize := by
    cases st with
    | data r =>
      rw [socketStep]
      cases hdone : s.eventDone with
      | true => exact ⟨s, rfl, hinv, h⟩
      | false => exact data_step hinv h r hdone (hst hdone)
    | receive =>
      obtain ⟨got, s', heq, hinv', h', -⟩ := mReceive_step hinv h
      rw [socketStep, heq]
      exact ⟨s', rfl, hinv', h'⟩
    | connected => exact ⟨_, rfl, mEventConnected_step hinv h⟩
    | disconnected =>
      rw [socketStep]
      split_ifs with hdone
      · exact ⟨s, rfl, hinv, h⟩
      · exact ⟨_, rfl, mEventDisconnected_step hinv h⟩
    | close => exact ⟨_, rfl, (mClose_inv hinv).1, mClose_accounts h hst⟩
    | «open» isValid => exact mOpen_accounts hinv h isValid
    | reOpen isValid => exact mOpen_accounts (mClose_inv hinv).1 (mClose_accounts h hst) isValid
  obtain ⟨s', heq, hinv', h'⟩ := hstep
  exact ⟨s', heq, ⟨hinv', h'⟩, h'⟩

theorem mClose_size : s.mClose.curentBufSize = s.curentBufSize := by
  unfold mClose
  split_ifs <;> rfl

/-- A close leaves nothing queued. -/
theorem Inv.mClose_buffers (hinv : s.Inv) : s.mClose.buffers = [] := by
  obtain ⟨hclosed, hopened⟩ := mClose_inv hinv
  exact (hclosed.closed hopened).2.1

/-- Where the count is right after a step, a close met nothing that was queued. -/
theorem drained_of_accounts (hs : s.Inv ∧ s.Accounts recvBufferSize) {st : SocketStep}
    {s' : SharedMemory} (heq : socketStep recvBufferSize st s = .ok s')
    (h' : s'.Accounts recvBufferSize) : s.Drained st := by
  obtain ⟨hinv, h⟩ := hs
  have hsize := h.size
  have hsize' := h'.size
  cases st with
  | data r =>
    intro hdone
    obtain ⟨-, -, state, hevents⟩ := hinv.of_running hdone
    obtain ⟨state', hdata, -⟩ := @mReceiveData_ok recvBufferSize s state hevents r
    rw [socketStep, hdone, if_neg Bool.false_ne_true, hdata] at heq
    cases heq
    dsimp only at hsize'
    rw [total_append] at hsize'
    exact hsize' ▸ Nat.mod_lt _ (Nat.two_pow_pos 64)
  | receive | connected | disconnected | «open» isValid => trivial
  | close =>
    cases heq
    rw [mClose_size, hinv.mClose_buffers, hsize] at hsize'
    exact total_eq_zero.1 hsize'
  | reOpen isValid =>
    obtain ⟨t, hopen, -, hcount, hbuffers⟩ := mOpen_inv (mClose_inv hinv).1 isValid
    have heq' : s.mClose.mOpen isValid = .ok s' := heq
    rw [hopen] at heq'
    cases heq'
    rw [hcount, hbuffers, mClose_size, hinv.mClose_buffers, hsize] at hsize'
    exact total_eq_zero.1 hsize'

/-- In a run of a socket the count is what is queued, and the overload is seen just while that is
too much, in every state just when every close meets an empty queue. -/
theorem accounts_iff_drained (steps : List SocketStep) :
    Traced (socketStep recvBufferSize) (fun _ _ s' => s'.Accounts recvBufferSize) steps new ↔
      EveryStep (socketStep recvBufferSize) Drained steps new := by
  refine traced_iff_of_step (I := fun s => s.Inv ∧ s.Accounts recvBufferSize)
    (fun s st hs hst => socketStep_ok hs hst) (fun s st s' hs => drained_of_accounts hs) ?_
  exact ⟨inv_new, accounts_new⟩

def someRecv : Recv := ⟨7, 0, [1, 2, 3, 4], by decide, by decide⟩

/-- A buffer that nobody fetched before the close is counted for ever: the next one is fetched, the
queue is empty, and the peer still sees an overload. -/
theorem accounts_false_of_close :
    ∃ s, runAll (socketStep 3) [.open true, .connected, .data someRecv, .reOpen true, .connected,
      .data someRecv, .receive] new = .ok s ∧ s.buffers = [] ∧ s.curentBufSize = 4 ∧
      s.mOverload = .ok true ∧ ¬ s.Accounts 3 := by
  refine ⟨_, rfl, rfl, rfl, rfl, fun h => ?_⟩
  have hsize := h.size
  revert hsize
  decide

end SharedMemory

end UdtKernel.Socket
