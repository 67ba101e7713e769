import UdtKernel.Rtc.Runs

set_option autoImplicit false

/-! Requests for the time that it already is. -/

namespace UdtKernel.Rtc
open UdtKernel.Lib

namespace Clock

variable {s : Clock} {p : ℕ}

/-- A request in `MNextTime`: no check fails, whatever comes after it, and the time that it already
is comes back to a participant that does not leave, while nobody advances. -/
def Answers (s : Clock) (p aNewTime : ℕ) : Prop :=
  ∃ s₁, s.beginNextTime p aNewTime = .ok s₁ ∧
    (∀ rest, EveryStep clockStep (fun s st => s.Settled st ∧ s.Demands st) rest s₁ →
      ∃ s', runAll clockStep rest s₁ = .ok s') ∧
    (aNewTime = s.time → ∃ rest s', .leave p ∉ rest ∧ runAll clockStep rest s₁ = .ok s' ∧
      (s'.participant p).request = none ∧ s'.time = s.time)

/-- A participant waits for a time that is not to come. -/
structure Stuck (p : ℕ) (s : Clock) : Prop where
  inv : s.Inv
  unlocked : s.numOfUnlocked = 0
  settled : ¬ s.Pending
  late : s.nextTimer ≤ s.time
  joined : (s.participant p).isJoin = true
  waits : (s.participant p).request.isSome = true

theorem mCheckForTimeHasCome_of_late (h : s.nextTimer ≤ s.time) :
    Outcome (fun _ => True) (· = s) s.mCheckForTimeHasCome := by
  unfold mCheckForTimeHasCome
  split_ifs
  · exact Outcome.error trivial
  · exact Outcome.ok rfl

/-- Two participants that work. -/
theorem Inv.two_working (h : s.Inv) {q : ℕ} (hne : q ≠ p) (hp : (s.participant p).isJoin = true)
    (hq : (s.participant q).isJoin = true ∨ (s.participant q).isLeaving = true) :
    2 ≤ s.numOfWorking := by
  obtain ⟨W, L, hcounted, -⟩ := h
  have hpair : ({q, p} : Finset ℕ) ⊆ W := by
    rw [Finset.insert_subset_iff, Finset.singleton_subset_iff]
    exact ⟨(hcounted.working q).2 hq, (hcounted.working p).2 (Or.inl hp)⟩
  rw [hcounted.numOfWorking, ← Finset.card_pair hne]
  exact Finset.card_le_card hpair

theorem Inv.not_leaving (h : s.Inv) (hp : (s.participant p).isJoin = true) :
    (s.participant p).isLeaving = false := by
  obtain ⟨W, L, hcounted, -⟩ := h
  exact hcounted.join p hp

/-- Whatever somebody else does, who stops to work or not, the check finds nothing new. -/
theorem resetOrCheck_of_late (h : s.nextTimer ≤ s.time) (hworking : s.numOfWorking ≠ 0) :
    Outcome (fun _ => True) (· = s) s.resetOrCheck := by
  unfold resetOrCheck
  rw [if_neg hworking]
  exact mCheckForTimeHasCome_of_late h

/-- What a step leaves as it is for one who is stuck. -/
structure StuckAs (s : Clock) (p : ℕ) (s' : Clock) : Prop where
  unlocked : s'.numOfUnlocked = 0
  settled : ¬ s'.Pending
  late : s'.nextTimer ≤ s'.time
  time : s'.time = s.time
  participant : s'.participant p = s.participant p

theorem Stuck.refl (h : s.Stuck p) : s.StuckAs p s :=
  ⟨h.unlocked, h.settled, h.late, rfl, rfl⟩

theorem Stuck.join (h : s.Stuck p) (q : ℕ) : s.StuckAs p (s.mJoinToRTC q) := by
  unfold mJoinToRTC
  dsimp only
  split_ifs with hbusy
  · exact h.refl
  · refine ⟨h.unlocked, h.settled, h.late, rfl, Function.update_of_ne ?_ _ _⟩
    rintro rfl
    rw [h.joined] at hbusy
    exact hbusy rfl

theorem Stuck.next (h : s.Stuck p) (q aNewTime : ℕ) :
    Outcome (fun _ => True) (s.StuckAs p) (s.beginNextTime q aNewTime) := by
  unfold beginNextTime
  dsimp only
  split_ifs with hgo
  · trivial
  · trivial
  · refine (mCheckForTimeHasCome_of_late ((Nat.min_le_right _ _).trans h.late)).mono ?_
    rintro _ rfl
    refine ⟨h.unlocked, h.settled, (Nat.min_le_right _ _).trans h.late, rfl,
      Function.update_of_ne ?_ _ _⟩
    rintro rfl
    rw [Bool.and_eq_true, Bool.and_eq_true, Option.isNone_iff_eq_none] at hgo
    have hwaits := h.waits
    rw [hgo.1.2] at hwaits
    cases hwaits
  · exact h.refl

theorem Stuck.wake (h : s.Stuck p) (q : ℕ) :
    Outcome (fun _ => True) (s.StuckAs p) ((s.endNextTime q).map Prod.snd) := by
  unfold endNextTime
  dsimp only
  cases (s.participant q).request with
  | none => exact h.refl
  | some r =>
    dsimp only
    rw [if_pos h.unlocked]
    exact h.refl

theorem Stuck.dispatch (h : s.Stuck p) : Outcome (fun _ => True) (s.StuckAs p) s.mDispatcher := by
  unfold mDispatcher
  dsimp only
  split_ifs with hgo hstep hfails
  · exact ⟨h.unlocked, not_pending rfl, h.late, rfl, rfl⟩
  · trivial
  · rw [Bool.and_eq_true, Bool.not_eq_true'] at hgo
    exact absurd ⟨hgo.1, hgo.2, hstep⟩ h.settled
  · exact h.refl

theorem StuckAs.setParticipant {s' : Clock} (h : s.StuckAs p s') {q : ℕ} (hne : q ≠ p)
    (x : Participant) : s.StuckAs p (s'.setParticipant q x) :=
  ⟨h.unlocked, h.settled, h.late, h.time,
    (Function.update_of_ne hne.symm _ _).trans h.participant⟩

/-- Somebody else stops to work. -/
theorem StuckAs.takeOut {s' : Clock} (h : s.StuckAs p s') (wasWait : Bool)
    (hworking : 2 ≤ s'.numOfWorking) :
    Outcome (fun _ => True) (s.StuckAs p) (s'.takeOut wasWait).resetOrCheck := by
  have hsome : (s'.takeOut wasWait).numOfWorking ≠ 0 := by
    change s'.numOfWorking - 1 ≠ 0
    omega
  refine (@resetOrCheck_of_late (s'.takeOut wasWait) h.late hsome).mono ?_
  rintro _ rfl
  exact ⟨h.unlocked, h.settled, h.late, h.time, h.participant⟩

theorem Stuck.leave (h : s.Stuck p) {q : ℕ} (hne : q ≠ p) :
    Outcome (fun _ => True) (s.StuckAs p) (s.mLeaveFromRTC q) := by
  unfold mLeaveFromRTC
  dsimp only
  split_ifs with hjoin hwaits
  · exact h.refl.setParticipant hne _
  · exact (h.refl.setParticipant hne _).takeOut false
      (h.inv.two_working hne h.joined (Or.inl hjoin))
  · exact h.refl

theorem Stuck.endLeave (h : s.Stuck p) (q : ℕ) :
    Outcome (fun _ => True) (s.StuckAs p) (s.endLeave q) := by
  unfold Clock.endLeave
  dsimp only
  by_cases hleaving : (s.participant q).isLeaving = true
  · rw [if_pos hleaving]
    have hne : q ≠ p := by
      rintro rfl
      rw [h.inv.not_leaving h.joined] at hleaving
      cases hleaving
    have htwo := h.inv.two_working hne h.joined (Or.inr hleaving)
    cases (s.participant q).request with
    | none => exact (h.refl.setParticipant hne _).takeOut true htwo
    | some r =>
      have hlocked : s.StuckAs p { s with numOfLocked := s.numOfLocked - 1 } :=
        ⟨h.unlocked, h.settled, h.late, rfl, rfl⟩
      dsimp only
      rw [if_pos h.unlocked]
      exact (hlocked.setParticipant hne _).takeOut true htwo
  · rw [if_neg hleaving]
    exact h.refl

theorem Stuck.step (h : s.Stuck p) {st : ClockStep} (hst : st ≠ .leave p) :
    Outcome (fun _ => True) (fun s' => s'.Stuck p ∧ s'.time = s.time) (clockStep st s) := by
  have has : Outcome (fun _ => True) (s.StuckAs p) (clockStep st s) := by
    cases st with
    | join q => exact h.join q
    | next q aNewTime => exact h.next q aNewTime
    | wake q => exact h.wake q
    | dispatch => exact h.dispatch
    | leave q => exact h.leave fun hq => hst (congrArg _ hq)
    | endLeave q => exact h.endLeave q
  have hsettled : s.Settled st := by
    cases st <;> first | exact h.settled | trivial
  refine ((clockStep_outcome h.inv hsettled).and has).mono ?_ |>.weaken fun _ _ => trivial
  rintro s' ⟨⟨hinv, -⟩, hs⟩
  exact ⟨⟨hinv, hs.unlocked, hs.settled, hs.late, hs.participant.symm ▸ h.joined,
    hs.participant.symm ▸ h.waits⟩, hs.time⟩

/-- One who is stuck waits until it leaves. -/
theorem Stuck.run {rest : List ClockStep} (h : s.Stuck p) (hrest : .leave p ∉ rest) :
    Outcome (fun _ => True) (Stuck p) (runAll clockStep rest s) := by
  induction rest generalizing s with
  | nil => exact h
  | cons st rest ih =>
    rw [List.mem_cons, not_or] at hrest
    rw [runAll_cons]
    exact (h.step (Ne.symm hrest.1)).bind fun s' hs => ih hs.1 hrest.2

def requested (s : Clock) (p aNewTime : ℕ) : Clock :=
  { s with
    nextTimer := min aNewTime s.nextTimer
    numOfLocked := s.numOfLocked + 1
    numOfWait := s.numOfWait + 1
    participant := Function.update s.participant p
      { s.participant p with request := some ⟨aNewTime, s.time, s.timeStep⟩ } }

theorem Inv.numOfWorking_ne_zero (h : s.Inv) (hjoin : (s.participant p).isJoin = true) :
    s.numOfWorking ≠ 0 := by
  obtain ⟨W, L, hcounted, -⟩ := h
  rw [hcounted.numOfWorking]
  exact Finset.card_ne_zero_of_mem ((hcounted.working p).2 (Or.inl hjoin))

theorem beginNextTime_eq (hinv : s.Inv) (hjoin : (s.participant p).isJoin = true)
    (hfree : (s.participant p).request = none) (hunlocked : s.numOfUnlocked = 0) {aNewTime : ℕ}
    (hle : s.time ≤ aNewTime) :
    s.beginNextTime p aNewTime = (s.requested p aNewTime).mCheckForTimeHasCome := by
  have hgo : ((s.participant p).isJoin && (s.participant p).request.isNone &&
      s.numOfUnlocked == 0) = true := by
    rw [hjoin, hfree, hunlocked]
    rfl
  unfold beginNextTime requested
  dsimp only
  rw [if_pos hgo, if_neg (Nat.not_lt.2 hle), if_neg (hinv.numOfWorking_ne_zero hjoin)]

/-- Nobody who is joined is free while the dispatcher has to act. -/
theorem Inv.not_pending (h : s.Inv) (hjoin : (s.participant p).isJoin = true)
    (hfree : (s.participant p).request = none) : ¬ s.Pending := by
  obtain ⟨W, L, hcounted, hphase⟩ := h
  have hpL : p ∉ L := by
    rw [hcounted.locked, hfree]
    exact Bool.false_ne_true
  rcases hphase with ⟨F, hF⟩ | hsignalled | hunlocking
  · exact hF.settled
  · exact absurd (hsignalled.all ▸ (hcounted.working p).2 (Or.inl hjoin)) hpL
  · exact hunlocking.settled

/-- A participant that requests the time that it already is. -/
theorem stuck_of_immediate (hinv : s.Inv) (hjoin : (s.participant p).isJoin = true)
    (hfree : (s.participant p).request = none) (hunlocked : s.numOfUnlocked = 0) {s₁ : Clock}
    (hbegin : s.beginNextTime p s.time = .ok s₁) : s₁.Stuck p ∧ s₁.time = s.time := by
  have hinv₁ := beginNextTime_outcome hinv p s.time
  have hsettled := hinv.not_pending hjoin hfree
  have hlate : (s.requested p s.time).nextTimer ≤ (s.requested p s.time).time :=
    Nat.min_le_left _ _
  have hcheck := mCheckForTimeHasCome_of_late hlate
  rw [hbegin] at hinv₁
  rw [beginNextTime_eq hinv hjoin hfree hunlocked (Nat.le_refl _)] at hbegin
  rw [hbegin] at hcheck
  have hs : s₁ = s.requested p s.time := hcheck
  subst hs
  have hself : (s.requested p s.time).participant p =
      { s.participant p with request := some ⟨s.time, s.time, s.timeStep⟩ } :=
    Function.update_self _ _ _
  refine ⟨⟨hinv₁.1, hunlocked, hsettled, hlate, ?_, ?_⟩, rfl⟩
  · rw [hself]
    exact hjoin
  · rw [hself]
    rfl

/-- In a run in which every request is for a time to come and nobody joins while the dispatcher has
to act, a request is answered just when it is for a time to come. -/
theorem answers_iff {steps : List ClockStep}
    (hsteps : EveryStep clockStep (fun s st => s.Settled st ∧ s.Demands st) steps new)
    (hrun : runAll clockStep steps new = .ok s) {aNewTime : ℕ}
    (hjoin : (s.participant p).isJoin = true) (hfree : (s.participant p).request = none)
    (hunlocked : s.numOfUnlocked = 0) (hle : s.time ≤ aNewTime) (hend : aNewTime ≤ endOfTime) :
    s.Answers p aNewTime ↔ s.time < aNewTime := by
  have hbounded : new.Inv ∧ new.Bounded :=
    ⟨new_inv, Or.inl (by decide : 0 < endOfTime), Nat.le_refl _, Nat.zero_le _⟩
  have hs := runAll_outcome demanded_step hbounded hsteps
  rw [hrun] at hs
  obtain ⟨hinv, hbound⟩ : s.Inv ∧ s.Bounded := hs
  constructor
  · rintro ⟨s₁, hbegin, -, himmediate⟩
    by_contra hnot
    have heq : aNewTime = s.time := by omega
    obtain ⟨rest, s', hrest, hrun', hnone, -⟩ := himmediate heq
    subst heq
    have hstuck := (stuck_of_immediate hinv hjoin hfree hunlocked hbegin).1.run hrest
    rw [hrun'] at hstuck
    have hwaits := Stuck.waits hstuck
    rw [hnone] at hwaits
    cases hwaits
  · intro hlt
    have hstep := demanded_step s (.next p aNewTime) ⟨hinv, hbound⟩ ⟨trivial, hlt, hend⟩
    change Outcome _ _ (s.beginNextTime p aNewTime) at hstep
    cases hbegin : s.beginNextTime p aNewTime with
    | error e =>
      rw [hbegin] at hstep
      exact hstep.elim
    | ok s₁ =>
      rw [hbegin] at hstep
      refine ⟨s₁, hbegin, fun rest hrest => ?_, fun heq => by omega⟩
      have hlast := runAll_outcome demanded_step hstep hrest
      cases hx : runAll clockStep rest s₁ with
      | error e =>
        rw [hx] at hlast
        exact hlast.elim
      | ok s' => exact ⟨s', rfl⟩

def meetingSteps : List ClockStep :=
  [.join 1, .join 2, .next 1 5, .next 2 9, .dispatch, .wake 2, .wake 1]

theorem answers_iff_meetingSteps :
    ∃ s, runAll clockStep meetingSteps new = .ok s ∧ (s.Answers 1 9 ↔ 5 < 9) := by
  have hsteps : EveryStep clockStep (fun s st => s.Settled st ∧ s.Demands st) meetingSteps new := by
    decide +kernel
  refine ⟨_, rfl, ?_⟩
  exact answers_iff hsteps rfl (by decide) (by decide) (by decide) (by decide) (by decide)

/-- The only participant requests the time that it is; so does one of two, before the other requests
a later time. -/
theorem immediate_false_of_check :
    (∃ s, runAll clockStep [.join 1] new = .ok s ∧ s.beginNextTime 1 s.time = .error .notLater) ∧
    runAll clockStep [.join 1, .join 2, .next 1 0, .next 2 3] new = .error .notLater := by
  exact ⟨⟨_, rfl, rfl⟩, rfl⟩

end Clock

end UdtKernel.Rtc
