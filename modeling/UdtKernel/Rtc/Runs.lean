import Mathlib.Data.Finset.Card
import UdtKernel.Lib.Run
import UdtKernel.Rtc.Clock

set_option autoImplicit false

/-! Participants that join, wait and leave, and the dispatcher between them. -/

namespace UdtKernel.Rtc
open UdtKernel.Lib

namespace Clock

variable (s s' : Clock)

/-- The dispatcher has a signal to act on. -/
def Pending : Prop := s.hasToBeUpdated = true ∧ s.isDone = false ∧ s.step ≠ s.timeStep

instance : Decidable s.Pending := inferInstanceAs (Decidable (_ ∧ _ ∧ _))

/-- Nobody joins between a signal and the step of the dispatcher. -/
def Settled : ClockStep → Prop
  | .join _ => ¬ s.Pending
  | _ => True

instance : (st : ClockStep) → Decidable (s.Settled st)
  | .join _ => inferInstanceAs (Decidable (¬ _))
  | .next _ _ | .wake _ | .dispatch | .leave _ | .endLeave _ => isTrue trivial

/-- Participants request times that are to come, and are not more than 65535. -/
def Demands : ClockStep → Prop
  | .join _ => s.numOfWorking < 2 ^ 16 - 1
  | .next _ aNewTime => s.time < aNewTime ∧ aNewTime ≤ endOfTime
  | _ => True

instance : (st : ClockStep) → Decidable (s.Demands st)
  | .join _ => inferInstanceAs (Decidable (_ < _))
  | .next _ _ => inferInstanceAs (Decidable (_ ∧ _))
  | .wake _ | .dispatch | .leave _ | .endLeave _ => isTrue trivial

structure Advances : Prop where
  le : s.time ≤ s'.time ∨ s'.time = 0 ∧ s'.numOfWorking = 0
  waiting : s.time < s'.time → ∀ p, (s.participant p).isJoin = true →
    (s.participant p).request.isSome = true
  least : s.time < s'.time → ∀ p, ∀ r ∈ (s.participant p).request, s'.time ≤ r.newTime

/-- What a participant that has not left returns from `MNextTime`. -/
def Returns : Prop :=
  ∀ p rval s', s.endNextTime p = .ok (some rval, s') → (s.participant p).isJoin = true →
    ∃ r ∈ (s.participant p).request, rval = s'.time ∧ rval = s.time ∧ rval ≤ r.newTime

section Phases

variable (W L : Finset ℕ)

structure Counted : Prop where
  working : ∀ p, p ∈ W ↔ (s.participant p).isJoin = true ∨ (s.participant p).isLeaving = true
  join : ∀ p, (s.participant p).isJoin = true → (s.participant p).isLeaving = false
  locked : ∀ p, p ∈ L ↔ (s.participant p).request.isSome = true
  subset : L ⊆ W
  numOfWorking : s.numOfWorking = W.card
  numOfLocked : s.numOfLocked = L.card

/-- Requests are collected; those since the last signal are counted. -/
structure Collecting (F : Finset ℕ) : Prop where
  settled : ¬ s.Pending
  unlocked : s.numOfUnlocked = 0
  request : ∀ p, ∀ r ∈ (s.participant p).request, r.time = s.time ∧ s.nextTimer ≤ r.newTime
  subset : F ⊆ L
  fresh : ∀ p ∈ F, ∀ r ∈ (s.participant p).request, r.prevStep = s.timeStep
  numOfWait : s.numOfWait ≤ F.card

structure Signalled : Prop where
  pending : s.Pending
  unlocked : s.numOfUnlocked = 0
  all : L = W
  numOfWait : s.numOfWait = 0
  later : s.time < s.nextTimer
  request : ∀ p, ∀ r ∈ (s.participant p).request,
    r.time = s.time ∧ s.nextTimer ≤ r.newTime ∧ r.prevStep + 1 = s.timeStep

structure Unlocking : Prop where
  settled : ¬ s.Pending
  unlocked : s.numOfUnlocked = L.card
  some : 0 < L.card
  numOfWait : s.numOfWait = 0
  request : ∀ p, ∀ r ∈ (s.participant p).request,
    r.time < s.time ∧ s.time ≤ r.newTime ∧ r.prevStep + 1 = s.timeStep

def Phase : Prop := (∃ F, s.Collecting L F) ∨ s.Signalled W L ∨ s.Unlocking L

end Phases

def Inv : Prop := ∃ W L, s.Counted W L ∧ s.Phase W L

variable {s s'} {W L F : Finset ℕ}

theorem not_pending (h : s.hasToBeUpdated = false) : ¬ s.Pending := fun hpending =>
  Bool.false_ne_true (h.symm.trans hpending.1)

theorem Advances.of_eq (h : s'.time = s.time) : s.Advances s' :=
  ⟨Or.inl (Nat.le_of_eq h.symm), fun hlt => absurd hlt (by omega),
    fun hlt => absurd hlt (by omega)⟩

theorem Advances.of_reset (htime : s'.time = 0) (hworking : s'.numOfWorking = 0) :
    s.Advances s' :=
  ⟨Or.inr ⟨htime, hworking⟩, fun hlt => absurd hlt (by omega), fun hlt => absurd hlt (by omega)⟩

/-- The checks that a request itself can fail. -/
def OfRequest (e : Fault) : Prop := e ≠ .waiters

theorem mCheckForTimeHasCome_outcome (hcounted : s.Counted W L) (h : s.Collecting L F) :
    Outcome OfRequest (fun s' => s'.Inv ∧ s'.time = s.time) s.mCheckForTimeHasCome := by
  unfold mCheckForTimeHasCome
  split_ifs with hall hlate
  · exact Outcome.error (fun heq => nomatch heq)
  · have hle : W.card ≤ F.card := by
      rw [← hcounted.numOfWorking, ← hall.1]
      exact h.numOfWait
    have hFW : F = W := Finset.eq_of_subset_of_card_le (h.subset.trans hcounted.subset) hle
    have hLW : L = W :=
      Finset.Subset.antisymm hcounted.subset (hFW ▸ h.subset)
    let s₁ : Clock := { s with hasToBeUpdated := true, timeStep := s.timeStep + 1, numOfWait := 0 }
    have hcounted₁ : s₁.Counted W L := ⟨hcounted.working, hcounted.join, hcounted.locked,
      hcounted.subset, hcounted.numOfWorking, hcounted.numOfLocked⟩
    refine Outcome.ok ⟨⟨W, L, hcounted₁, ?_⟩, rfl⟩
    by_cases hpending : s₁.Pending
    · refine Or.inr (Or.inl ⟨hpending, h.unlocked, hLW, rfl, Nat.not_le.1 hlate, ?_⟩)
      intro p r hr
      obtain ⟨htime, hnext⟩ := h.request p r hr
      have hp : p ∈ F := by
        rw [hFW, ← hLW, hcounted.locked]
        exact Option.isSome_iff_exists.2 ⟨r, hr⟩
      exact ⟨htime, hnext, congrArg (· + 1) (h.fresh p hp r hr)⟩
    · exact Or.inl ⟨∅, hpending, h.unlocked, h.request, Finset.empty_subset L,
        fun p hp => absurd hp (Finset.notMem_empty p), Nat.le_refl _⟩
  · exact Outcome.ok ⟨⟨W, L, hcounted, Or.inl ⟨F, h⟩⟩, rfl⟩

/-- The state after a participant has stopped to work. -/
theorem resetOrCheck_outcome (hcounted : s.Counted W L) (hphase : s.Phase W L) :
    Outcome OfRequest (fun s' => s'.Inv ∧
      (s'.time = s.time ∨ s'.time = 0 ∧ s'.numOfWorking = 0)) s.resetOrCheck := by
  unfold resetOrCheck
  by_cases hnone : s.numOfWorking = 0
  · have hW : W = ∅ := Finset.card_eq_zero.1 (hcounted.numOfWorking.symm.trans hnone)
    have hL : L = ∅ := Finset.subset_empty.1 (hW ▸ hcounted.subset)
    have hrequest : ∀ p, (s.participant p).request = none := by
      intro p
      rw [← Option.not_isSome_iff_eq_none, ← hcounted.locked, hL]
      exact Finset.notMem_empty p
    have hquiet : s.numOfUnlocked = 0 ∧ s.numOfWait = 0 := by
      rcases hphase with ⟨F, h⟩ | h | h
      · have hF : F = ∅ := Finset.subset_empty.1 (hL ▸ h.subset)
        have hle := h.numOfWait
        rw [hF, Finset.card_empty] at hle
        exact ⟨h.unlocked, Nat.le_zero.1 hle⟩
      · exact ⟨h.unlocked, h.numOfWait⟩
      · have hpos := h.some
        rw [hL, Finset.card_empty] at hpos
        exact absurd hpos (Nat.lt_irrefl 0)
    rw [if_pos hnone]
    unfold mResetRTC
    rw [if_pos (Or.inr hnone)]
    refine Outcome.ok ⟨⟨W, L, ⟨hcounted.working, hcounted.join, hcounted.locked, hcounted.subset,
      hcounted.numOfWorking, hcounted.numOfLocked⟩, ?_⟩, Or.inr ⟨rfl, hnone⟩⟩
    by_cases hpending :
        { s with time := 0, timeStep := 0, nextTimer := endOfTime }.Pending
    · refine Or.inr (Or.inl ⟨hpending, hquiet.1, hL.trans hW.symm, hquiet.2,
        (by decide : 0 < endOfTime), ?_⟩)
      intro p r hr
      rw [hrequest p] at hr
      cases hr
    · refine Or.inl ⟨∅, hpending, hquiet.1, ?_, Finset.empty_subset L,
        fun p hp => absurd hp (Finset.notMem_empty p), Nat.le_of_eq hquiet.2⟩
      intro p r hr
      rw [hrequest p] at hr
      cases hr
  · rw [if_neg hnone]
    have hstay : s.numOfWait = 0 → Outcome OfRequest (fun s' => s'.Inv ∧
        (s'.time = s.time ∨ s'.time = 0 ∧ s'.numOfWorking = 0)) s.mCheckForTimeHasCome := by
      intro hzero
      unfold mCheckForTimeHasCome
      rw [if_neg fun hall => hnone (hall.1.symm.trans hzero)]
      exact Outcome.ok ⟨⟨W, L, hcounted, hphase⟩, Or.inl rfl⟩
    rcases hphase with ⟨F, h⟩ | h | h
    · exact (mCheckForTimeHasCome_outcome hcounted h).mono fun s' hs' => ⟨hs'.1, Or.inl hs'.2⟩
    · exact hstay h.numOfWait
    · exact hstay h.numOfWait

section Update

variable {p : ℕ} {q : Participant}

theorem participant_self : (s.setParticipant p q).participant p = q :=
  Function.update_self _ _ _

theorem participant_of_ne {x : ℕ} (hx : x ≠ p) :
    (s.setParticipant p q).participant x = s.participant x :=
  Function.update_of_ne hx _ _

/-- The requests stay as they were. -/
theorem request_of_same (hq : q.request = (s.participant p).request) (x : ℕ) :
    ((s.setParticipant p q).participant x).request = (s.participant x).request := by
  by_cases hx : x = p
  · rw [hx, participant_self, hq]
  · rw [participant_of_ne hx]

theorem Phase.of_request (h : s.Phase W L)
    (hrequest : ∀ x, (s'.participant x).request = (s.participant x).request)
    (hfields : s' = { s with
      participant := s'.participant
      numOfWorking := s'.numOfWorking
      numOfWait := s'.numOfWait })
    (hwait : s'.numOfWait ≤ s.numOfWait) {W' : Finset ℕ} (hW : s.Pending → W' = W) :
    s'.Phase W' L := by
  rw [hfields]
  rcases h with ⟨F, h⟩ | h | h
  · refine Or.inl ⟨F, h.settled, h.unlocked, fun x r hr => ?_, h.subset, fun x hx r hr => ?_,
      hwait.trans h.numOfWait⟩
    · exact h.request x r ((hrequest x).symm.trans hr)
    · exact h.fresh x hx r ((hrequest x).symm.trans hr)
  · refine Or.inr (Or.inl ⟨h.pending, h.unlocked, h.all.trans (hW h.pending).symm,
      Nat.le_zero.1 (h.numOfWait ▸ hwait), h.later, fun x r hr => ?_⟩)
    exact h.request x r ((hrequest x).symm.trans hr)
  · refine Or.inr (Or.inr ⟨h.settled, h.unlocked, h.some, Nat.le_zero.1 (h.numOfWait ▸ hwait),
      fun x r hr => ?_⟩)
    exact h.request x r ((hrequest x).symm.trans hr)

end Update

theorem mJoinToRTC_inv (h : s.Inv) {p : ℕ} (hsettled : ¬ s.Pending) : (s.mJoinToRTC p).Inv := by
  obtain ⟨W, L, hcounted, hphase⟩ := h
  unfold mJoinToRTC
  dsimp only
  by_cases hstay : ((s.participant p).isJoin || (s.participant p).isLeaving ||
      (s.participant p).request.isSome) = true
  · rw [if_pos hstay]
    exact ⟨W, L, hcounted, hphase⟩
  · rw [if_neg hstay]
    simp only [Bool.or_eq_true, not_or] at hstay
    obtain ⟨⟨hjoin, hleaving⟩, hrequest⟩ := hstay
    have hp : p ∉ W := fun hp => ((hcounted.working p).1 hp).elim hjoin hleaving
    let q : Participant := { s.participant p with isJoin := true }
    have hsame := request_of_same (s := { s with numOfWorking := s.numOfWorking + 1 })
      (q := q) (p := p) rfl
    refine ⟨insert p W, L, ⟨fun x => ?_, fun x hx => ?_, fun x => ?_, ?_, ?_,
      hcounted.numOfLocked⟩, hphase.of_request hsame rfl (Nat.le_refl _) fun h => absurd h hsettled⟩
    · rw [Finset.mem_insert]
      by_cases hx : x = p
      · rw [hx, participant_self]
        exact ⟨fun _ => Or.inl rfl, fun _ => Or.inl rfl⟩
      · rw [participant_of_ne hx]
        exact ⟨fun h => (hcounted.working x).1 (h.resolve_left hx),
          fun h => Or.inr ((hcounted.working x).2 h)⟩
    · by_cases hxp : x = p
      · rw [hxp, participant_self]
        exact Bool.eq_false_iff.2 hleaving
      · rw [participant_of_ne hxp] at hx ⊢
        exact hcounted.join x hx
    · rw [hsame]
      exact hcounted.locked x
    · exact hcounted.subset.trans (Finset.subset_insert p W)
    · rw [Finset.card_insert_of_notMem hp, ← hcounted.numOfWorking]
      rfl

theorem beginNextTime_outcome (h : s.Inv) (p aNewTime : ℕ) :
    Outcome OfRequest (fun s' => s'.Inv ∧ s'.time = s.time) (s.beginNextTime p aNewTime) := by
  have ⟨W, L, hcounted, hphase⟩ := h
  unfold beginNextTime
  dsimp only
  by_cases hgo : ((s.participant p).isJoin && (s.participant p).request.isNone &&
      s.numOfUnlocked == 0) = true
  · rw [if_pos hgo]
    rw [Bool.and_eq_true, Bool.and_eq_true, Option.isNone_iff_eq_none, beq_iff_eq] at hgo
    obtain ⟨⟨hjoin, hnone⟩, hunlocked⟩ := hgo
    have hpW : p ∈ W := (hcounted.working p).2 (Or.inl hjoin)
    have hpL : p ∉ L := by
      rw [hcounted.locked, hnone]
      exact Bool.false_ne_true
    have hworking : s.numOfWorking ≠ 0 := by
      rw [hcounted.numOfWorking]
      exact Finset.card_ne_zero_of_mem hpW
    by_cases hpast : aNewTime < s.time
    · rw [if_pos hpast]
      exact Outcome.error fun heq => nomatch heq
    rw [if_neg hpast, if_neg hworking]
    rcases hphase with ⟨F, hF⟩ | hsignalled | hunlocking
    · have hpF : p ∉ F := fun hp => hpL (hF.subset hp)
      let q : Participant :=
        { s.participant p with request := some ⟨aNewTime, s.time, s.timeStep⟩ }
      let s₁ : Clock := { s with
        nextTimer := min aNewTime s.nextTimer
        numOfLocked := s.numOfLocked + 1
        numOfWait := s.numOfWait + 1
        participant := Function.update s.participant p q }
      have hself : s₁.participant p = q := Function.update_self _ _ _
      have hother : ∀ x, x ≠ p → s₁.participant x = s.participant x := fun x hx =>
        Function.update_of_ne hx _ _
      have hcounted₁ : s₁.Counted W (insert p L) := by
        refine ⟨fun x => ?_, fun x hx => ?_, fun x => ?_, ?_, hcounted.numOfWorking, ?_⟩
        · by_cases hx : x = p
          · rw [hx, hself]
            exact hcounted.working p
          · rw [hother x hx]
            exact hcounted.working x
        · by_cases hxp : x = p
          · rw [hxp, hself]
            exact hcounted.join p hjoin
          · rw [hother x hxp] at hx ⊢
            exact hcounted.join x hx
        · rw [Finset.mem_insert]
          by_cases hx : x = p
          · rw [hx, hself]
            exact ⟨fun _ => rfl, fun _ => Or.inl rfl⟩
          · rw [hother x hx, ← hcounted.locked]
            exact ⟨fun h => h.resolve_left hx, Or.inr⟩
        · exact Finset.insert_subset hpW hcounted.subset
        · rw [Finset.card_insert_of_notMem hpL, ← hcounted.numOfLocked]
      have hcollecting : s₁.Collecting (insert p L) (insert p F) := by
        refine ⟨hF.settled, hunlocked, fun x r hr => ?_, Finset.insert_subset_insert p hF.subset,
          fun x hx r hr => ?_, ?_⟩
        · by_cases hx : x = p
          · rw [hx, hself] at hr
            cases hr
            exact ⟨rfl, Nat.min_le_left _ _⟩
          · rw [hother x hx] at hr
            obtain ⟨htime, hnext⟩ := hF.request x r hr
            exact ⟨htime, (Nat.min_le_right _ _).trans hnext⟩
        · by_cases hxp : x = p
          · rw [hxp, hself] at hr
            cases hr
            rfl
          · rw [hother x hxp] at hr
            exact hF.fresh x ((Finset.mem_insert.1 hx).resolve_left hxp) r hr
        · rw [Finset.card_insert_of_notMem hpF]
          exact Nat.succ_le_succ hF.numOfWait
      exact mCheckForTimeHasCome_outcome hcounted₁ hcollecting
    · exact absurd (hsignalled.all ▸ hpW) hpL
    · have hpos := hunlocking.some
      rw [← hunlocking.unlocked, hunlocked] at hpos
      exact absurd hpos (Nat.lt_irrefl 0)
  · rw [if_neg hgo]
    exact Outcome.ok ⟨h, rfl⟩

theorem mDispatcher_outcome (h : s.Inv) :
    Outcome OfRequest (fun s' => s'.Inv ∧ s.Advances s') s.mDispatcher := by
  have ⟨W, L, hcounted, hphase⟩ := h
  unfold mDispatcher
  by_cases hgo : (s.hasToBeUpdated && !s.isDone) = true
  · rw [if_pos hgo]
    rw [Bool.and_eq_true, Bool.not_eq_true'] at hgo
    dsimp only
    by_cases hstep : s.step = s.timeStep
    · rw [if_pos hstep]
      have hnot : ¬ { s with hasToBeUpdated := false }.Pending := not_pending rfl
      refine Outcome.ok ⟨⟨W, L, ⟨hcounted.working, hcounted.join, hcounted.locked, hcounted.subset,
        hcounted.numOfWorking, hcounted.numOfLocked⟩, ?_⟩, Advances.of_eq rfl⟩
      rcases hphase with ⟨F, hF⟩ | hsignalled | hunlocking
      · exact Or.inl ⟨F, hnot, hF.unlocked, hF.request, hF.subset, hF.fresh, hF.numOfWait⟩
      · exact absurd hstep hsignalled.pending.2.2
      · exact Or.inr (Or.inr ⟨hnot, hunlocking.unlocked, hunlocking.some, hunlocking.numOfWait,
          hunlocking.request⟩)
    · rw [if_neg hstep]
      have hpending : s.Pending := ⟨hgo.1, hgo.2, hstep⟩
      have hs : s.Signalled W L := by
        rcases hphase with ⟨F, hF⟩ | hsignalled | hunlocking
        · exact absurd hpending hF.settled
        · exact hsignalled
        · exact absurd hpending hunlocking.settled
      have hall : s.numOfLocked = s.numOfWorking := by
        rw [hcounted.numOfLocked, hcounted.numOfWorking, hs.all]
      rw [if_neg (by
        rintro (hne | hne | hne)
        · exact hne hs.unlocked
        · exact hne hall
        · exact hne hs.numOfWait)]
      unfold mUpdateTime mUnlockWaiter
      dsimp only
      rw [if_pos (Nat.le_refl _), if_neg (fun hne => hne hs.unlocked)]
      have hadvances : ∀ s' : Clock, s'.time = s.nextTimer → s.Advances s' := by
        intro s' htime
        refine ⟨Or.inl ?_, fun _ p hp => ?_, fun _ p r hr => ?_⟩
        · rw [htime]
          exact Nat.le_of_lt hs.later
        · rw [← hcounted.locked, hs.all, hcounted.working]
          exact Or.inl hp
        · rw [htime]
          exact (hs.request p r hr).2.1
      refine Outcome.ok ⟨⟨W, L, ⟨hcounted.working, hcounted.join, hcounted.locked, hcounted.subset,
        hcounted.numOfWorking, hcounted.numOfLocked⟩, ?_⟩, hadvances _ rfl⟩
      rcases Nat.eq_zero_or_pos L.card with hnone | hpos
      · have hL : L = ∅ := Finset.card_eq_zero.1 hnone
        refine Or.inl ⟨∅, not_pending rfl, hcounted.numOfLocked.trans hnone, ?_,
          Finset.empty_subset L, fun p hp => absurd hp (Finset.notMem_empty p),
          Nat.le_of_eq hs.numOfWait⟩
        intro p r hr
        have hp : p ∈ L := by
          rw [hcounted.locked]
          exact Option.isSome_iff_exists.2 ⟨r, hr⟩
        rw [hL] at hp
        exact absurd hp (Finset.notMem_empty p)
      · refine Or.inr (Or.inr ⟨not_pending rfl, hcounted.numOfLocked, hpos, hs.numOfWait,
          fun p r hr => ?_⟩)
        obtain ⟨htime, hnext, hprev⟩ := hs.request p r hr
        exact ⟨htime.trans_lt hs.later, hnext, hprev⟩
  · rw [if_neg hgo]
    exact Outcome.ok ⟨h, Advances.of_eq rfl⟩

/-- A participant that does not wait any more. -/
theorem Counted.unlock (h : s.Counted W L) {p : ℕ} (hp : p ∈ L)
    (hs : s'.numOfLocked + 1 = s.numOfLocked)
    (hworking : s'.numOfWorking = s.numOfWorking)
    (hparticipant : s'.participant =
      Function.update s.participant p { s.participant p with request := none }) :
    s'.Counted W (L.erase p) := by
  have hself : s'.participant p = { s.participant p with request := none } := by
    rw [hparticipant, Function.update_self]
  have hother : ∀ x, x ≠ p → s'.participant x = s.participant x := by
    intro x hx
    rw [hparticipant, Function.update_of_ne hx]
  refine ⟨fun x => ?_, fun x hx => ?_, fun x => ?_, (Finset.erase_subset p L).trans h.subset,
    hworking.trans h.numOfWorking, ?_⟩
  · by_cases hx : x = p
    · rw [hx, hself]
      exact h.working p
    · rw [hother x hx]
      exact h.working x
  · by_cases hxp : x = p
    · rw [hxp, hself] at hx ⊢
      exact h.join p hx
    · rw [hother x hxp] at hx ⊢
      exact h.join x hx
  · rw [Finset.mem_erase]
    by_cases hx : x = p
    · rw [hx, hself]
      exact ⟨fun hne => absurd rfl hne.1, fun hsome => Bool.false_ne_true hsome |>.elim⟩
    · rw [hother x hx, ← h.locked]
      exact ⟨And.right, fun hL => ⟨hx, hL⟩⟩
  · rw [Finset.card_erase_of_mem hp, ← h.numOfLocked]
    omega

theorem Unlocking.unlock (h : s.Unlocking L) {p : ℕ} (hp : p ∈ L)
    (hcounted : s'.Counted W (L.erase p))
    (hs : s' = { s with
      numOfUnlocked := s.numOfUnlocked - 1
      numOfLocked := s'.numOfLocked
      participant := Function.update s.participant p { s.participant p with request := none } }) :
    s'.Inv := by
  have hcard := Finset.card_erase_of_mem hp
  have hunlocked := h.unlocked
  have hpending : ¬ s'.Pending := by
    rw [hs]
    exact h.settled
  have hunlocked' : s'.numOfUnlocked = (L.erase p).card := by
    rw [hs]
    dsimp only
    omega
  have hwait : s'.numOfWait = 0 := by
    rw [hs]
    exact h.numOfWait
  have hmem : ∀ x, ∀ r ∈ (s'.participant x).request, x ∈ L.erase p := by
    intro x r hr
    rw [hcounted.locked]
    exact Option.isSome_iff_exists.2 ⟨r, hr⟩
  refine ⟨W, L.erase p, hcounted, ?_⟩
  rcases Nat.eq_zero_or_pos (L.erase p).card with hzero | hpos
  · refine Or.inl ⟨∅, hpending, hunlocked'.trans hzero, fun x r hr => ?_, Finset.empty_subset _,
      fun x hx => absurd hx (Finset.notMem_empty x), Nat.le_of_eq hwait⟩
    have hx := hmem x r hr
    rw [Finset.card_eq_zero.1 hzero] at hx
    exact absurd hx (Finset.notMem_empty x)
  · refine Or.inr (Or.inr ⟨hpending, hunlocked', hpos, hwait, fun x r hr => ?_⟩)
    have hx := (Finset.mem_erase.1 (hmem x r hr)).1
    rw [hs] at hr ⊢
    dsimp only at hr ⊢
    rw [Function.update_of_ne hx] at hr
    exact h.request x r hr

theorem endNextTime_outcome (h : s.Inv) (p : ℕ) :
    Outcome OfRequest (fun x => x.2.Inv ∧ x.2.time = s.time ∧
      ∀ rval ∈ x.1, (s.participant p).isJoin = true →
        ∃ r ∈ (s.participant p).request, rval = s.time ∧ rval ≤ r.newTime) (s.endNextTime p) := by
  have ⟨W, L, hcounted, hphase⟩ := h
  have hstay : Outcome OfRequest (fun x => x.2.Inv ∧ x.2.time = s.time ∧
      ∀ rval ∈ x.1, (s.participant p).isJoin = true →
        ∃ r ∈ (s.participant p).request, rval = s.time ∧ rval ≤ r.newTime)
      (.ok (none, s)) := Outcome.ok ⟨h, rfl, fun _ hrval => nomatch hrval⟩
  unfold endNextTime
  dsimp only
  cases hr : (s.participant p).request with
  | none =>
    rw [hr] at hstay
    exact hstay
  | some r =>
    dsimp only
    rw [hr] at hstay
    by_cases hzero : s.numOfUnlocked = 0
    · rw [if_pos hzero]
      exact hstay
    · rw [if_neg hzero]
      have hu : s.Unlocking L := by
        rcases hphase with ⟨F, hF⟩ | hsignalled | hunlocking
        · exact absurd hF.unlocked hzero
        · exact absurd hsignalled.unlocked hzero
        · exact hunlocking
      obtain ⟨hlater, hle, hprev⟩ := hu.request p r hr
      have hp : p ∈ L := by
        rw [hcounted.locked, hr]
        rfl
      have hpos := hu.some
      have hlocked := hcounted.numOfLocked
      have hworking := hcounted.numOfWorking
      have hsubset := Finset.card_le_card hcounted.subset
      split_ifs with hmany hsame hnone hjoin hfails
      · exact Outcome.error (fun heq => nomatch heq)
      · exact absurd hsame.1 (Nat.ne_of_lt hlater)
      · omega
      · rcases hfails with hne | hlt | hge
        · exact absurd hprev hne
        · exact absurd hlt (Nat.not_lt.2 hle)
        · change s.numOfWorking ≤ s.numOfLocked - 1 at hge
          omega
      · refine Outcome.ok ⟨hu.unlock hp (hcounted.unlock hp ?_ rfl rfl) rfl, rfl, ?_⟩
        · change s.numOfLocked - 1 + 1 = s.numOfLocked
          omega
        · intro rval hrval _
          cases hrval
          exact ⟨r, rfl, rfl, hle⟩
      · refine Outcome.ok ⟨hu.unlock hp (hcounted.unlock hp ?_ rfl rfl) rfl, rfl, ?_⟩
        · change s.numOfLocked - 1 + 1 = s.numOfLocked
          omega
        · intro rval _ hjoin'
          exact absurd hjoin' hjoin

/-- A participant that is not counted any more. -/
theorem Counted.takeOut (h : s.Counted W L) {p : ℕ} {q : Participant} (hp : p ∈ W) (hL : p ∉ L)
    (hjoin : q.isJoin = false) (hleaving : q.isLeaving = false) (hrequest : q.request = none)
    (wasWait : Bool) : ((s.setParticipant p q).takeOut wasWait).Counted (W.erase p) L := by
  refine ⟨fun x => ?_, fun x hx => ?_, fun x => ?_, fun x hx => ?_, ?_, h.numOfLocked⟩
  · rw [Finset.mem_erase]
    change _ ↔ ((s.setParticipant p q).participant x).isJoin = true ∨
      ((s.setParticipant p q).participant x).isLeaving = true
    by_cases hx : x = p
    · rw [hx, participant_self, hjoin, hleaving]
      exact ⟨fun hne => absurd rfl hne.1, fun hor => (Bool.false_ne_true (hor.elim id id)).elim⟩
    · rw [participant_of_ne hx, ← h.working]
      exact ⟨And.right, fun hW => ⟨hx, hW⟩⟩
  · change ((s.setParticipant p q).participant x).isJoin = true at hx
    change ((s.setParticipant p q).participant x).isLeaving = false
    by_cases hxp : x = p
    · rw [hxp, participant_self]
      exact hleaving
    · rw [participant_of_ne hxp] at hx ⊢
      exact h.join x hx
  · change _ ↔ ((s.setParticipant p q).participant x).request.isSome = true
    by_cases hx : x = p
    · rw [hx, participant_self, hrequest]
      exact ⟨fun hmem => absurd hmem hL, fun hsome => (Bool.false_ne_true hsome).elim⟩
    · rw [participant_of_ne hx]
      exact h.locked x
  · exact Finset.mem_erase.2 ⟨ne_of_mem_of_not_mem hx hL, h.subset hx⟩
  · rw [Finset.card_erase_of_mem hp, ← h.numOfWorking]
    rfl

/-- A participant that does not wait leaves. -/
theorem resetOrCheck_of_idle (hcounted : s.Counted W L) (hphase : s.Phase W L) {p : ℕ}
    {q : Participant} (hp : p ∈ W) (hL : p ∉ L) (hjoin : q.isJoin = false)
    (hleaving : q.isLeaving = false) (hrequest : q.request = none) (wasWait : Bool) :
    Outcome OfRequest (fun s' => s'.Inv ∧ s.Advances s')
      ((s.setParticipant p q).takeOut wasWait).resetOrCheck := by
  have hnone : (s.participant p).request = none := by
    rw [← Option.not_isSome_iff_eq_none, ← hcounted.locked]
    exact hL
  have hsame : ∀ x, (((s.setParticipant p q).takeOut wasWait).participant x).request =
      (s.participant x).request := request_of_same (hrequest.trans hnone.symm)
  have hphase' : ((s.setParticipant p q).takeOut wasWait).Phase (W.erase p) L := by
    refine hphase.of_request hsame rfl ?_ fun hpending => ?_
    · change (if wasWait then s.numOfWait - 1 else s.numOfWait) ≤ s.numOfWait
      split_ifs
      · exact Nat.sub_le _ _
      · exact Nat.le_refl _
    · rcases hphase with ⟨F, hF⟩ | hsignalled | hunlocking
      · exact absurd hpending hF.settled
      · exact absurd (hsignalled.all ▸ hp) hL
      · exact absurd hpending hunlocking.settled
  refine (resetOrCheck_outcome (hcounted.takeOut hp hL hjoin hleaving hrequest wasWait)
    hphase').mono fun s' hs' => ⟨hs'.1, ?_⟩
  exact hs'.2.elim (fun htime => Advances.of_eq htime) fun hreset =>
    Advances.of_reset hreset.1 hreset.2

/-- A participant that waits leaves while nobody is to be unlocked. -/
theorem resetOrCheck_of_waiting (hcounted : s.Counted W L) (hphase : s.Phase W L) {p : ℕ}
    (hL : p ∈ L) (hjoin : (s.participant p).isJoin = false) (hzero : s.numOfUnlocked = 0) :
    Outcome OfRequest (fun s' => s'.Inv ∧ s.Advances s')
      (({ s with numOfLocked := s.numOfLocked - 1 }.setParticipant p
        { s.participant p with isLeaving := false, request := none }).takeOut true).resetOrCheck
    := by
  have hpos : 0 < L.card := Finset.card_pos.2 ⟨p, hL⟩
  have hlocked := hcounted.numOfLocked
  let s₁ : Clock := { s with numOfLocked := s.numOfLocked - 1 }.setParticipant p
    { s.participant p with request := none }
  have hcounted₁ : s₁.Counted W (L.erase p) := by
    refine hcounted.unlock hL ?_ rfl rfl
    change s.numOfLocked - 1 + 1 = s.numOfLocked
    omega
  let q : Participant := { s.participant p with isLeaving := false, request := none }
  let s₂ : Clock := ({ s with numOfLocked := s.numOfLocked - 1 }.setParticipant p q).takeOut true
  have hs₂ : s₂ = (s₁.setParticipant p q).takeOut true := by
    change _ = Clock.takeOut { s₁ with participant := Function.update s₁.participant p q } true
    have hidem : Function.update s₁.participant p q = Function.update s.participant p q :=
      Function.update_idem _ _ _
    rw [hidem]
    rfl
  have hcounted₂ : s₂.Counted (W.erase p) (L.erase p) := by
    rw [hs₂]
    have hjoin' : q.isJoin = false := hjoin
    exact hcounted₁.takeOut (hcounted.subset hL) (Finset.notMem_erase p L) hjoin' rfl rfl true
  have hmem : ∀ x, ∀ r ∈ (s₂.participant x).request, x ≠ p ∧ r ∈ (s.participant x).request := by
    intro x r hr
    have hx := (hcounted₂.locked x).2 (Option.isSome_iff_exists.2 ⟨r, hr⟩)
    have hxp := (Finset.mem_erase.1 hx).1
    have hold : s₂.participant x = s.participant x := Function.update_of_ne hxp _ _
    rw [hold] at hr
    exact ⟨hxp, hr⟩
  have hphase₂ : s₂.Phase (W.erase p) (L.erase p) := by
    rcases hphase with ⟨F, hF⟩ | hs | hu
    · refine Or.inl ⟨F.erase p, hF.settled, hzero, fun x r hr => ?_,
        Finset.erase_subset_erase p hF.subset, fun x hx r hr => ?_, ?_⟩
      · exact hF.request x r (hmem x r hr).2
      · exact hF.fresh x (Finset.mem_of_mem_erase hx) r (hmem x r hr).2
      · change s.numOfWait - 1 ≤ (F.erase p).card
        exact (Nat.sub_le_sub_right hF.numOfWait 1).trans Finset.pred_card_le_card_erase
    · refine Or.inr (Or.inl ⟨hs.pending, hzero, congrArg (Finset.erase · p) hs.all, ?_, hs.later,
        fun x r hr => hs.request x r (hmem x r hr).2⟩)
      change s.numOfWait - 1 = 0
      rw [hs.numOfWait]
    · have hunlocked := hu.unlocked
      omega
  refine (resetOrCheck_outcome hcounted₂ hphase₂).mono fun s' hs' => ⟨hs'.1, ?_⟩
  exact hs'.2.elim (fun htime => Advances.of_eq htime) fun hreset =>
    Advances.of_reset hreset.1 hreset.2

theorem mLeaveFromRTC_outcome (h : s.Inv) (p : ℕ) :
    Outcome OfRequest (fun s' => s'.Inv ∧ s.Advances s') (s.mLeaveFromRTC p) := by
  have ⟨W, L, hcounted, hphase⟩ := h
  unfold mLeaveFromRTC
  dsimp only
  by_cases hjoin : (s.participant p).isJoin = true
  · rw [if_pos hjoin]
    have hp : p ∈ W := (hcounted.working p).2 (Or.inl hjoin)
    by_cases hwaits : (s.participant p).request.isSome = true
    · rw [if_pos hwaits]
      let q : Participant := { s.participant p with isJoin := false, isLeaving := true }
      have hsame := request_of_same (s := s) (p := p) (q := q) rfl
      refine Outcome.ok ⟨⟨W, L, ⟨fun x => ?_, fun x hx => ?_, fun x => ?_, hcounted.subset,
        hcounted.numOfWorking, hcounted.numOfLocked⟩,
        hphase.of_request hsame rfl (Nat.le_refl _) fun _ => rfl⟩, Advances.of_eq rfl⟩
      · by_cases hx : x = p
        · rw [hx, participant_self]
          exact ⟨fun _ => Or.inr rfl, fun _ => hp⟩
        · rw [participant_of_ne hx]
          exact hcounted.working x
      · by_cases hxp : x = p
        · rw [hxp, participant_self] at hx
          cases hx
        · rw [participant_of_ne hxp] at hx ⊢
          exact hcounted.join x hx
      · rw [hsame]
        exact hcounted.locked x
    · rw [if_neg hwaits]
      rw [← hcounted.locked] at hwaits
      have hnone : (s.participant p).request = none := by
        rw [← Option.not_isSome_iff_eq_none, ← hcounted.locked]
        exact hwaits
      let q : Participant := { s.participant p with isJoin := false }
      have hleaving : q.isLeaving = false := hcounted.join p hjoin
      exact resetOrCheck_of_idle hcounted hphase hp hwaits rfl hleaving hnone false
  · rw [if_neg hjoin]
    exact Outcome.ok ⟨h, Advances.of_eq rfl⟩

theorem endLeave_outcome (h : s.Inv) (p : ℕ) :
    Outcome OfRequest (fun s' => s'.Inv ∧ s.Advances s') (s.endLeave p) := by
  have ⟨W, L, hcounted, hphase⟩ := h
  unfold endLeave
  dsimp only
  by_cases hleaving : (s.participant p).isLeaving = true
  · rw [if_pos hleaving]
    have hp : p ∈ W := (hcounted.working p).2 (Or.inr hleaving)
    have hjoin : (s.participant p).isJoin = false := by
      rw [← Bool.not_eq_true]
      intro hjoin
      rw [hcounted.join p hjoin] at hleaving
      cases hleaving
    cases hr : (s.participant p).request with
    | none =>
      have hL : p ∉ L := by
        rw [hcounted.locked, hr]
        exact Bool.false_ne_true
      let q : Participant := ⟨(s.participant p).isJoin, false, none⟩
      have hjoin' : q.isJoin = false := hjoin
      exact resetOrCheck_of_idle hcounted hphase hp hL hjoin' rfl rfl true
    | some r =>
      dsimp only
      by_cases hzero : s.numOfUnlocked = 0
      · rw [if_pos hzero]
        have hL : p ∈ L := by
          rw [hcounted.locked, hr]
          rfl
        exact resetOrCheck_of_waiting hcounted hphase hL hjoin hzero
      · rw [if_neg hzero]
        exact Outcome.ok ⟨h, Advances.of_eq rfl⟩
  · rw [if_neg hleaving]
    exact Outcome.ok ⟨h, Advances.of_eq rfl⟩

theorem clockStep_outcome (h : s.Inv) {st : ClockStep} (hsettled : s.Settled st) :
    Outcome OfRequest (fun s' => s'.Inv ∧ s.Advances s') (clockStep st s) := by
  cases st with
  | join p =>
    refine Outcome.ok ⟨mJoinToRTC_inv h hsettled, Advances.of_eq ?_⟩
    unfold mJoinToRTC
    dsimp only
    split_ifs <;> rfl
  | next p aNewTime =>
    exact (beginNextTime_outcome h p aNewTime).mono fun s' hs' => ⟨hs'.1, Advances.of_eq hs'.2⟩
  | wake p =>
    have hend := endNextTime_outcome h p
    change Outcome _ _ ((s.endNextTime p).map Prod.snd)
    cases hx : s.endNextTime p with
    | error e =>
      rw [hx] at hend
      exact hend
    | ok x =>
      rw [hx] at hend
      exact ⟨hend.1, Advances.of_eq hend.2.1⟩
  | dispatch => exact mDispatcher_outcome h
  | leave p => exact mLeaveFromRTC_outcome h p
  | endLeave p => exact endLeave_outcome h p

theorem new_inv : new.Inv := by
  refine ⟨∅, ∅,
    ⟨fun p => ?_, fun p hp => (nomatch hp), fun p => ?_, Finset.Subset.refl _, rfl, rfl⟩,
    Or.inl ⟨∅, not_pending rfl, rfl, fun p r hr => (nomatch hr), Finset.Subset.refl _,
      fun p hp => absurd hp (Finset.notMem_empty p), Nat.le_refl _⟩⟩
  · exact ⟨fun hp => absurd hp (Finset.notMem_empty p), fun h => (nomatch h)⟩
  · exact ⟨fun hp => absurd hp (Finset.notMem_empty p), fun h => (nomatch h)⟩

theorem Inv.returns (h : s.Inv) : s.Returns := by
  intro p rval s' hend hjoin
  have houtcome := endNextTime_outcome h p
  rw [hend] at houtcome
  obtain ⟨-, htime, hrval⟩ := houtcome
  obtain ⟨r, hr, heq, hle⟩ := hrval rval rfl hjoin
  exact ⟨r, hr, heq.trans htime.symm, heq, hle⟩

/-- The next timer is still to come, unless the time is at its end. -/
structure Bounded (s : Clock) : Prop where
  later : s.time < s.nextTimer ∨ s.time = endOfTime ∧ s.numOfWait = 0
  nextTimer : s.nextTimer ≤ endOfTime
  numOfWorking : s.numOfWorking ≤ 2 ^ 16 - 1

theorem mCheckForTimeHasCome_bounded (h : s.Bounded) :
    Outcome (· = .waiters) Bounded s.mCheckForTimeHasCome := by
  unfold mCheckForTimeHasCome
  split_ifs with hall hlate
  · rcases h.later with hlater | ⟨-, hwait⟩ <;> omega
  · exact Outcome.ok ⟨h.later.imp_right fun hend => ⟨hend.1, rfl⟩, h.nextTimer, h.numOfWorking⟩
  · exact Outcome.ok h

theorem Bounded.takeOut (h : s.Bounded) (wasWait : Bool) : (s.takeOut wasWait).Bounded := by
  refine ⟨h.later.imp_right fun hend => ⟨hend.1, ?_⟩, h.nextTimer,
    (Nat.sub_le _ _).trans h.numOfWorking⟩
  change (if wasWait then s.numOfWait - 1 else s.numOfWait) = 0
  rw [hend.2]
  exact ite_self _

theorem resetOrCheck_bounded (h : s.Bounded) :
    Outcome (· = .waiters) Bounded s.resetOrCheck := by
  unfold resetOrCheck
  split_ifs with hnone
  · unfold mResetRTC
    rw [if_pos (Or.inr hnone)]
    exact Outcome.ok ⟨Or.inl (by decide : 0 < endOfTime), Nat.le_refl _, h.numOfWorking⟩
  · exact mCheckForTimeHasCome_bounded h

theorem mDispatcher_bounded (h : s.Bounded) : Outcome (· = .waiters) Bounded s.mDispatcher := by
  unfold mDispatcher mUpdateTime mUnlockWaiter
  dsimp only
  split_ifs with hgo hstep hfails hnext hunlocked
  · exact Outcome.ok ⟨h.later, h.nextTimer, h.numOfWorking⟩
  · exact Outcome.error rfl
  · exact Outcome.error rfl
  · push Not at hfails
    refine Outcome.ok ⟨?_, Nat.le_refl _, h.numOfWorking⟩
    exact (Nat.eq_or_lt_of_le h.nextTimer).symm.imp_right fun heq => ⟨heq, hfails.2.2⟩
  · exact absurd (Nat.le_refl _) hnext
  · exact Outcome.ok h

theorem endNextTime_bounded (h : s.Bounded) (hunlocked : s.numOfUnlocked ≤ s.numOfWorking) (p : ℕ) :
    Outcome (· = .waiters) (fun x => Bounded x.2) (s.endNextTime p) := by
  have hfew := h.numOfWorking
  unfold endNextTime
  dsimp only
  cases (s.participant p).request with
  | none => exact Outcome.ok h
  | some r =>
    dsimp only
    split_ifs with hzero hmany hsame hnone hjoin hfails
    · exact Outcome.ok h
    · omega
    · exact Outcome.ok ⟨h.later, h.nextTimer, h.numOfWorking⟩
    · exact Outcome.error rfl
    · exact Outcome.error rfl
    · exact Outcome.ok ⟨h.later, h.nextTimer, h.numOfWorking⟩
    · exact Outcome.ok ⟨h.later, h.nextTimer, h.numOfWorking⟩

theorem Inv.unlocked_le (h : s.Inv) : s.numOfUnlocked ≤ s.numOfWorking := by
  obtain ⟨W, L, hcounted, hphase⟩ := h
  rcases hphase with ⟨F, hF⟩ | hs | hu
  · exact hF.unlocked ▸ Nat.zero_le _
  · exact hs.unlocked ▸ Nat.zero_le _
  · rw [hu.unlocked, hcounted.numOfWorking]
    exact Finset.card_le_card hcounted.subset

theorem clockStep_bounded (hinv : s.Inv) (h : s.Bounded) {st : ClockStep} (hst : s.Demands st) :
    Outcome (· = .waiters) Bounded (clockStep st s) := by
  cases st with
  | join p =>
    change Outcome _ _ (.ok (s.mJoinToRTC p))
    unfold mJoinToRTC
    dsimp only
    split_ifs
    · exact Outcome.ok h
    · exact Outcome.ok ⟨h.later, h.nextTimer, hst⟩
  | next p aNewTime =>
    change Outcome _ _ (s.beginNextTime p aNewTime)
    obtain ⟨hlt, hle⟩ := hst
    have hlater : s.time < s.nextTimer := h.later.resolve_right fun hend => by omega
    unfold beginNextTime
    dsimp only
    split_ifs
    · omega
    · exact Outcome.error rfl
    · exact mCheckForTimeHasCome_bounded ⟨Or.inl (Nat.lt_min.2 ⟨hlt, hlater⟩),
        (Nat.min_le_left _ _).trans hle, h.numOfWorking⟩
    · exact Outcome.ok h
  | wake p =>
    have hend := endNextTime_bounded h hinv.unlocked_le p
    change Outcome _ _ ((s.endNextTime p).map Prod.snd)
    cases hx : s.endNextTime p with
    | error e =>
      rw [hx] at hend
      exact hend
    | ok x =>
      rw [hx] at hend
      exact hend
  | dispatch => exact mDispatcher_bounded h
  | leave p =>
    change Outcome _ _ (s.mLeaveFromRTC p)
    unfold mLeaveFromRTC
    dsimp only
    split_ifs
    · exact Outcome.ok ⟨h.later, h.nextTimer, h.numOfWorking⟩
    · refine resetOrCheck_bounded (Bounded.takeOut ?_ false)
      exact ⟨h.later, h.nextTimer, h.numOfWorking⟩
    · exact Outcome.ok h
  | endLeave p =>
    change Outcome _ _ (s.endLeave p)
    unfold endLeave
    dsimp only
    cases (s.participant p).request with
    | none =>
      dsimp only
      split_ifs
      · refine resetOrCheck_bounded (Bounded.takeOut ?_ true)
        exact ⟨h.later, h.nextTimer, h.numOfWorking⟩
      · exact Outcome.ok h
    | some r =>
      dsimp only
      split_ifs
      · refine resetOrCheck_bounded (Bounded.takeOut ?_ true)
        exact ⟨h.later, h.nextTimer, h.numOfWorking⟩
      · exact Outcome.ok h
      · exact Outcome.ok h

/-- A step whose request is for a time to come does not fail. -/
theorem demanded_step (s : Clock) (st : ClockStep) (hs : s.Inv ∧ s.Bounded)
    (hst : s.Settled st ∧ s.Demands st) :
    Outcome (fun _ => False) (fun s' => s'.Inv ∧ s'.Bounded) (clockStep st s) := by
  have hboth := (clockStep_outcome hs.1 hst.1).and (clockStep_bounded hs.1 hs.2 hst.2)
  exact (hboth.mono fun s' hs' => ⟨hs'.1.1, hs'.2⟩).weaken fun e he => he.1 he.2

/-- The time of a model, in every run in which nobody joins while the dispatcher has to act; such a
run does not fail if the requested times are to come. -/
theorem runAll_time_advances {steps : List ClockStep}
    (hsteps : EveryStep clockStep Settled steps new) :
    Outcome OfRequest (fun s => s.Returns ∧ ∀ st, s.Settled st →
      Outcome OfRequest s.Advances (clockStep st s)) (runAll clockStep steps new) ∧
    (EveryStep clockStep (fun s st => s.Settled st ∧ s.Demands st) steps new →
      ∃ s, runAll clockStep steps new = .ok s) := by
  constructor
  · have hrun := runAll_outcome
      (fun s st hs hst => (clockStep_outcome hs hst).mono fun _ => And.left) new_inv hsteps
    exact hrun.mono fun s hs => ⟨hs.returns, fun st hst =>
      (clockStep_outcome hs hst).mono fun _ => And.right⟩
  · intro hdemands
    have hbounded : new.Bounded :=
      ⟨Or.inl (by decide : 0 < endOfTime), Nat.le_refl _, Nat.zero_le _⟩
    have hrun := runAll_outcome demanded_step ⟨new_inv, hbounded⟩ hdemands
    cases hx : runAll clockStep steps new with
    | error e =>
      rw [hx] at hrun
      exact hrun.elim
    | ok s => exact ⟨s, rfl⟩

def someClockSteps : List ClockStep :=
  [.join 1, .join 2, .next 1 5, .next 2 9, .dispatch, .wake 2, .wake 1, .next 2 9, .leave 1,
    .dispatch, .wake 2, .next 2 12, .leave 2, .endLeave 2]

theorem runAll_time_advances_someClockSteps :
    EveryStep clockStep Settled someClockSteps new ∧
    Outcome OfRequest (fun s => s.Returns ∧ ∀ st, s.Settled st →
      Outcome OfRequest s.Advances (clockStep st s)) (runAll clockStep someClockSteps new) ∧
    (EveryStep clockStep (fun s st => s.Settled st ∧ s.Demands st) someClockSteps new →
      ∃ s, runAll clockStep someClockSteps new = .ok s) := by
  have hsteps : EveryStep clockStep Settled someClockSteps new := by decide +kernel
  exact ⟨hsteps, runAll_time_advances hsteps⟩

/-- The last participant leaves, and the time is 0 again; another one joins between a signal and the
step of the dispatcher, whose check fails. -/
theorem time_false_of_leave :
    (∃ s s', runAll clockStep [.join 1, .next 1 5, .dispatch, .wake 1] new = .ok s ∧
      clockStep (.leave 1) s = .ok s' ∧ s'.time < s.time) ∧
    runAll clockStep [.join 1, .next 1 5, .join 2, .dispatch] new = .error .waiters := by
  refine ⟨⟨_, _, rfl, rfl, ?_⟩, rfl⟩
  decide +kernel

end Clock

end UdtKernel.Rtc
