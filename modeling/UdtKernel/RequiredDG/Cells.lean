import Mathlib.Data.Set.BooleanAlgebra
import Mathlib.Data.Set.Basic
import Mathlib.Data.List.Perm.Basic
import UdtKernel.RequiredDG.Subscribe

set_option autoImplicit false

/-! What the table holds of a sender, a message and a receiver, and how it is changed. -/

namespace UdtKernel.RequiredDG
open UdtKernel.Lib

abbrev Msg := Text × Header

/-- The handlers of a receiver for a message of a sender. -/
def cell (dg : RequiredDG) (aFrom : Uuid) (m : Msg) (aTo : Uuid) : Option MsgHandlers :=
  ((dg.expectedFor aFrom m.1).find m.2).bind fun r => r.receivers.find aTo

theorem expectedFor_setExpected (dg : RequiredDG) (f s : Uuid) (p q : Text) (t : ExpectingDg) :
    (dg.setExpected f p t).expectedFor s q = if s = f ∧ q = p then t else dg.expectedFor s q := by
  unfold expectedFor setExpected
  dsimp only
  rw [SortedMap.find_alter]
  by_cases hs : s = f
  · subst hs
    rw [if_pos rfl, Option.bind_some, SortedMap.find_alter]
    by_cases hq : q = p
    · simp [hq]
    · rw [if_neg fun h => hq (Protocol.mk.inj h), if_neg fun h => hq h.2]
      cases dg.whatIsSendingBy.find s <;> rfl
  · rw [if_neg hs, if_neg fun h => hs h.1]

theorem cell_setExpected (dg : RequiredDG) (f s r : Uuid) (p : Text) (m : Msg) (t : ExpectingDg) :
    (dg.setExpected f p t).cell s m r =
      if s = f ∧ m.1 = p then (t.find m.2).bind fun x => x.receivers.find r
      else dg.cell s m r := by
  unfold cell
  rw [expectedFor_setExpected]
  split_ifs <;> rfl

theorem cell_setExpected_self (dg : RequiredDG) (f s r : Uuid) (p : Text) (m : Msg) :
    (dg.setExpected f p (dg.expectedFor f p)).cell s m r = dg.cell s m r := by
  rw [cell_setExpected]
  split_ifs with h
  · rw [cell, h.1, h.2]
  · rfl

structure Frame (dg dg' : RequiredDG) : Prop where
  dgs : dg'.dgs = dg.dgs
  ids : dg'.ids = dg.ids
  msgsGenealogy : dg'.msgsGenealogy = dg.msgsGenealogy
  nearestInfo : dg'.nearestInfo = dg.nearestInfo

theorem Frame.refl (dg : RequiredDG) : Frame dg dg := ⟨rfl, rfl, rfl, rfl⟩

theorem Frame.trans {dg dg' dg'' : RequiredDG} (h : Frame dg dg') (h' : Frame dg' dg'') :
    Frame dg dg'' :=
  ⟨h'.dgs.trans h.dgs, h'.ids.trans h.ids, h'.msgsGenealogy.trans h.msgsGenealogy,
    h'.nearestInfo.trans h.nearestInfo⟩

theorem frame_setExpected (dg : RequiredDG) (f : Uuid) (p : Text) (t : ExpectingDg) :
    Frame dg (dg.setExpected f p t) := ⟨rfl, rfl, rfl, rfl⟩

/-- A sender, a receiver and a message. -/
@[ext] structure Triple where
  sender : Uuid
  receiver : Uuid
  msg : Msg
  deriving DecidableEq

def real (dg : RequiredDG) : Set Triple :=
  {t | ∃ c, dg.cell t.sender t.msg t.receiver = some c ∧ 0 < c.real}

def triples (m : DemandDgsFor) : Set Triple :=
  {t | ∃ ds, m.find t.sender = some ds ∧ ∃ d ∈ ds, d.uuidFrom = some t.receiver ∧ d.msg = t.msg}

theorem triples_empty : triples .empty = ∅ := by
  ext t
  simp [triples]

theorem triples_pushDemand (m : DemandDgsFor) (u r : Uuid) (d : DemandDg) :
    triples (pushDemand m u (named d r)) = insert ⟨u, r, d.msg⟩ (triples m) := by
  ext t
  have hnamed : (named d r).uuidFrom = some r ∧ (named d r).msg = d.msg := ⟨rfl, rfl⟩
  simp only [triples, pushDemand, SortedMap.find_alter, Set.mem_ofPred_eq, Set.mem_insert_iff]
  by_cases hu : t.sender = u
  · rw [if_pos hu, ← hu]
    constructor
    · rintro ⟨ds, hds, e, he, hto, hmsg⟩
      obtain rfl := Option.some.inj hds
      rcases List.mem_append.1 he with he | he
      · cases hm : m.find t.sender with
        | none => rw [hm] at he; cases he
        | some es => exact .inr ⟨es, rfl, e, by rwa [hm] at he, hto, hmsg⟩
      · obtain rfl := List.mem_singleton.1 he
        exact .inl (Triple.ext rfl (Option.some.inj (hnamed.1.symm.trans hto)).symm
          (hmsg.symm.trans hnamed.2))
    · rintro (heq | ⟨ds, hds, e, he, hto, hmsg⟩)
      · exact ⟨_, rfl, named d r, by simp, by rw [heq]; exact hnamed⟩
      · exact ⟨_, rfl, e, by simp [hds, he], hto, hmsg⟩
  · rw [if_neg hu]
    constructor
    · exact .inr
    · rintro (rfl | h)
      · exact absurd rfl hu
      · exact h

/-- The number of real receivers of every message is the sum over its receivers. -/
def Counted (dg : RequiredDG) : Prop :=
  ∀ f p h r, (dg.expectedFor f p).find h = some r →
    r.numberOfReal = (r.receivers.values.map MsgHandlers.real).sum % 2 ^ 32

theorem Counted.congr {dg dg' : RequiredDG}
    (h : ∀ f p, dg'.expectedFor f p = dg.expectedFor f p) (hc : Counted dg) : Counted dg' := by
  intro f p k r hr
  rw [h] at hr
  exact hc f p k r hr

theorem expectedFor_setExpected_self (dg : RequiredDG) (f s : Uuid) (p q : Text) :
    (dg.setExpected f p (dg.expectedFor f p)).expectedFor s q = dg.expectedFor s q := by
  rw [expectedFor_setExpected]
  split_ifs with h
  · rw [h.1, h.2]
  · rfl

/-- Only the list of one sender, protocol and header is changed. -/
theorem Counted.setExpected {dg : RequiredDG} {f : Uuid} {p : Text} {t : ExpectingDg}
    (hc : Counted dg) (h : Header)
    (hother : ∀ k, k ≠ h → t.find k = (dg.expectedFor f p).find k)
    (hself : ∀ r, t.find h = some r →
      r.numberOfReal = (r.receivers.values.map MsgHandlers.real).sum % 2 ^ 32) :
    Counted (dg.setExpected f p t) := by
  intro f' p' k r hr
  rw [expectedFor_setExpected] at hr
  split_ifs at hr with hfp
  · by_cases hk : k = h
    · exact hself r (hk ▸ hr)
    · exact hc f p k r (hother k hk ▸ hr)
  · exact hc f' p' k r hr

/-- Nothing that one sender sends is left. -/
theorem Counted.erase {dg : RequiredDG} (u : Uuid) (hc : Counted dg) :
    Counted { dg with whatIsSendingBy := dg.whatIsSendingBy.erase u } := by
  intro f p k r hr
  refine hc f p k r ?_
  unfold expectedFor at hr ⊢
  dsimp only at hr
  rw [SortedMap.find_erase] at hr
  split_ifs at hr
  · cases hr
  · exact hr

theorem sum_real_of_find {m : SortedMap Uuid MsgHandlers} {t : Uuid} {c : MsgHandlers}
    (h : m.find t = some c) : (m.values.map MsgHandlers.real).sum =
      c.real + ((m.erase t).values.map MsgHandlers.real).sum := by
  have hperm := ((SortedMap.entries_perm h).map Prod.snd).map MsgHandlers.real
  exact hperm.sum_nat

theorem sum_real_insert (m : SortedMap Uuid MsgHandlers) (t : Uuid) (c : MsgHandlers) :
    ((m.insert t c).values.map MsgHandlers.real).sum =
      c.real + ((m.erase t).values.map MsgHandlers.real).sum := by
  rw [sum_real_of_find (SortedMap.find_insert_self m t c), SortedMap.erase_insert]

theorem sum_real_getD (m : SortedMap Uuid MsgHandlers) (t : Uuid) :
    (m.values.map MsgHandlers.real).sum =
      ((m.find t).getD .empty).real + ((m.erase t).values.map MsgHandlers.real).sum := by
  cases h : m.find t with
  | none => rw [SortedMap.erase_of_find_none h]; exact (Nat.zero_add _).symm
  | some c => exact sum_real_of_find h

/-- Triples were lost, just these were reported, and the numbers of receivers are still right. -/
def Loses (s s' : Patch) : Prop :=
  (Counted s.dg → Counted s'.dg) ∧ s'.new = s.new ∧ ∃ x, x ⊆ real s.dg ∧
    triples s'.removed = triples s.removed ∪ x ∧ real s'.dg = real s.dg \ x

/-- Triples were gained, just these were reported, and the numbers of receivers are still
    right. -/
def Gains (s s' : Patch) : Prop :=
  (Counted s.dg → Counted s'.dg) ∧ s'.removed = s.removed ∧ ∃ x, Disjoint x (real s.dg) ∧
    triples s'.new = triples s.new ∪ x ∧ real s'.dg = real s.dg ∪ x

theorem Loses.of_same {s s' : Patch} (hcount : Counted s.dg → Counted s'.dg)
    (hnew : s'.new = s.new) (hold : s'.removed = s.removed) (hreal : real s'.dg = real s.dg) :
    Loses s s' :=
  ⟨hcount, hnew, ∅, Set.empty_subset _, by rw [hold, Set.union_empty],
    by rw [hreal, Set.sdiff_empty]⟩

theorem Gains.of_same {s s' : Patch} (hcount : Counted s.dg → Counted s'.dg)
    (hnew : s'.new = s.new) (hold : s'.removed = s.removed) (hreal : real s'.dg = real s.dg) :
    Gains s s' :=
  ⟨hcount, hold, ∅, Set.empty_disjoint _, by rw [hnew, Set.union_empty],
    by rw [hreal, Set.union_empty]⟩

theorem Loses.refl (s : Patch) : Loses s s := Loses.of_same id rfl rfl rfl

theorem Gains.refl (s : Patch) : Gains s s := Gains.of_same id rfl rfl rfl

theorem Loses.trans {s s' s'' : Patch} (h : Loses s s') (h' : Loses s' s'') : Loses s s'' := by
  obtain ⟨hc, hn, x, hx, ht, hr⟩ := h
  obtain ⟨hc', hn', x', hx', ht', hr'⟩ := h'
  refine ⟨hc' ∘ hc, hn'.trans hn, x ∪ x', Set.union_subset hx ?_, ?_, ?_⟩
  · exact hx'.trans (hr ▸ Set.sdiff_subset)
  · rw [ht', ht, Set.union_assoc]
  · rw [hr', hr, Set.sdiff_sdiff]

theorem Gains.trans {s s' s'' : Patch} (h : Gains s s') (h' : Gains s' s'') : Gains s s'' := by
  obtain ⟨hc, hn, x, hx, ht, hr⟩ := h
  obtain ⟨hc', hn', x', hx', ht', hr'⟩ := h'
  refine ⟨hc' ∘ hc, hn'.trans hn, x ∪ x', Set.disjoint_union_left.2 ⟨hx, ?_⟩, ?_, ?_⟩
  · exact hx'.mono_right (hr ▸ Set.subset_union_left)
  · rw [ht', ht, Set.union_assoc]
  · rw [hr', hr, Set.union_assoc]

end UdtKernel.RequiredDG
