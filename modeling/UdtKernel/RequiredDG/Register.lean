import UdtKernel.RequiredDG.Cells

set_option autoImplicit false

/-! What registering and unregistering a handler make of one cell. -/

namespace UdtKernel.RequiredDG
open UdtKernel.Lib

namespace MsgHandlers

@[simp] theorem empty_real : empty.real = 0 := rfl

@[simp] theorem empty_handlers : empty.handlers = [] := rfl

@[simp] theorem put_real (c : MsgHandlers) (h p : ℕ) : (c.put h p).real = c.real := rfl

@[simp] theorem removeAt_real (c : MsgHandlers) (i : ℕ) : (c.removeAt i).real = c.real := rfl

theorem place_real (c : MsgHandlers) (d : DemandDg) : (c.place d).real = c.real := by
  unfold place
  split
  · split_ifs <;> rfl
  · rfl

theorem addHandler_fst (c : MsgHandlers) (d : DemandDg) :
    (c.addHandler d).1 = (!d.flags.registrator && decide (c.real = 0)) := by
  unfold addHandler
  cases d.flags.registrator <;> simp only [Bool.false_eq_true, if_true, if_false, Bool.not_true,
    Bool.not_false, Bool.false_and, Bool.true_and]
  split_ifs <;> simp [place_real]

theorem addHandler_real (c : MsgHandlers) (d : DemandDg) :
    (c.addHandler d).2.real = c.real + if d.flags.registrator then 0 else 1 := by
  unfold addHandler
  cases d.flags.registrator <;> simp only [Bool.false_eq_true, if_true, if_false] <;>
    split_ifs <;> simp [place_real]

theorem addHandler_handlers (c : MsgHandlers) (d : DemandDg) :
    (c.addHandler d).2.handlers = (c.place d).handlers := by
  unfold addHandler
  cases d.flags.registrator <;> simp only [Bool.false_eq_true, if_true, if_false] <;>
    split_ifs <;> rfl

theorem put_perm (c : MsgHandlers) (h p : ℕ) : (c.put h p).handlers.Perm (h :: c.handlers) := by
  refine List.perm_insertIdx h c.handlers ?_
  rw [c.sameLength, lowerBound]
  exact (List.takeWhile_sublist _).length_le

/-- A new handler is added to the list. -/
theorem addHandler_perm {c : MsgHandlers} {d : DemandDg} (hnew : d.handler ∉ c.handlers) :
    (c.addHandler d).2.handlers.Perm (d.handler :: c.handlers) := by
  rw [addHandler_handlers, place, List.idxOf?_eq_none_iff.2 hnew]
  exact c.put_perm _ _

theorem removeAt_idxOf (c : MsgHandlers) (h : ℕ) :
    (match c.handlers.idxOf? h with
      | some i => c.removeAt i
      | none => c).handlers = c.handlers.erase h := by
  rw [List.erase_eq_eraseIdx]
  cases hi : c.handlers.idxOf? h <;> rfl

/-- What removing a handler does, unless there is no real handler to count down. -/
theorem removeHandler_ok {c : MsgHandlers} {d : DemandDg}
    (h : d.flags.registrator = false → 0 < c.real) :
    ∃ c', c.removeHandler d = .ok (!d.flags.registrator && decide (c'.real = 0), c') ∧
      c'.handlers = c.handlers.erase d.handler ∧
      c'.real = c.real - if d.flags.registrator then 0 else 1 := by
  have hnot : ¬ (d.flags.registrator = false ∧ c.real = 0) := fun hh => by
    have := h hh.1
    omega
  unfold removeHandler
  rw [if_neg hnot]
  refine ⟨{ (match c.handlers.idxOf? d.handler with
      | some i => c.removeAt i
      | none => c) with real := if d.flags.registrator then c.real else c.real - 1 },
    rfl, c.removeAt_idxOf d.handler, ?_⟩
  cases d.flags.registrator <;> simp

/-- Removing a registrator that is not there changes nothing. -/
theorem removeHandler_other {c : MsgHandlers} {d : DemandDg} (hreg : d.flags.registrator = true)
    (hnot : d.handler ∉ c.handlers) : c.removeHandler d = .ok (false, c) := by
  unfold removeHandler
  rw [List.idxOf?_eq_none_iff.2 hnot, hreg]
  rfl

end MsgHandlers

theorem receivers_getD (o : Option ReceiversOfMsg) (r : Uuid) :
    (o.getD .empty).receivers.find r = o.bind fun x => x.receivers.find r := by
  cases o <;> rfl

/-- The cell of a demand after its receiver has been registered. -/
theorem registering_cell (d : DemandDg) (f t : Uuid) (s : Patch) (s' : Uuid) (m : Msg)
    (r : Uuid) :
    (registeringReceiverForMsg d f t s).dg.cell s' m r =
      if s' = f ∧ m = d.msg ∧ r = t then
        some (((s.dg.cell f d.msg t).getD .empty).addHandler d).2
      else s.dg.cell s' m r := by
  unfold registeringReceiverForMsg
  dsimp only
  rw [cell_setExpected, receivers_getD]
  by_cases hp : s' = f ∧ m.1 = d.protocol
  · rw [if_pos hp, SortedMap.find_insert]
    by_cases hh : m.2 = d.what.messageHeader
    · have hm : m = d.msg := Prod.ext hp.2 hh
      rw [if_pos hh, Option.bind_some, SortedMap.find_insert, receivers_getD]
      by_cases hr : r = t
      · rw [if_pos hr, if_pos ⟨hp.1, hm, hr⟩]
        rfl
      · rw [if_neg hr, if_neg fun h => hr h.2.2, hp.1, hm]
        rfl
    · rw [if_neg hh, if_neg fun h => hh (congrArg Prod.snd h.2.1), hp.1, cell, hp.2]
  · rw [if_neg hp, if_neg fun h => hp ⟨h.1, congrArg Prod.fst h.2.1⟩]

theorem registering_frame (d : DemandDg) (f t : Uuid) (s : Patch) :
    Frame s.dg (registeringReceiverForMsg d f t s).dg := ⟨rfl, rfl, rfl, rfl⟩

theorem registering_counted {d : DemandDg} {f t : Uuid} {s : Patch} (hc : Counted s.dg) :
    Counted (registeringReceiverForMsg d f t s).dg := by
  unfold registeringReceiverForMsg
  refine hc.setExpected d.what.messageHeader
    (fun k hk => by rw [SortedMap.find_insert, if_neg hk]) fun r hr => ?_
  rw [SortedMap.find_insert_self] at hr
  obtain rfl := Option.some.inj hr
  dsimp only
  rw [sum_real_insert, MsgHandlers.addHandler_real]
  have hbefore : ((((s.dg.expectedFor f d.protocol).find d.what.messageHeader).getD
      .empty).numberOfReal) = ((((s.dg.expectedFor f d.protocol).find
        d.what.messageHeader).getD .empty).receivers.values.map MsgHandlers.real).sum % 2 ^ 32 := by
    cases hx : (s.dg.expectedFor f d.protocol).find d.what.messageHeader with
    | none => rfl
    | some x => exact hc f _ _ x hx
  rw [hbefore, sum_real_getD _ t]
  cases d.flags.registrator <;> simp only [Bool.false_eq_true, if_true, if_false] <;> omega

/-- Registering reports the triple that it gains. -/
theorem registering_gains (d : DemandDg) (f t : Uuid) (s : Patch) :
    Gains s (registeringReceiverForMsg d f t s) := by
  have hcell := registering_cell d f t s
  generalize hc : (s.dg.cell f d.msg t).getD .empty = c at hcell
  have hadded : (registeringReceiverForMsg d f t s).new =
      if (c.addHandler d).1 then pushDemand s.new f (named d t) else s.new := by
    unfold registeringReceiverForMsg
    dsimp only
    rw [receivers_getD]
    change (if (((s.dg.cell f d.msg t).getD .empty).addHandler d).1 then _ else _) = _
    rw [hc]
  have hbefore : (⟨f, t, d.msg⟩ : Triple) ∈ real s.dg ↔ 0 < c.real := by
    rw [← hc]
    change (∃ c, s.dg.cell f d.msg t = some c ∧ 0 < c.real) ↔ _
    cases s.dg.cell f d.msg t <;> simp
  have hafter : ∀ x : Triple, x ∈ real (registeringReceiverForMsg d f t s).dg ↔
      if x = ⟨f, t, d.msg⟩ then 0 < (c.addHandler d).2.real else x ∈ real s.dg := by
    intro x
    change (∃ c : MsgHandlers, _ = some c ∧ 0 < c.real) ↔ _
    rw [hcell]
    have hx : (x.sender = f ∧ x.msg = d.msg ∧ x.receiver = t) ↔ x = ⟨f, t, d.msg⟩ := by
      rw [Triple.ext_iff]
      tauto
    by_cases h : x = ⟨f, t, d.msg⟩
    · rw [if_pos (hx.2 h), if_pos h]
      simp
    · rw [if_neg fun hh => h (hx.1 hh), if_neg h]
      rfl
  rw [MsgHandlers.addHandler_real] at hafter
  by_cases hfirst : (c.addHandler d).1 = true
  · rw [if_pos hfirst] at hadded
    rw [MsgHandlers.addHandler_fst] at hfirst
    simp only [Bool.and_eq_true, Bool.not_eq_true', decide_eq_true_eq] at hfirst
    refine ⟨registering_counted, rfl, {⟨f, t, d.msg⟩}, ?_, ?_, ?_⟩
    · rw [Set.disjoint_singleton_left, hbefore]
      omega
    · rw [hadded, triples_pushDemand, Set.union_singleton]
    · ext x
      rw [hafter, hfirst.1, Set.union_singleton, Set.mem_insert_iff]
      by_cases h : x = ⟨f, t, d.msg⟩ <;> simp [h]
  · rw [if_neg hfirst] at hadded
    rw [MsgHandlers.addHandler_fst] at hfirst
    refine Gains.of_same registering_counted hadded rfl ?_
    ext x
    rw [hafter]
    by_cases h : x = ⟨f, t, d.msg⟩
    · rw [if_pos h, h, hbefore]
      cases hreg : d.flags.registrator with
      | true => simp
      | false =>
        simp only [hreg, Bool.not_false, Bool.true_and, decide_eq_true_eq] at hfirst
        simp only [Bool.false_eq_true, if_false]
        omega
    · rw [if_neg h]

/-- A cell in which unregistering finds nothing to do. -/
def Idle : Option MsgHandlers → DemandDg → Prop
  | none, _ => True
  | some c, d => d.flags.registrator = true ∧ d.handler ∉ c.handlers ∧ c.handlers ≠ []

theorem find_keptMsg (uuids : ExpectingDg) (h k : Header) (x : ReceiversOfMsg) (q : Uuid) :
    (((if x.receivers.entries = [] then uuids.erase h else uuids.insert h x).find k).bind
      fun y => y.receivers.find q) =
      if k = h then x.receivers.find q else (uuids.find k).bind fun y => y.receivers.find q := by
  by_cases he : x.receivers.entries = []
  · have hnone : x.receivers.find q = none := by simp [SortedMap.find, he, SortedMap.lookup]
    rw [if_pos he, SortedMap.find_erase, hnone]
    split_ifs <;> rfl
  · rw [if_neg he, SortedMap.find_insert]
    split_ifs <;> rfl

theorem find_keptReceiver (m : SortedMap Uuid MsgHandlers) (t q : Uuid) (c : MsgHandlers) :
    (if c.handlers = [] then m.erase t else m.insert t c).find q =
      if q = t then if c.handlers = [] then none else some c else m.find q := by
  by_cases he : c.handlers = []
  · rw [if_pos he, if_pos he, SortedMap.find_erase]
  · rw [if_neg he, if_neg he, SortedMap.find_insert]

theorem unRegistering_counted {dg : RequiredDG} {d : DemandDg} {f t : Uuid} {x : ReceiversOfMsg}
    {c c' : MsgHandlers}
    (hx : (dg.expectedFor f d.protocol).find d.what.messageHeader = some x)
    (h : x.receivers.find t = some c) (hnil : c'.handlers = [] → c'.real = 0)
    (hreal : c.real = c'.real + (if d.flags.registrator then 0 else 1)) (hc : Counted dg) :
    let y : ReceiversOfMsg :=
      { receivers := if c'.handlers = [] then x.receivers.erase t else x.receivers.insert t c'
        numberOfReal := if d.flags.registrator then x.numberOfReal
          else (x.numberOfReal + 2 ^ 32 - 1) % 2 ^ 32 }
    Counted (dg.setExpected f d.protocol (if y.receivers.entries = [] then
      (dg.expectedFor f d.protocol).erase d.what.messageHeader
      else (dg.expectedFor f d.protocol).insert d.what.messageHeader y)) := by
  intro y
  have hsum : (y.receivers.values.map MsgHandlers.real).sum =
      c'.real + ((x.receivers.erase t).values.map MsgHandlers.real).sum := by
    change ((if c'.handlers = [] then x.receivers.erase t
      else x.receivers.insert t c').values.map MsgHandlers.real).sum = _
    split_ifs with he
    · rw [hnil he, Nat.zero_add]
    · exact sum_real_insert _ _ _
  have hnumber : y.numberOfReal = (y.receivers.values.map MsgHandlers.real).sum % 2 ^ 32 := by
    have hbefore := hc f _ _ x hx
    rw [sum_real_of_find h, hreal] at hbefore
    rw [hsum]
    change (if d.flags.registrator then x.numberOfReal
      else (x.numberOfReal + 2 ^ 32 - 1) % 2 ^ 32) = _
    cases hreg : d.flags.registrator <;> simp only [hreg, Bool.false_eq_true, if_true, if_false]
      at hbefore ⊢ <;> omega
  refine hc.setExpected d.what.messageHeader (fun k hk => ?_) fun r hr => ?_
  · split_ifs
    · rw [SortedMap.find_erase, if_neg hk]
    · rw [SortedMap.find_insert, if_neg hk]
  · split_ifs at hr
    · rw [SortedMap.find_erase_self] at hr
      cases hr
    · rw [SortedMap.find_insert_self] at hr
      obtain rfl := Option.some.inj hr
      exact hnumber

/-- The cell of a demand after its receiver has been unregistered. -/
theorem unRegistering_present {d : DemandDg} {f t : Uuid} {s : Patch} {c c' : MsgHandlers}
    {b : Bool} (h : s.dg.cell f d.msg t = some c) (hc : c.removeHandler d = .ok (b, c')) :
    ∃ s', unRegisteringReceiverForMsg d f t s = .ok s' ∧ Frame s.dg s'.dg ∧
      (∀ u m r, s'.dg.cell u m r = if u = f ∧ m = d.msg ∧ r = t then
          if c'.handlers = [] then none else some c' else s.dg.cell u m r) ∧
      s'.new = s.new ∧
      s'.removed = (if b then pushDemand s.removed f (named d t) else s.removed) ∧
      ((c'.handlers = [] → c'.real = 0) →
        c.real = c'.real + (if d.flags.registrator then 0 else 1) →
        Counted s.dg → Counted s'.dg) := by
  change ((s.dg.expectedFor f d.protocol).find d.what.messageHeader).bind _ = some c at h
  unfold unRegisteringReceiverForMsg
  cases hr : (s.dg.expectedFor f d.protocol).find d.what.messageHeader with
  | none => rw [hr] at h; cases h
  | some r =>
    rw [hr, Option.bind_some] at h
    simp only [hr, h, hc, bind, Except.bind, pure, Except.pure]
    refine ⟨_, rfl, frame_setExpected _ _ _ _, fun u m q => ?_, rfl, rfl, fun hnil hreal hcount =>
      unRegistering_counted hr h hnil hreal hcount⟩
    rw [cell_setExpected]
    by_cases hp : u = f ∧ m.1 = d.protocol
    · rw [if_pos hp]
      refine (find_keptMsg _ _ _ ⟨_, _⟩ _).trans ?_
      by_cases hh : m.2 = d.what.messageHeader
      · have hm : m = d.msg := Prod.ext hp.2 hh
        rw [if_pos hh]
        refine (find_keptReceiver _ _ _ _).trans ?_
        by_cases hq : q = t
        · rw [if_pos hq, if_pos (show u = f ∧ m = d.msg ∧ q = t from ⟨hp.1, hm, hq⟩)]
        · rw [if_neg hq, if_neg fun h => hq h.2.2, cell, hp.1, hp.2, hh, hr, Option.bind_some]
      · rw [if_neg hh, if_neg fun h => hh (congrArg Prod.snd h.2.1), hp.1, cell, hp.2]
    · rw [if_neg hp, if_neg fun h => hp ⟨h.1, congrArg Prod.fst h.2.1⟩]

/-- Nothing is unregistered in an idle cell. -/
theorem unRegistering_idle {d : DemandDg} {f t : Uuid} {s : Patch}
    (h : Idle (s.dg.cell f d.msg t) d) :
    ∃ s', unRegisteringReceiverForMsg d f t s = .ok s' ∧ Frame s.dg s'.dg ∧
      (∀ u m r, s'.dg.cell u m r = s.dg.cell u m r) ∧ s'.new = s.new ∧
      s'.removed = s.removed ∧ (Counted s.dg → Counted s'.dg) := by
  cases hcell : s.dg.cell f d.msg t with
  | none =>
    let s' : Patch := { s with dg := s.dg.setExpected f d.protocol (s.dg.expectedFor f d.protocol) }
    refine ⟨s', ?_, frame_setExpected _ _ _ _, fun u m r => cell_setExpected_self _ _ _ _ _ _, rfl,
      rfl, Counted.congr fun u q => expectedFor_setExpected_self _ _ _ _ _⟩
    change ((s.dg.expectedFor f d.protocol).find d.what.messageHeader).bind _ = none at hcell
    unfold unRegisteringReceiverForMsg
    cases hr : (s.dg.expectedFor f d.protocol).find d.what.messageHeader with
    | none => simp only [hr]; rfl
    | some r =>
      rw [hr, Option.bind_some] at hcell
      simp only [hr, hcell]
      rfl
  | some c =>
    rw [hcell] at h
    obtain ⟨hreg, hnot, hne⟩ := h
    obtain ⟨s', hs', hframe, hcells, hnew, hold, hcount⟩ :=
      unRegistering_present hcell (MsgHandlers.removeHandler_other hreg hnot)
    refine ⟨s', hs', hframe, fun u m r => ?_, hnew, hold, hcount (fun hnil => absurd hnil hne)
      (by rw [hreg]; rfl)⟩
    rw [hcells]
    split_ifs with hu
    · rw [hu.1, hu.2.1, hu.2.2, hcell]
    · rfl

/-- Unregistering reports the triple that it loses, when handlers do not run out before the
    count of the real ones. -/
theorem unRegistering_loses {d : DemandDg} {f t : Uuid} {s : Patch} {c : MsgHandlers}
    (h : s.dg.cell f d.msg t = some c) (hreal : d.flags.registrator = false → 0 < c.real)
    (hempty : c.handlers.erase d.handler = [] →
      c.real = if d.flags.registrator then 0 else 1) :
    ∃ s' c', unRegisteringReceiverForMsg d f t s = .ok s' ∧ Frame s.dg s'.dg ∧
      c'.handlers = c.handlers.erase d.handler ∧
      c'.real = c.real - (if d.flags.registrator then 0 else 1) ∧
      (∀ u m r, s'.dg.cell u m r = if u = f ∧ m = d.msg ∧ r = t then
          if c'.handlers = [] then none else some c' else s.dg.cell u m r) ∧ Loses s s' := by
  obtain ⟨c', hc', hhand, hreal'⟩ := MsgHandlers.removeHandler_ok hreal
  obtain ⟨s', hs', hframe, hcell, hnew, hold, hcount⟩ := unRegistering_present h hc'
  refine ⟨s', c', hs', hframe, hhand, hreal', hcell, ?_⟩
  replace hcount : Counted s.dg → Counted s'.dg := by
    refine hcount (fun hnil => ?_) ?_
    · rw [hreal', hempty (hhand ▸ hnil)]
      exact Nat.sub_self _
    · rw [hreal']
      cases hreg : d.flags.registrator with
      | true => rfl
      | false =>
        have := hreal hreg
        simp only [Bool.false_eq_true, if_false]
        omega
  have hbefore : (⟨f, t, d.msg⟩ : Triple) ∈ real s.dg ↔ 0 < c.real := by
    change (∃ c, s.dg.cell f d.msg t = some c ∧ 0 < c.real) ↔ _
    rw [h]
    simp
  have hafter : ∀ x : Triple, x ∈ real s'.dg ↔
      if x = ⟨f, t, d.msg⟩ then 0 < c'.real else x ∈ real s.dg := by
    intro x
    change (∃ c : MsgHandlers, _ = some c ∧ 0 < c.real) ↔ _
    rw [hcell]
    have hx : (x.sender = f ∧ x.msg = d.msg ∧ x.receiver = t) ↔ x = ⟨f, t, d.msg⟩ := by
      rw [Triple.ext_iff]
      tauto
    by_cases hxt : x = ⟨f, t, d.msg⟩
    · rw [if_pos (hx.2 hxt), if_pos hxt]
      split_ifs with he
      · have := hempty (hhand ▸ he)
        simp only [false_and, exists_false, false_iff]
        omega
      · simp
    · rw [if_neg fun hh => hxt (hx.1 hh), if_neg hxt]
      rfl
  by_cases hlast : (!d.flags.registrator && decide (c'.real = 0)) = true
  · rw [if_pos hlast] at hold
    simp only [Bool.and_eq_true, Bool.not_eq_true', decide_eq_true_eq] at hlast
    refine ⟨hcount, hnew, {⟨f, t, d.msg⟩}, ?_, ?_, ?_⟩
    · rw [Set.singleton_subset_iff, hbefore]
      exact hreal hlast.1
    · rw [hold, triples_pushDemand, Set.union_singleton]
    · ext x
      rw [hafter, hlast.2]
      by_cases hxt : x = ⟨f, t, d.msg⟩ <;> simp [hxt]
  · rw [if_neg hlast] at hold
    refine Loses.of_same hcount hnew hold ?_
    ext x
    rw [hafter]
    by_cases hxt : x = ⟨f, t, d.msg⟩
    · rw [if_pos hxt, hxt, hbefore]
      cases hreg : d.flags.registrator with
      | true => rw [hreal', hreg]; simp
      | false =>
        simp only [hreg, Bool.not_false, Bool.true_and, decide_eq_true_eq] at hlast
        have := hreal hreg
        omega
    · rw [if_neg hxt]

end UdtKernel.RequiredDG
