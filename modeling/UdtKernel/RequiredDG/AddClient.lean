import UdtKernel.Lib.Outcome
import UdtKernel.RequiredDG.SetDemands

set_option autoImplicit false

/-! What a new client makes of the table. -/

namespace UdtKernel.RequiredDG
open UdtKernel.Lib UdtKernel.Address

variable {swap : SwapHeader}

theorem mem_demandsOf {m : DemandDgsFor} {r : Uuid} {d : DemandDg} :
    (r, d) ∈ demandsOf m ↔ d ∈ (m.find r).getD [] := by
  simp only [demandsOf, List.mem_flatMap, List.mem_map, Prod.mk.injEq]
  constructor
  · rintro ⟨⟨r', ds⟩, he, d', hd, rfl, rfl⟩
    rw [(SortedMap.mem_entries_iff m _ _).1 he]
    exact hd
  · intro hd
    cases hr : m.find r with
    | none => rw [hr] at hd; cases hd
    | some ds =>
      rw [hr] at hd
      exact ⟨(r, ds), (SortedMap.mem_entries_iff m r ds).2 hr, d, hd, rfl, rfl⟩

theorem find_of_getD {m : DemandDgsFor} {r : Uuid} {ds : List DemandDg} (h : (r, ds) ∈ m.entries) :
    (m.find r).getD [] = ds := by
  rw [(SortedMap.mem_entries_iff m r ds).1 h]
  rfl

/-- The demands of a table one after the other: two of them satisfy what two demands of one
    receiver do. -/
theorem demandsOf_pairwise {m : DemandDgsFor} {R : Uuid → DemandDg → DemandDg → Prop}
    (h : ∀ r, ((m.find r).getD []).Pairwise (R r)) :
    (demandsOf m).Pairwise fun e e' => e.1 = e'.1 → R e.1 e.2 e'.2 := by
  refine List.pairwise_flatMap.2 ⟨fun e he => ?_, ?_⟩
  · refine List.pairwise_map.2 ?_
    have hr := h e.1
    rw [find_of_getD (show (e.1, e.2) ∈ m.entries from he)] at hr
    refine hr.imp ?_
    intro d d' hR _
    exact hR
  · refine m.sorted.imp fun {e e'} hlt x hx y hy heq => ?_
    obtain ⟨d, -, rfl⟩ := List.mem_map.1 hx
    obtain ⟨d', -, rfl⟩ := List.mem_map.1 hy
    exact absurd heq (ne_of_lt hlt)

def wayFrom (aFrom : Id) (e : Uuid × DemandDg) : WayInfo :=
  ⟨aFrom.uuid, e.1, e.2, nameDepth aFrom.name e.2⟩

theorem getDistance_spec {aFrom : Id} {m : DemandDgsFor}
    (h : ∀ e ∈ demandsOf m, Conformable aFrom.name e.2) :
    getDistance aFrom m = .ok ((demandsOf m).map (wayFrom aFrom)) := by
  refine mapM_ok fun e he => ?_
  rw [doesIdConformTo_ok (h e he)]
  rfl

/-- The ways by which an identifier is to send for the demands of a table. -/
def waysOf (aFrom : Id) (m : DemandDgsFor) : List WayInfo :=
  ((demandsOf m).map (wayFrom aFrom)).filter fun w => w.distance ≠ 0

theorem mem_waysOf {aFrom : Id} {dg : RequiredDG} {w : WayInfo} :
    w ∈ waysOf aFrom dg.dgs ↔ w.from_ = aFrom.uuid ∧ w.what ∈ dg.getDemandFor w.for_ ∧
      w.distance = nameDepth aFrom.name w.what ∧ w.distance ≠ 0 := by
  simp only [waysOf, List.mem_filter, List.mem_map, decide_eq_true_eq]
  constructor
  · rintro ⟨⟨⟨r, d⟩, he, rfl⟩, hz⟩
    exact ⟨rfl, mem_demandsOf.1 he, rfl, hz⟩
  · rintro ⟨hf, hd, hdist, hz⟩
    refine ⟨⟨(w.for_, w.what), mem_demandsOf.2 hd, ?_⟩, hz⟩
    rw [wayFrom, ← hf, ← hdist]

theorem Kept.demandsOf_pairwise {dg : RequiredDG} (hk : Kept swap dg) (aFrom : Id) :
    ((demandsOf dg.dgs).map (wayFrom aFrom)).Pairwise fun w w' => ¬ SameRecord w w' := by
  refine List.pairwise_map.2 ?_
  have h := RequiredDG.demandsOf_pairwise (m := dg.dgs)
    (R := fun _ d e => d.handler ≠ e.handler) fun r => List.pairwise_map.1 (hk.lists r).handlers
  exact h.imp fun hR hsame => hR hsame.1 hsame.2

theorem depthOf_insert (aIds : SortedMap Uuid Text) (d : DemandDg) (u : Uuid) (name : Text)
    (v : Uuid) : depthOf (aIds.insert u name) d v =
      if v = u then nameDepth name d else depthOf aIds d v := by
  unfold depthOf
  rw [SortedMap.find_insert]
  by_cases hv : v = u
  · rw [if_pos hv, if_pos hv]
  · rw [if_neg hv, if_neg hv]

/-- A new identifier is one that a demand is for when it is at most at the recorded distance. -/
theorem selected_insert_self {dg : RequiredDG} (hk : Kept swap dg) {u r : Uuid} {name : Text}
    (hnew : dg.ids.find u = none) {d : DemandDg} (hd : d ∈ dg.getDemandFor r)
    (hlive : Live swap dg d)
    (hrec : d.flags.nearest = true → nameDepth name d ≠ 0 → (∀ v, depthOf dg.ids d v = 0) →
      nameDepth name d ≤ dg.nearestOf r d.handler) :
    Selected (dg.ids.insert u name) d u ↔ nameDepth name d ≠ 0 ∧
      (d.flags.nearest = true → nameDepth name d ≤ dg.nearestOf r d.handler) := by
  simp only [Selected, depthOf_insert, if_true]
  refine and_congr_right fun hz => forall_congr' fun hn => ?_
  constructor
  · intro hall
    by_cases hnone : ∀ v, depthOf dg.ids d v = 0
    · exact hrec hn hz hnone
    · push Not at hnone
      obtain ⟨v, hv⟩ := hnone
      obtain ⟨x, hx⟩ := exists_selected hv
      have hxu : x ≠ u := fun heq => hx.1 (by rw [heq, depthOf, hnew])
      have hle := hall x
      rw [if_neg hxu] at hle
      exact (hle hx.1).trans (hk.nearest r d hd hn hlive x hx).ge
  · intro hle v hv
    split_ifs at hv ⊢ with hvu
    · exact le_refl _
    · obtain ⟨x, hx⟩ := exists_selected hv
      rw [hk.nearest r d hd hn hlive x hx] at hle
      exact hle.trans (hx.2 hn v hv)

/-- Another identifier stays one that a demand is for unless the new one is nearer. -/
theorem selected_insert_other {dg : RequiredDG} (hk : Kept swap dg) {u v r : Uuid} {name : Text}
    (hnew : dg.ids.find u = none) (hvu : v ≠ u) {d : DemandDg} (hd : d ∈ dg.getDemandFor r)
    (hlive : Live swap dg d) :
    Selected (dg.ids.insert u name) d v ↔ Selected dg.ids d v ∧
      ¬ (d.flags.nearest = true ∧ nameDepth name d ≠ 0 ∧
        nameDepth name d < dg.nearestOf r d.handler) := by
  have hu : depthOf dg.ids d u = 0 := by rw [depthOf, hnew]
  constructor
  · intro hsel
    have hsel' : Selected dg.ids d v := by
      refine ⟨by simpa [depthOf_insert, hvu] using hsel.1, fun hn x hx => ?_⟩
      have hxu : x ≠ u := fun heq => hx (heq ▸ hu)
      have hle := hsel.2 hn x
      simp only [depthOf_insert, hvu, hxu, if_false] at hle
      exact hle hx
    refine ⟨hsel', ?_⟩
    rintro ⟨hn, hz, hlt⟩
    have hle := hsel.2 hn u
    simp only [depthOf_insert, hvu, if_false, if_true] at hle
    rw [hk.nearest r d hd hn hlive v hsel'] at hlt
    exact absurd (hle hz) (not_le.2 hlt)
  · rintro ⟨hsel, hnot⟩
    refine ⟨by simpa [depthOf_insert, hvu] using hsel.1, fun hn x hx => ?_⟩
    simp only [depthOf_insert, hvu, if_false] at hx ⊢
    split_ifs at hx ⊢ with hxu
    · by_contra hlt
      rw [← hk.nearest r d hd hn hlive v hsel] at hlt
      exact hnot ⟨hn, hx, not_le.1 hlt⟩
    · exact hsel.2 hn x hx

/-- The demand in a list that a registered one comes from. -/
theorem ListOk.eq_of_plain {ds : List DemandDg} (h : ListOk ds) {d e : DemandDg} (hd : d ∈ ds)
    (he : e ∈ ds) (heq : plain d = plain e) : d = e :=
  h.eq_of_handler hd he (plain_handler heq)

/-- `updateSendInfoFor` when what is removed is sent and what is added is new. -/
theorem updateSendInfoFor_spec {G : Regs} (added removed : List WayInfo) {s : Patch}
    (h : CellsOk swap s.dg G)
    (hin : ∀ w ∈ removed, G w.from_ w.for_ (plain w.what) ∨
      Gone swap s.dg.msgsGenealogy G w.from_ w.for_ w.what)
    (hpair : removed.Pairwise fun w w' => SameWay w w' → Lone swap s.dg.msgsGenealogy G w)
    (hnew : ∀ w ∈ added, ∀ e, G.subAll removed w.from_ w.for_ e → e.handler ≠ w.what.handler)
    (hadd : added.Pairwise fun w w' => w.from_ = w'.from_ → w.for_ = w'.for_ →
      w.what.handler ≠ w'.what.handler) :
    ∃ s₁ s', updateSendInfoFor swap added removed s = .ok s' ∧ Frame s.dg s'.dg ∧
      CellsOk swap s'.dg ((G.subAll removed).addAll added) ∧ Loses s s₁ ∧ Gains s₁ s' := by
  obtain ⟨s₁, hs₁, hframe₁, hcells₁, hloses⟩ := unSendAll removed h hin hpair
  obtain ⟨hframe, hcells, hgains⟩ := sendAll added hcells₁ hnew hadd
  refine ⟨s₁, _, ?_, hframe₁.trans hframe, hcells, hloses, hgains⟩
  rw [updateSendInfoFor, hs₁]
  rfl

theorem Kept.conformable_ways {dg : RequiredDG} (hk : Kept swap dg) {aId : Id} {w : WayInfo}
    (hw : w ∈ waysOf aId dg.dgs) : AllConformable dg.ids w.what :=
  hk.conformable w.for_ w.what (mem_waysOf.1 hw).2.1

theorem mem_keptWays {dg : RequiredDG} {ws : List WayInfo} {p : WayInfo} :
    p ∈ ws.filter (keeps dg) ↔ p ∈ ws ∧ (p.what.flags.nearest = true →
      p.distance ≤ dg.nearestOf p.for_ p.what.handler) := by
  rw [List.mem_filter, keeps]
  cases p.what.flags.nearest <;> simp

/-- The ways that those of a new identifier take the place of. -/
theorem Kept.mem_evictedWays {dg : RequiredDG} (hk : Kept swap dg) {aId : Id} {p : WayInfo} :
    p ∈ (waysOf aId dg.dgs).flatMap (evicted dg) ↔ p.what ∈ dg.getDemandFor p.for_ ∧
      Selected dg.ids p.what p.from_ ∧ p.what.flags.nearest = true ∧
      nameDepth aId.name p.what ≠ 0 ∧
      nameDepth aId.name p.what < dg.nearestOf p.for_ p.what.handler ∧
      p.distance = dg.nearestOf p.for_ p.what.handler := by
  rw [List.mem_flatMap]
  constructor
  · rintro ⟨w, hw, hp⟩
    obtain ⟨⟨hn, hlt⟩, hsel, hf, hwhat, hd⟩ := (mem_evicted (hk.conformable_ways hw)).1 hp
    obtain ⟨-, hmem, hdist, hz⟩ := mem_waysOf.1 hw
    rw [hf, hwhat, ← hdist]
    exact ⟨hmem, hsel, hn, hz, hlt, hd⟩
  · rintro ⟨hmem, hsel, hn, hz, hlt, hd⟩
    have hw : ⟨aId.uuid, p.for_, p.what, nameDepth aId.name p.what⟩ ∈ waysOf aId dg.dgs :=
      mem_waysOf.2 ⟨rfl, hmem, rfl, hz⟩
    exact ⟨_, hw, (mem_evicted (hk.conformable_ways hw)).2 ⟨⟨hn, hlt⟩, hsel, rfl, rfl, hd⟩⟩

theorem Kept.evictedWays_pairwise {dg : RequiredDG} (hk : Kept swap dg) (aId : Id) :
    ((waysOf aId dg.dgs).flatMap (evicted dg)).Pairwise fun w w' => ¬ SameWay w w' := by
  refine List.pairwise_flatMap.2 ⟨fun w _ => (evicted_pairwise dg w).imp fun hne hsame =>
    hne hsame.1, ((hk.demandsOf_pairwise aId).filter _).imp_of_mem
      fun {w w'} hw hw' hnot p hp q hq hsame => hnot ?_⟩
  obtain ⟨-, -, hf, hwhat, -⟩ := (mem_evicted (hk.conformable_ways hw)).1 hp
  obtain ⟨-, -, hf', hwhat', -⟩ := (mem_evicted (hk.conformable_ways hw')).1 hq
  refine ⟨?_, ?_⟩
  · rw [← hf, ← hf', hsame.2.1]
  · rw [← hwhat, ← hwhat', plain_handler hsame.2.2]

section NewIdentifier

variable {dg : RequiredDG} {aId : Id} (hk : Kept swap dg) (hnew : dg.ids.find aId.uuid = none)
  (hrec : ∀ r, ∀ d ∈ dg.getDemandFor r, d.flags.nearest = true → Live swap dg d →
    nameDepth aId.name d ≠ 0 → (∀ v, depthOf dg.ids d v = 0) →
    nameDepth aId.name d ≤ dg.nearestOf r d.handler)
include hk hnew hrec

/-- What is to be sent with the new identifier: its ways that are kept take the place of others. -/
theorem Kept.target_insert {v r : Uuid} {e : DemandDg} (hlive : Live swap dg e) :
    target { dg with ids := dg.ids.insert aId.uuid aId.name } v r e ↔
      ((target dg).subAll ((waysOf aId dg.dgs).flatMap (evicted dg))).addAll
        ((waysOf aId dg.dgs).filter (keeps dg)) v r e := by
  simp only [Regs.addAll, Regs.subAll, hk.mem_evictedWays, mem_keptWays, mem_waysOf]
  constructor
  · rintro ⟨d, hd, rfl, hsel⟩
    have hlive : Live swap dg d := by rwa [Live, msgsOf_plain] at hlive
    by_cases hv : v = aId.uuid
    · subst hv
      obtain ⟨hz, hle⟩ := (selected_insert_self hk hnew hd hlive
        fun hn => hrec r d hd hn hlive).1 hsel
      exact .inr ⟨⟨aId.uuid, r, d, nameDepth aId.name d⟩, ⟨⟨rfl, hd, rfl, hz⟩, hle⟩, rfl, rfl, rfl⟩
    · obtain ⟨hsel', hnot⟩ := (selected_insert_other hk hnew hv hd hlive).1 hsel
      refine .inl ⟨⟨d, hd, rfl, hsel'⟩, ?_⟩
      rintro ⟨p, ⟨hmem, -, hn, hz, hlt, -⟩, -, rfl, heq⟩
      obtain rfl := (hk.lists _).eq_of_plain hd hmem heq
      exact hnot ⟨hn, hz, hlt⟩
  · rintro (⟨⟨d, hd, rfl, hsel⟩, hnot⟩ | ⟨w, ⟨⟨hf, hmem, hdist, hz⟩, hle⟩, rfl, rfl, rfl⟩)
    · have hlive : Live swap dg d := by rwa [Live, msgsOf_plain] at hlive
      have hv : v ≠ aId.uuid := fun heq => hsel.1 (by rw [heq, depthOf, hnew])
      refine ⟨d, hd, rfl, (selected_insert_other hk hnew hv hd hlive).2 ⟨hsel, ?_⟩⟩
      rintro ⟨hn, hz, hlt⟩
      exact hnot
        ⟨⟨v, r, d, dg.nearestOf r d.handler⟩, ⟨hd, hsel, hn, hz, hlt, rfl⟩, rfl, rfl, rfl⟩
    · have hlive : Live swap dg w.what := by rwa [Live, msgsOf_plain] at hlive
      refine ⟨w.what, hmem, rfl, ?_⟩
      rw [hf, selected_insert_self hk hnew hmem hlive fun hn => hrec _ _ hmem hn hlive, ← hdist]
      exact ⟨hz, hle⟩

/-- The lesser of the recorded depth and that of the new identifier is recorded for a demand. -/
theorem Kept.nearest_insert {r v : Uuid} {d : DemandDg} (hd : d ∈ dg.getDemandFor r)
    (hn : d.flags.nearest = true) (hlive : Live swap dg d)
    (hsel : Selected (dg.ids.insert aId.uuid aId.name) d v) {k : ℕ}
    (hsame : nameDepth aId.name d = 0 → k = dg.nearestOf r d.handler)
    (hmin : nameDepth aId.name d ≠ 0 →
      k = min (dg.nearestOf r d.handler) (nameDepth aId.name d)) :
    k = depthOf (dg.ids.insert aId.uuid aId.name) d v := by
  rw [depthOf_insert]
  by_cases hz : nameDepth aId.name d = 0
  · have hv : v ≠ aId.uuid := fun heq => hsel.1 (by rw [heq, depthOf_insert, if_pos rfl, hz])
    rw [if_neg hv, hsame hz]
    exact hk.nearest r d hd hn hlive v ((selected_insert_other hk hnew hv hd hlive).1 hsel).1
  · rw [hmin hz]
    split_ifs with hv
    · subst hv
      exact min_eq_right (((selected_insert_self hk hnew hd hlive
        fun hn => hrec r d hd hn hlive).1 hsel).2 hn)
    · obtain ⟨hsel', hnot⟩ := (selected_insert_other hk hnew hv hd hlive).1 hsel
      rw [← hk.nearest r d hd hn hlive v hsel']
      exact min_eq_left (not_lt.1 fun hlt => hnot ⟨hn, hz, hlt⟩)

end NewIdentifier

/-- `addClient` on a new identifier whose depth is not below a record without senders. -/
theorem addClient_spec {dg : RequiredDG} (hk : Kept swap dg) {aId : Id}
    (hnew : dg.ids.find aId.uuid = none)
    (hconf : ∀ r, ∀ d ∈ dg.getDemandFor r, Conformable aId.name d)
    (hrec : ∀ r, ∀ d ∈ dg.getDemandFor r, d.flags.nearest = true → Live swap dg d →
      nameDepth aId.name d ≠ 0 → (∀ v, depthOf dg.ids d v = 0) →
      nameDepth aId.name d ≤ dg.nearestOf r d.handler) :
    ∃ s', addClient swap aId dg = .ok s' ∧ Kept swap s'.dg ∧
      s'.dg.ids = dg.ids.insert aId.uuid aId.name ∧ s'.dg.dgs = dg.dgs ∧
      s'.dg.msgsGenealogy = dg.msgsGenealogy ∧
      (∀ r, ∀ d ∈ dg.getDemandFor r, nameDepth aId.name d = 0 →
        s'.dg.nearestOf r d.handler = dg.nearestOf r d.handler) ∧ Reports dg s' := by
  have hpair : (waysOf aId dg.dgs).Pairwise fun w w' => ¬ SameRecord w w' :=
    (hk.demandsOf_pairwise aId).filter _
  have hlist : getListOfReceiversOfMsgsFrom dg aId = .ok (waysOf aId dg.dgs) := by
    rw [getListOfReceiversOfMsgsFrom, getDistance_spec fun e he => hconf e.1 e.2
      (mem_demandsOf.1 he)]
    rfl
  obtain ⟨dg₁, hdg₁, hrec₁, hother, hmin⟩ :=
    removeSenderIfNeed_spec (fun w hw => hk.conformable_ways hw) hpair
  obtain ⟨s₁, s₂, hs₂, hframe, hcells, hloses, hgains⟩ := updateSendInfoFor_spec
    ((waysOf aId dg.dgs).filter (keeps dg)) ((waysOf aId dg.dgs).flatMap (evicted dg))
    (s := ⟨dg₁, .empty, .empty⟩) (hrec₁.cellsOk hk.cells)
    (fun p hp => by
      obtain ⟨hmem, hsel, -⟩ := hk.mem_evictedWays.1 hp
      exact .inl ⟨p.what, hmem, rfl, hsel⟩)
    ((hk.evictedWays_pairwise aId).imp fun hnot hsame => absurd hsame hnot)
    (fun w hw e he => by
      -- nothing is sent by an identifier that is new
      obtain ⟨⟨d, -, -, hsel⟩, -⟩ := he
      rw [(mem_waysOf.1 (mem_keptWays.1 hw).1).1] at hsel
      exact absurd (by rw [depthOf, hnew]) hsel.1)
    ((hpair.filter _).imp fun hnot _ hf hh => hnot ⟨hf, hh⟩)
  have hids : s₂.dg.ids = dg.ids := hframe.ids.trans hrec₁.ids
  have hdgs : s₂.dg.dgs = dg.dgs := hframe.dgs.trans hrec₁.dgs
  have hgen : s₂.dg.msgsGenealogy = dg.msgsGenealogy :=
    hframe.msgsGenealogy.trans hrec₁.msgsGenealogy
  let dg' : RequiredDG := { s₂.dg with ids := dg.ids.insert aId.uuid aId.name }
  have hdemand : ∀ r, dg'.getDemandFor r = dg.getDemandFor r := fun r => by
    unfold getDemandFor
    rw [← hdgs]
  have hlive' : ∀ d, Live swap dg' d ↔ Live swap dg d := fun d => by
    rw [Live, show dg'.msgsGenealogy = dg.msgsGenealogy from hgen, Live]
  have hrun : addClient swap aId dg = .ok { s₂ with dg := dg' } := by
    have hadd : addReceiversOfMsgsFrom swap aId ⟨dg, .empty, .empty⟩ = .ok s₂ := by
      unfold addReceiversOfMsgsFrom
      simp only [hlist, takeIntoAccountOnlyNearestSendersIfNeed, hdg₁, addSenderIfNeed, bind,
        Except.bind, pure, Except.pure, List.append_nil, List.nil_append]
      exact hs₂
    rw [addClient, hadd]
    simp only [bind, Except.bind]
    rw [hids, hnew]
    rfl
  have hsame : ∀ r, ∀ d ∈ dg.getDemandFor r, nameDepth aId.name d = 0 →
      s₂.dg.nearestOf r d.handler = dg.nearestOf r d.handler := fun r d hd hz => by
    -- no way is about the record
    rw [hframe.nearestOf, hother r d.handler fun w hw _ hh => ?_]
    obtain ⟨-, hmem, hdist, hne⟩ := mem_waysOf.1 hw
    rw [← hh.1] at hmem
    rw [(hk.lists r).eq_of_handler hmem hd hh.2.symm] at hdist
    exact hne (hdist.trans hz)
  refine ⟨_, hrun, ⟨fun r => ?_, fun r d hd e he => ?_, ?_, fun r d hd hn hlive v hsel => ?_⟩,
    rfl, hdgs, hgen, hsame, s₁, hrec₁.loses.trans hloses,
    hgains.trans (Gains.of_same id rfl rfl (real_congr fun _ _ _ => rfl))⟩
  · rw [hdemand]
    exact hk.lists r
  · rw [hdemand] at hd
    have hfind := (SortedMap.mem_entries_iff _ _ _).1 (show (e.1, e.2) ∈ dg'.ids.entries from he)
    rw [show dg'.ids = dg.ids.insert aId.uuid aId.name from rfl, SortedMap.find_insert] at hfind
    split_ifs at hfind with heu
    · rw [← Option.some.inj hfind]
      exact hconf r d hd
    · exact hk.conformable r d hd e ((SortedMap.mem_entries_iff _ _ _).2 hfind)
  · refine hcells.congr rfl (fun _ _ _ => rfl) fun v r e hlive => ?_
    rw [show s₂.dg.msgsGenealogy = dg.msgsGenealogy from hgen] at hlive
    rw [← hk.target_insert hnew hrec hlive]
    unfold target
    rw [hdemand]
    rfl
  · rw [hdemand] at hd
    rw [hlive'] at hlive
    refine hk.nearest_insert hnew hrec hd hn hlive hsel (hsame r d hd) fun hz => ?_
    have hw : ⟨aId.uuid, r, d, nameDepth aId.name d⟩ ∈ waysOf aId dg.dgs :=
      mem_waysOf.2 ⟨rfl, hd, rfl, hz⟩
    exact (hframe.nearestOf r d.handler).trans (hmin _ hw hn)

end UdtKernel.RequiredDG
