import Mathlib.Data.List.Nodup
import UdtKernel.RequiredDG.Ways

set_option autoImplicit false

/-! What is kept of the table, and the steps on the ways to one demand. -/

namespace UdtKernel.RequiredDG
open UdtKernel.Lib UdtKernel.Address

variable {swap : SwapHeader}

/-- What each sender is to send for, by the identifiers and the demands alone. -/
def target (dg : RequiredDG) : Regs := fun u r e =>
  ∃ d ∈ dg.getDemandFor r, e = plain d ∧ Selected dg.ids d u

/-- The demands of one receiver have different handlers and are different. -/
structure ListOk (ds : List DemandDg) : Prop where
  handlers : (ds.map DemandDg.handler).Nodup
  different : ds.Pairwise fun d e => d.isEqual e = false

/-- The demand is about a message that there is. -/
def Live (swap : SwapHeader) (dg : RequiredDG) (d : DemandDg) : Prop :=
  msgsOf swap dg.msgsGenealogy d ≠ []

/-- What is kept by every operation: what is sent is what is to be sent, and the recorded
    distances are those of the nearest senders. -/
structure Kept (swap : SwapHeader) (dg : RequiredDG) : Prop where
  lists : ∀ r, ListOk (dg.getDemandFor r)
  conformable : ∀ r, ∀ d ∈ dg.getDemandFor r, AllConformable dg.ids d
  cells : CellsOk swap dg (target dg)
  nearest : ∀ r, ∀ d ∈ dg.getDemandFor r, d.flags.nearest = true → Live swap dg d →
    ∀ u, Selected dg.ids d u → dg.nearestOf r d.handler = depthOf dg.ids d u

theorem plain_eq {d e : DemandDg} (h : plain d = plain e) :
    d.nameFrom = e.nameFrom ∧ d.uuidFrom = e.uuidFrom ∧ d.msg = e.msg := by
  have hname : (plain d).nameFrom = (plain e).nameFrom := by rw [h]
  have huuid : (plain d).uuidFrom = (plain e).uuidFrom := by rw [h]
  have hmsg : (plain d).msg = (plain e).msg := by rw [h]
  exact ⟨hname, huuid, hmsg⟩

theorem depthOf_plain {d e : DemandDg} (h : plain d = plain e) (aIds : SortedMap Uuid Text)
    (u : Uuid) : depthOf aIds d u = depthOf aIds e u := by
  unfold depthOf nameDepth
  rw [(plain_eq h).1, plain_flags h]

theorem selected_plain {d e : DemandDg} (h : plain d = plain e) (aIds : SortedMap Uuid Text)
    (u : Uuid) : Selected aIds d u ↔ Selected aIds e u := by
  unfold Selected
  rw [plain_flags h]
  simp only [depthOf_plain h]

theorem plain_isEqual {d e : DemandDg} (h : plain d = plain e) : d.isEqual e = true := by
  obtain ⟨hname, huuid, hmsg⟩ := plain_eq h
  exact DemandDg.isEqual_iff.2 ⟨hmsg, hname, huuid⟩

theorem ListOk.eq_of_handler {ds : List DemandDg} (h : ListOk ds) {d e : DemandDg} (hd : d ∈ ds)
    (he : e ∈ ds) (heq : d.handler = e.handler) : d = e :=
  List.inj_on_of_nodup_map h.handlers hd he heq

theorem ListOk.eq_of_isEqual {ds : List DemandDg} (h : ListOk ds) {d e : DemandDg} (hd : d ∈ ds)
    (he : e ∈ ds) (heq : d.isEqual e = true) : d = e := by
  have hdiff := h.different
  clear h
  induction ds with
  | nil => cases hd
  | cons x ds ih =>
    obtain ⟨hx, hds⟩ := List.pairwise_cons.1 hdiff
    rcases List.mem_cons.1 hd with rfl | hd' <;> rcases List.mem_cons.1 he with rfl | he'
    · rfl
    · have hne := hx e he'
      rw [heq] at hne
      cases hne
    · have hne := hx d hd'
      rw [DemandDg.isEqual_symm heq] at hne
      cases hne
    · exact ih hd' he' hds

/-- Two tables with the same demands, identifiers and genealogy. -/
structure Base (dg dg' : RequiredDG) : Prop where
  dgs : dg'.dgs = dg.dgs
  ids : dg'.ids = dg.ids
  msgsGenealogy : dg'.msgsGenealogy = dg.msgsGenealogy

theorem Base.trans {dg dg' dg'' : RequiredDG} (h : Base dg dg') (h' : Base dg' dg'') :
    Base dg dg'' :=
  ⟨h'.dgs.trans h.dgs, h'.ids.trans h.ids, h'.msgsGenealogy.trans h.msgsGenealogy⟩

theorem Frame.base {dg dg' : RequiredDG} (h : Frame dg dg') : Base dg dg' :=
  ⟨h.dgs, h.ids, h.msgsGenealogy⟩

theorem Recorded.base {dg dg' : RequiredDG} (h : Recorded dg dg') : Base dg dg' :=
  ⟨h.dgs, h.ids, h.msgsGenealogy⟩

theorem Frame.nearestOf {dg dg' : RequiredDG} (h : Frame dg dg') (r : Uuid) (k : ℕ) :
    dg'.nearestOf r k = dg.nearestOf r k := by
  unfold RequiredDG.nearestOf
  rw [h.nearestInfo]

theorem Recorded.counted {dg dg' : RequiredDG} (h : Recorded dg dg') (hc : Counted dg) :
    Counted dg' := hc.congr fun f p => by rw [expectedFor, expectedFor, h.whatIsSendingBy]

theorem Recorded.loses {s : Patch} {dg : RequiredDG} (h : Recorded s.dg dg) :
    Loses s { s with dg := dg } := Loses.of_same h.counted rfl rfl (real_congr h.cell)

theorem Recorded.gains {s : Patch} {dg : RequiredDG} (h : Recorded s.dg dg) :
    Gains s { s with dg := dg } := Gains.of_same h.counted rfl rfl (real_congr h.cell)

/-- The ways from some identifiers to a demand of a receiver. -/
def waysTo (aTo : Uuid) (d : DemandDg) (us : SortedMap Uuid ℕ) : List WayInfo :=
  waysFor ⟨0, aTo, d, 0⟩ us 0

/-- The identifiers that a demand is for, as ways. -/
theorem waysTo_spec {aIds : SortedMap Uuid Text} {d : DemandDg} {r : Uuid}
    {m : SortedMap Uuid ℕ}
    (hm : ∀ u n, m.find u = some n ↔ Selected aIds d u ∧ n = depthOf aIds d u) (p : WayInfo) :
    p ∈ waysTo r d m ↔ Selected aIds d p.from_ ∧ p.for_ = r ∧ p.what = d ∧ p.distance = 0 := by
  rw [waysTo, mem_waysFor]
  refine and_congr_left fun _ => ⟨?_, fun h => ⟨_, (hm _ _).2 ⟨h, rfl⟩⟩⟩
  rintro ⟨k, hk⟩
  exact ((hm _ _).1 hk).1

theorem exists_waysTo {aIds : SortedMap Uuid Text} {d : DemandDg} {r : Uuid}
    {m : SortedMap Uuid ℕ}
    (hm : ∀ u n, m.find u = some n ↔ Selected aIds d u ∧ n = depthOf aIds d u)
    (u r' : Uuid) (e : DemandDg) :
    (∃ w ∈ waysTo r d m, u = w.from_ ∧ r' = w.for_ ∧ e = plain w.what) ↔
      r' = r ∧ e = plain d ∧ Selected aIds d u := by
  constructor
  · rintro ⟨w, hw, rfl, rfl, rfl⟩
    obtain ⟨hsel, hr, rfl, -⟩ := (waysTo_spec hm w).1 hw
    exact ⟨hr, rfl, hsel⟩
  · rintro ⟨rfl, rfl, hsel⟩
    exact ⟨⟨u, r', d, 0⟩, (waysTo_spec hm _).2 ⟨hsel, rfl, rfl, rfl⟩, rfl, rfl, rfl⟩

/-- One turn of `removeSendersOfMsgFor`. -/
theorem removeSendersOf_spec {G : Regs} {r : Uuid} {d : DemandDg} {s : Patch}
    (hcells : CellsOk swap s.dg G) (hconf : AllConformable s.dg.ids d)
    (hin : ∀ u, Selected s.dg.ids d u → G u r (plain d)) :
    ∃ s', removeSendersOf swap r s d = .ok s' ∧ Base s.dg s'.dg ∧
      CellsOk swap s'.dg (fun u r' e =>
        G u r' e ∧ ¬ (r' = r ∧ e = plain d ∧ Selected s.dg.ids d u)) ∧
      (∀ r' h, ¬ (r' = r ∧ h = d.handler) → s'.dg.nearestOf r' h = s.dg.nearestOf r' h) ∧
      Loses s s' := by
  obtain ⟨m, hm, hfind⟩ := sendersFor_spec hconf
  generalize hdg : (if d.flags.nearest then s.dg.eraseNearest r d.handler else s.dg) = dg₁
  have hrec : Recorded s.dg dg₁ := by
    rw [← hdg]
    split_ifs
    · exact recorded_eraseNearest _ _ _
    · exact Recorded.refl _
  obtain ⟨s', hs', hframe, hcells', hloses⟩ := unSendAll (waysTo r d m)
    (s := { s with dg := dg₁ }) (hrec.cellsOk hcells) (fun w hw => by
      obtain ⟨hsel, hr, hd, -⟩ := (waysTo_spec hfind w).1 hw
      rw [hr, hd]
      exact .inl (hin _ hsel))
    ((waysFor_pairwise _ _ _).imp fun hne hsame => absurd hsame.1 hne)
  refine ⟨s', ?_, hrec.base.trans hframe.base, hcells'.congr rfl (fun _ _ _ => rfl)
    fun u r' e _ => ?_, fun r' h hne => ?_, hrec.loses.trans hloses⟩
  · unfold removeSendersOf
    rw [hm]
    simp only [bind, Except.bind, hdg]
    rw [waysTo, waysFor, List.foldlM_map] at hs'
    exact hs'
  · rw [Regs.subAll, exists_waysTo hfind]
  · rw [hframe.nearestOf]
    change dg₁.nearestOf r' h = _
    rw [← hdg]
    split_ifs
    · exact nearestOf_eraseNearest _ hne
    · rfl

/-- `removeSendersOfMsgFor` on demands whose senders all send for them. -/
theorem removeSendersOfMsgFor_spec {G : Regs} {r : Uuid} (ds : List DemandDg) {s : Patch}
    (hcells : CellsOk swap s.dg G) (hconf : ∀ d ∈ ds, AllConformable s.dg.ids d)
    (hin : ∀ d ∈ ds, ∀ u, Selected s.dg.ids d u → G u r (plain d))
    (hpair : ds.Pairwise fun d e => plain d ≠ plain e) :
    ∃ s', removeSendersOfMsgFor swap r ds s = .ok s' ∧ Base s.dg s'.dg ∧
      CellsOk swap s'.dg (fun u r' e =>
        G u r' e ∧ ¬ (r' = r ∧ ∃ d ∈ ds, e = plain d ∧ Selected s.dg.ids d u)) ∧
      (∀ r' h, (∀ d ∈ ds, ¬ (r' = r ∧ h = d.handler)) →
        s'.dg.nearestOf r' h = s.dg.nearestOf r' h) ∧ Loses s s' := by
  induction ds generalizing s G with
  | nil =>
    refine ⟨s, rfl, (Frame.refl _).base, hcells.congr rfl (fun _ _ _ => rfl) fun u r' e _ => ?_,
      fun _ _ _ => rfl, Loses.refl _⟩
    simp
  | cons d ds ih =>
    obtain ⟨hd, hds⟩ := List.pairwise_cons.1 hpair
    obtain ⟨s₁, hs₁, hbase₁, hcells₁, hnear₁, hloses₁⟩ := removeSendersOf_spec hcells
      (hconf d List.mem_cons_self) (hin d List.mem_cons_self)
    obtain ⟨s', hs', hbase, hcells', hnear, hloses⟩ := ih hcells₁
      (fun e he => by rw [hbase₁.ids]; exact hconf e (List.mem_cons_of_mem _ he))
      (fun e he u hsel => by
        rw [hbase₁.ids] at hsel
        exact ⟨hin e (List.mem_cons_of_mem _ he) u hsel, fun hh => hd e he hh.2.1.symm⟩) hds
    refine ⟨s', ?_, hbase₁.trans hbase, hcells'.congr rfl (fun _ _ _ => rfl) fun u r' e _ => ?_,
      fun r' h hnot => ?_, hloses₁.trans hloses⟩
    · rw [removeSendersOfMsgFor, List.foldlM_cons, hs₁]
      exact hs'
    · rw [hbase₁.ids, and_assoc, ← not_or, ← and_or_left]
      simp only [List.mem_cons, exists_eq_or_imp]
    · rw [hnear r' h fun e he => hnot e (List.mem_cons_of_mem _ he),
        hnear₁ r' h (hnot d List.mem_cons_self)]

/-- One turn of `addSendersOfMsgFor`. -/
theorem addSendersOf_spec {G : Regs} {r : Uuid} {d : DemandDg} {s : Patch}
    (hcells : CellsOk swap s.dg G) (hconf : AllConformable s.dg.ids d)
    (hnew : ∀ u e, G u r e → e.handler ≠ d.handler) :
    ∃ s', addSendersOf swap r s d = .ok s' ∧ Base s.dg s'.dg ∧
      CellsOk swap s'.dg (fun u r' e =>
        G u r' e ∨ (r' = r ∧ e = plain d ∧ Selected s.dg.ids d u)) ∧
      (∀ r' h, ¬ (r' = r ∧ h = d.handler) → s'.dg.nearestOf r' h = s.dg.nearestOf r' h) ∧
      (d.flags.nearest = true → s'.dg.nearestOf r d.handler = leastDepth s.dg.ids d) ∧
      Gains s s' := by
  obtain ⟨m, hm, hfind⟩ := sendersFor_spec hconf
  generalize hdg : (if d.flags.nearest then s.dg.setNearest r d.handler (firstDistance m)
    else s.dg) = dg₁
  have hrec : Recorded s.dg dg₁ := by
    rw [← hdg]
    split_ifs
    · exact recorded_setNearest _ _ _ _
    · exact Recorded.refl _
  obtain ⟨hframe, hcells', hgains⟩ := sendAll (waysTo r d m)
    (s := { s with dg := dg₁ }) (hrec.cellsOk hcells) (fun w hw e he => by
      obtain ⟨-, hr, hd, -⟩ := (waysTo_spec hfind w).1 hw
      rw [hr] at he
      rw [hd]
      exact hnew _ e he)
    ((waysFor_pairwise _ _ _).imp fun hne hf => absurd hf hne)
  refine ⟨_, ?_, hrec.base.trans hframe.base, hcells'.congr rfl (fun _ _ _ => rfl)
    fun u r' e _ => ?_, fun r' h hne => ?_, fun hn => ?_, hrec.gains.trans hgains⟩
  · unfold addSendersOf
    rw [hm]
    simp only [bind, Except.bind, hdg]
    rw [waysTo, waysFor, List.foldl_map]
    rfl
  · rw [Regs.addAll, exists_waysTo hfind]
  · rw [hframe.nearestOf]
    change dg₁.nearestOf r' h = _
    rw [← hdg]
    split_ifs
    · rw [nearestOf_setNearest, if_neg hne]
    · rfl
  · rw [hframe.nearestOf]
    change dg₁.nearestOf r d.handler = _
    rw [← hdg, if_pos hn, nearestOf_setNearest, if_pos ⟨rfl, rfl⟩]
    exact firstDistance_senders hn hfind

/-- `addSendersOfMsgFor` on demands with new and different handlers. -/
theorem addSendersOfMsgFor_spec {G : Regs} {r : Uuid} (ds : List DemandDg) {s : Patch}
    (hcells : CellsOk swap s.dg G) (hconf : ∀ d ∈ ds, AllConformable s.dg.ids d)
    (hnew : ∀ d ∈ ds, ∀ u e, G u r e → e.handler ≠ d.handler)
    (hnodup : (ds.map DemandDg.handler).Nodup) :
    ∃ s', addSendersOfMsgFor swap r ds s = .ok s' ∧ Base s.dg s'.dg ∧
      CellsOk swap s'.dg (fun u r' e =>
        G u r' e ∨ (r' = r ∧ ∃ d ∈ ds, e = plain d ∧ Selected s.dg.ids d u)) ∧
      (∀ r' h, (∀ d ∈ ds, ¬ (r' = r ∧ h = d.handler)) →
        s'.dg.nearestOf r' h = s.dg.nearestOf r' h) ∧
      (∀ d ∈ ds, d.flags.nearest = true →
        s'.dg.nearestOf r d.handler = leastDepth s.dg.ids d) ∧ Gains s s' := by
  induction ds generalizing s G with
  | nil =>
    refine ⟨s, rfl, (Frame.refl _).base, hcells.congr rfl (fun _ _ _ => rfl) fun u r' e _ => ?_,
      fun _ _ _ => rfl, by simp, Gains.refl _⟩
    simp
  | cons d ds ih =>
    obtain ⟨hd, hds⟩ := List.nodup_cons.1 hnodup
    have hne : ∀ e ∈ ds, d.handler ≠ e.handler := fun e he heq =>
      hd (heq ▸ List.mem_map_of_mem he)
    obtain ⟨s₁, hs₁, hbase₁, hcells₁, hother₁, hnear₁, hgains₁⟩ := addSendersOf_spec hcells
      (hconf d List.mem_cons_self) (hnew d List.mem_cons_self)
    obtain ⟨s', hs', hbase, hcells', hother, hnear, hgains⟩ := ih hcells₁
      (fun e he => by rw [hbase₁.ids]; exact hconf e (List.mem_cons_of_mem _ he))
      (fun e he u x hx => by
        rcases hx with hx | ⟨-, rfl, -⟩
        · exact hnew e (List.mem_cons_of_mem _ he) u x hx
        · exact hne e he) hds
    refine ⟨s', ?_, hbase₁.trans hbase, hcells'.congr rfl (fun _ _ _ => rfl) fun u r' e _ => ?_,
      fun r' h hnot => ?_, fun e he hn => ?_, hgains₁.trans hgains⟩
    · rw [addSendersOfMsgFor, List.foldlM_cons, hs₁]
      exact hs'
    · rw [hbase₁.ids, or_assoc, ← and_or_left]
      simp only [List.mem_cons, exists_eq_or_imp]
    · rw [hother r' h fun e he => hnot e (List.mem_cons_of_mem _ he),
        hother₁ r' h (hnot d List.mem_cons_self)]
    · rcases List.mem_cons.1 he with rfl | he
      · rw [hother _ _ fun x hx hh => hne x hx hh.2, hnear₁ hn]
      · rw [hnear e he hn, hbase₁.ids]

end UdtKernel.RequiredDG
