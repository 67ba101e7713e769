import UdtKernel.RequiredDG.Nearest
import UdtKernel.RequiredDG.Registered

set_option autoImplicit false

/-! The ways from identifiers to demands, and the recorded distances. -/

namespace UdtKernel.RequiredDG
open UdtKernel.Lib UdtKernel.Address

variable {swap : SwapHeader} {g : Genealogy}

def Regs.addAll (G : Regs) (ws : List WayInfo) : Regs := fun s r e =>
  G s r e ∨ ∃ w ∈ ws, s = w.from_ ∧ r = w.for_ ∧ e = plain w.what

def Regs.subAll (G : Regs) (ws : List WayInfo) : Regs := fun s r e =>
  G s r e ∧ ¬ ∃ w ∈ ws, s = w.from_ ∧ r = w.for_ ∧ e = plain w.what

/-- Removing the way once more finds nothing to do. -/
def Lone (swap : SwapHeader) (g : Genealogy) (G : Regs) (w : WayInfo) : Prop :=
  ∀ e, G w.from_ w.for_ e → e ≠ plain w.what → ∀ m ∈ msgsOf swap g e, m ∈ msgsOf swap g w.what →
    w.what.flags.registrator = true ∧ e.handler ≠ w.what.handler

def SameWay (w w' : WayInfo) : Prop :=
  w.from_ = w'.from_ ∧ w.for_ = w'.for_ ∧ plain w.what = plain w'.what

theorem plain_handler {d e : DemandDg} (h : plain d = plain e) : d.handler = e.handler := by
  have := congrArg DemandDg.handler h
  exact this

theorem plain_flags {d e : DemandDg} (h : plain d = plain e) : d.flags = e.flags := by
  have := congrArg DemandDg.flags h
  exact this

theorem plain_msgsOf {d e : DemandDg} (h : plain d = plain e) :
    msgsOf swap g d = msgsOf swap g e := by
  rw [← msgsOf_plain, h, msgsOf_plain]

/-- Every way of a list is removed, which reports what is lost. -/
theorem unSendAll {G : Regs} (ws : List WayInfo) {s : Patch} (h : CellsOk swap s.dg G)
    (hin : ∀ w ∈ ws, G w.from_ w.for_ (plain w.what) ∨
      Gone swap s.dg.msgsGenealogy G w.from_ w.for_ w.what)
    (hpair : ws.Pairwise fun w w' => SameWay w w' → Lone swap s.dg.msgsGenealogy G w) :
    ∃ s', ws.foldlM (fun s w => unSendPacketFromTo swap w.from_ w.for_ w.what s) s = .ok s' ∧
      Frame s.dg s'.dg ∧ CellsOk swap s'.dg (G.subAll ws) ∧ Loses s s' := by
  induction ws generalizing s G with
  | nil =>
    refine ⟨s, rfl, Frame.refl _, h.congr rfl (fun _ _ _ => rfl) fun u r e _ => ?_,
      Loses.refl _⟩
    simp [Regs.subAll]
  | cons w ws ih =>
    obtain ⟨hw, hws⟩ := List.pairwise_cons.1 hpair
    rcases Classical.em (G w.from_ w.for_ (plain w.what)) with hG | hG
    · obtain ⟨s₁, hs₁, hframe₁, hcells₁, hloses₁⟩ := unSendPacketFromTo_spec h hG
      have hgen := hframe₁.msgsGenealogy
      obtain ⟨s', hs', hframe, hcells, hloses⟩ := ih hcells₁ (fun w' hw' => by
        rw [hgen]
        by_cases hsame : SameWay w w'
        · -- the same way again: only other demands are left
          right
          obtain ⟨hf, ht, hp⟩ := hsame
          rintro e ⟨he, hne⟩ m hm hm'
          rw [← hf, ← ht] at he hne
          rw [← plain_msgsOf hp] at hm'
          rw [← plain_flags hp, ← plain_handler hp]
          exact hw w' hw' ⟨hf, ht, hp⟩ e he (fun heq => hne ⟨rfl, rfl, heq⟩) m hm hm'
        · rcases hin w' (List.mem_cons_of_mem _ hw') with hG' | hgone
          · exact .inl ⟨hG', fun heq => hsame ⟨heq.1.symm, heq.2.1.symm, heq.2.2.symm⟩⟩
          · exact .inr fun e he => hgone e he.1) (by
        rw [hgen]
        exact hws.imp fun hl hsame e he => hl hsame e he.1)
      refine ⟨s', ?_, hframe₁.trans hframe, hcells.congr rfl (fun _ _ _ => rfl) ?_,
        hloses₁.trans hloses⟩
      · rw [List.foldlM_cons, hs₁]
        exact hs'
      · intro u r e _
        simp only [Regs.subAll, Regs.sub, List.mem_cons, exists_eq_or_imp, not_or, and_assoc]
    · have hgone := (hin w List.mem_cons_self).resolve_left hG
      obtain ⟨s₁, hs₁, hframe₁, hcells₁, hloses₁⟩ := unSendPacketFromTo_gone h hgone
      have hgen := hframe₁.msgsGenealogy
      obtain ⟨s', hs', hframe, hcells, hloses⟩ := ih hcells₁
        (fun w' hw' => by rw [hgen]; exact hin w' (List.mem_cons_of_mem _ hw')) (by
          rw [hgen]
          exact hws)
      refine ⟨s', ?_, hframe₁.trans hframe, hcells.congr rfl (fun _ _ _ => rfl) ?_,
        hloses₁.trans hloses⟩
      · rw [List.foldlM_cons, hs₁]
        exact hs'
      · intro u r e _
        simp only [Regs.subAll, List.mem_cons, exists_eq_or_imp, not_or]
        constructor
        · rintro ⟨he, -, hnot⟩
          exact ⟨he, hnot⟩
        · rintro ⟨he, hnot⟩
          exact ⟨he, fun heq => hG (by rw [← heq.1, ← heq.2.1, ← heq.2.2]; exact he), hnot⟩

/-- Every way of a list is added, which reports what is gained. -/
theorem sendAll {G : Regs} (ws : List WayInfo) {s : Patch} (h : CellsOk swap s.dg G)
    (hnew : ∀ w ∈ ws, ∀ e, G w.from_ w.for_ e → e.handler ≠ w.what.handler)
    (hpair : ws.Pairwise fun w w' => w.from_ = w'.from_ → w.for_ = w'.for_ →
      w.what.handler ≠ w'.what.handler) :
    let s' := ws.foldl (fun s w => sendPacketFromTo swap w.from_ w.for_ w.what s) s
    Frame s.dg s'.dg ∧ CellsOk swap s'.dg (G.addAll ws) ∧ Gains s s' := by
  induction ws generalizing s G with
  | nil =>
    refine ⟨Frame.refl _, h.congr rfl (fun _ _ _ => rfl) fun u r e _ => ?_,
      Gains.refl _⟩
    simp [Regs.addAll]
  | cons w ws ih =>
    obtain ⟨hw, hws⟩ := List.pairwise_cons.1 hpair
    obtain ⟨hframe₁, hcells₁, hgains₁⟩ :=
      sendPacketFromTo_spec h (hnew w List.mem_cons_self)
    obtain ⟨hframe, hcells, hgains⟩ := ih hcells₁ (fun w' hw' e he => by
      rcases he with he | ⟨hf, ht, rfl⟩
      · exact hnew w' (List.mem_cons_of_mem _ hw') e he
      · exact hw w' hw' hf.symm ht.symm) hws
    refine ⟨hframe₁.trans hframe, hcells.congr rfl (fun _ _ _ => rfl) fun u r e _ => ?_,
      hgains₁.trans hgains⟩
    simp only [Regs.addAll, Regs.add, List.mem_cons, exists_eq_or_imp, or_assoc]

theorem setNearest_setNearest (dg : RequiredDG) (r : Uuid) (h n k : ℕ) :
    (dg.setNearest r h n).setNearest r h k = dg.setNearest r h k := by
  unfold setNearest
  rw [SortedMap.insert_insert]

/-- Two tables that differ in the recorded distances only. -/
structure Recorded (dg dg' : RequiredDG) : Prop where
  whatIsSendingBy : dg'.whatIsSendingBy = dg.whatIsSendingBy
  dgs : dg'.dgs = dg.dgs
  ids : dg'.ids = dg.ids
  msgsGenealogy : dg'.msgsGenealogy = dg.msgsGenealogy

theorem Recorded.refl (dg : RequiredDG) : Recorded dg dg := ⟨rfl, rfl, rfl, rfl⟩

theorem Recorded.trans {dg dg' dg'' : RequiredDG} (h : Recorded dg dg')
    (h' : Recorded dg' dg'') : Recorded dg dg'' :=
  ⟨h'.whatIsSendingBy.trans h.whatIsSendingBy, h'.dgs.trans h.dgs, h'.ids.trans h.ids,
    h'.msgsGenealogy.trans h.msgsGenealogy⟩

theorem Recorded.eq {dg dg' : RequiredDG} (h : Recorded dg dg') :
    dg' = { dg with nearestInfo := dg'.nearestInfo } := by
  obtain ⟨hsent, hdgs, hids, hgen⟩ := h
  obtain ⟨_, _, _, _, _⟩ := dg'
  cases hsent
  cases hdgs
  cases hids
  cases hgen
  rfl

theorem recorded_setNearest (dg : RequiredDG) (r : Uuid) (h n : ℕ) :
    Recorded dg (dg.setNearest r h n) := ⟨rfl, rfl, rfl, rfl⟩

theorem recorded_eraseNearest (dg : RequiredDG) (r : Uuid) (h : ℕ) :
    Recorded dg (dg.eraseNearest r h) := ⟨rfl, rfl, rfl, rfl⟩

theorem Recorded.cell {dg dg' : RequiredDG} (h : Recorded dg dg') (u : Uuid) (m : Msg)
    (r : Uuid) : dg'.cell u m r = dg.cell u m r := by
  unfold RequiredDG.cell expectedFor
  rw [h.whatIsSendingBy]

theorem Recorded.cellsOk {dg dg' : RequiredDG} {G : Regs} (h : Recorded dg dg')
    (hok : CellsOk swap dg G) : CellsOk swap dg' G :=
  hok.congr h.msgsGenealogy h.cell fun _ _ _ _ => Iff.rfl

def SameRecord (w w' : WayInfo) : Prop := w.for_ = w'.for_ ∧ w.what.handler = w'.what.handler

theorem mem_waysFor {w p : WayInfo} {us : SortedMap Uuid ℕ} {n : ℕ} :
    p ∈ waysFor w us n ↔
      (∃ k, us.find p.from_ = some k) ∧ p.for_ = w.for_ ∧ p.what = w.what ∧ p.distance = n := by
  simp only [waysFor, List.mem_map, SortedMap.mem_keys_iff]
  constructor
  · rintro ⟨u, hu, rfl⟩
    exact ⟨hu, rfl, rfl, rfl⟩
  · rintro ⟨hu, hf, hw, hd⟩
    refine ⟨p.from_, hu, ?_⟩
    rw [← hf, ← hw, ← hd]

theorem waysFor_pairwise (w : WayInfo) (us : SortedMap Uuid ℕ) (n : ℕ) :
    (waysFor w us n).Pairwise fun p q => p.from_ ≠ q.from_ :=
  List.pairwise_map.2 us.keys_nodup

/-- A way is added unless it is farther than the recorded distance. -/
def keeps (dg : RequiredDG) (w : WayInfo) : Bool :=
  !w.what.flags.nearest || decide (w.distance ≤ dg.nearestOf w.for_ w.what.handler)

/-- The ways that a nearer one takes the place of. -/
def evicted (dg : RequiredDG) (w : WayInfo) : List WayInfo :=
  if w.what.flags.nearest = true ∧ w.distance < dg.nearestOf w.for_ w.what.handler then
    match getUUIDFor dg.ids w.what.nameFrom w.what.flags.invertGroup with
    | .ok m => waysFor w (getOnlyNearestUUIDFor m) (dg.nearestOf w.for_ w.what.handler)
    | .error _ => []
  else []

theorem mem_evicted {dg : RequiredDG} {w p : WayInfo} (h : AllConformable dg.ids w.what) :
    p ∈ evicted dg w ↔ (w.what.flags.nearest = true ∧
        w.distance < dg.nearestOf w.for_ w.what.handler) ∧ Selected dg.ids w.what p.from_ ∧
      p.for_ = w.for_ ∧ p.what = w.what ∧ p.distance = dg.nearestOf w.for_ w.what.handler := by
  obtain ⟨m, hm, hfind⟩ := getUUIDFor_spec h
  unfold evicted
  rw [hm]
  split_ifs with hcond
  · simp only [mem_waysFor, hcond, and_self, true_and, find_getOnlyNearest, hfind, Selected,
      true_implies]
    refine and_congr_left fun _ => ⟨?_, ?_⟩
    · rintro ⟨k, ⟨hz, rfl⟩, hall⟩
      exact ⟨hz, fun v hv => hall v _ ⟨hv, rfl⟩⟩
    · rintro ⟨hz, hall⟩
      exact ⟨_, ⟨hz, rfl⟩, by rintro v k ⟨hv, rfl⟩; exact hall v hv⟩
  · simp [hcond]

theorem evicted_pairwise (dg : RequiredDG) (w : WayInfo) :
    (evicted dg w).Pairwise fun p q => p.from_ ≠ q.from_ := by
  unfold evicted
  split_ifs
  · split
    · exact waysFor_pairwise _ _ _
    · exact List.Pairwise.nil
  · exact List.Pairwise.nil

/-- The record after a way has been taken into account. -/
def record (dg : RequiredDG) (w : WayInfo) : RequiredDG :=
  if w.what.flags.nearest then
    dg.setNearest w.for_ w.what.handler (min (dg.nearestOf w.for_ w.what.handler) w.distance)
  else dg

theorem recorded_record (dg : RequiredDG) (w : WayInfo) : Recorded dg (record dg w) := by
  unfold record
  split_ifs
  · exact recorded_setNearest _ _ _ _
  · exact Recorded.refl dg

theorem nearestOf_record (dg : RequiredDG) (w : WayInfo) (r : Uuid) (h : ℕ) :
    (record dg w).nearestOf r h =
      if w.what.flags.nearest = true ∧ r = w.for_ ∧ h = w.what.handler then
        min (dg.nearestOf r h) w.distance
      else dg.nearestOf r h := by
  unfold record
  cases w.what.flags.nearest with
  | false => simp
  | true =>
    simp only [if_true, true_and, nearestOf_setNearest]
    split_ifs with hrh
    · rw [hrh.1, hrh.2]
    · rfl

/-- One turn of `removeSenderIfNeed`. -/
theorem removeSenderIfNeed_cons {w : WayInfo} {ws : List WayInfo} {dg dg' : RequiredDG}
    {added removed : List WayInfo} (hconf : AllConformable dg.ids w.what)
    (h : removeSenderIfNeed ws (record dg w) = .ok (added, removed, dg')) :
    removeSenderIfNeed (w :: ws) dg =
      .ok (if keeps dg w then w :: added else added, evicted dg w ++ removed, dg') := by
  obtain ⟨m, hm, -⟩ := getUUIDFor_spec hconf
  unfold removeSenderIfNeed
  cases hn : w.what.flags.nearest with
  | false =>
    have hrec : record dg w = dg := by simp [record, hn]
    rw [hrec] at h
    simp only [Bool.false_eq_true, if_false, h, keeps, evicted, hn, Bool.not_false, Bool.true_or,
      if_true, false_and, List.nil_append]
    rfl
  | true =>
    simp only [record, hn, if_true] at h
    simp only [if_true, keeps, evicted, hn, Bool.not_true, Bool.false_or, decide_eq_true_eq,
      true_and, hm]
    rcases lt_trichotomy (dg.nearestOf w.for_ w.what.handler) w.distance with hlt | heq | hgt
    · rw [min_eq_left hlt.le] at h
      rw [if_pos hlt, if_neg (not_le.2 hlt), if_neg hlt.le.not_gt, h]
      rfl
    · rw [min_eq_left heq.le] at h
      rw [if_neg heq.not_lt, if_neg heq.not_gt, if_pos heq.ge, if_neg heq.not_gt, h]
      rfl
    · rw [min_eq_right hgt.le] at h
      rw [if_neg hgt.le.not_gt, if_pos hgt, if_pos hgt.le, if_pos hgt, h]
      rfl

/-- `removeSenderIfNeed` on ways that are all about different records. -/
theorem removeSenderIfNeed_spec {ws : List WayInfo} {dg : RequiredDG}
    (hconf : ∀ w ∈ ws, AllConformable dg.ids w.what)
    (hpair : ws.Pairwise fun w w' => ¬ SameRecord w w') :
    ∃ dg', removeSenderIfNeed ws dg =
        .ok (ws.filter (keeps dg), ws.flatMap (evicted dg), dg') ∧ Recorded dg dg' ∧
      (∀ r h, (∀ w ∈ ws, w.what.flags.nearest = true → ¬ (r = w.for_ ∧ h = w.what.handler)) →
        dg'.nearestOf r h = dg.nearestOf r h) ∧
      ∀ w ∈ ws, w.what.flags.nearest = true →
        dg'.nearestOf w.for_ w.what.handler =
          min (dg.nearestOf w.for_ w.what.handler) w.distance := by
  induction ws generalizing dg with
  | nil => exact ⟨dg, rfl, Recorded.refl dg, fun _ _ _ => rfl, by simp⟩
  | cons w ws ih =>
    obtain ⟨hw, hws⟩ := List.pairwise_cons.1 hpair
    have hrec := recorded_record dg w
    obtain ⟨dg', hdg', hrec', hother, hmin⟩ := @ih (record dg w)
      (fun x hx => by rw [hrec.ids]; exact hconf x (List.mem_cons_of_mem _ hx)) hws
    -- the records of the other ways are as before
    have hsame : ∀ x ∈ ws, (record dg w).nearestOf x.for_ x.what.handler =
        dg.nearestOf x.for_ x.what.handler := fun x hx => by
      rw [nearestOf_record, if_neg fun hh => hw x hx ⟨hh.2.1.symm, hh.2.2.symm⟩]
    have hkeeps : ws.filter (keeps (record dg w)) = ws.filter (keeps dg) :=
      List.filter_congr fun x hx => by rw [keeps, hsame x hx, keeps]
    have hevicted : ws.flatMap (evicted (record dg w)) = ws.flatMap (evicted dg) :=
      List.flatMap_congr fun x hx => by rw [evicted, hsame x hx, hrec.ids, evicted]
    rw [hkeeps, hevicted] at hdg'
    refine ⟨dg', ?_, hrec.trans hrec', fun r h hnot => ?_, fun x hx hn => ?_⟩
    · rw [removeSenderIfNeed_cons (hconf w List.mem_cons_self) hdg', List.filter_cons,
        List.flatMap_cons]
    · rw [hother r h fun x hx => hnot x (List.mem_cons_of_mem _ hx), nearestOf_record,
        if_neg fun hh => hnot w List.mem_cons_self hh.1 hh.2]
    · rcases List.mem_cons.1 hx with rfl | hx
      · rw [hother _ _ fun y hy _ hh => hw y hy hh, nearestOf_record, if_pos ⟨hn, rfl, rfl⟩]
      · rw [hmin x hx hn, hsame x hx]

theorem depthOf_erase (aIds : SortedMap Uuid Text) (d : DemandDg) (u v : Uuid) :
    depthOf (aIds.erase u) d v = if v = u then 0 else depthOf aIds d v := by
  unfold depthOf
  rw [SortedMap.find_erase]
  by_cases hv : v = u
  · rw [if_pos hv, if_pos hv]
  · rw [if_neg hv, if_neg hv]

/-- The ways that take the place of one that is removed, when `aFrom` no more conforms. -/
def promoted (aIds : SortedMap Uuid Text) (aFrom : Uuid) (w : WayInfo) : List WayInfo :=
  if w.what.flags.nearest then
    match getUUIDFor aIds w.what.nameFrom w.what.flags.invertGroup with
    | .ok m =>
      let others := getOnlyNearestUUIDFor (m.erase aFrom)
      if others.entries = [] ∨ firstDistance others = w.distance then []
      else waysFor w others (firstDistance others)
    | .error _ => []
  else []

/-- The nearest of the others. -/
theorem find_others {aIds : SortedMap Uuid Text} {d : DemandDg} {m : SortedMap Uuid ℕ}
    (hn : d.flags.nearest = true) (aFrom : Uuid)
    (hfind : ∀ u n, m.find u = some n ↔ depthOf aIds d u ≠ 0 ∧ n = depthOf aIds d u)
    (u : Uuid) (n : ℕ) : (getOnlyNearestUUIDFor (m.erase aFrom)).find u = some n ↔
      Selected (aIds.erase aFrom) d u ∧ n = depthOf (aIds.erase aFrom) d u := by
  have herase : ∀ v k, (m.erase aFrom).find v = some k ↔
      depthOf (aIds.erase aFrom) d v ≠ 0 ∧ k = depthOf (aIds.erase aFrom) d v := fun v k => by
    rw [SortedMap.find_erase, depthOf_erase]
    split_ifs
    · simp
    · exact hfind v k
  simp only [find_getOnlyNearest, herase, Selected, hn, true_implies]
  constructor
  · rintro ⟨⟨hz, rfl⟩, hall⟩
    exact ⟨⟨hz, fun v hv => hall v _ ⟨hv, rfl⟩⟩, rfl⟩
  · rintro ⟨⟨hz, hall⟩, rfl⟩
    exact ⟨⟨hz, rfl⟩, by rintro v k ⟨hv, rfl⟩; exact hall v hv⟩

theorem mem_promoted {aIds : SortedMap Uuid Text} {aFrom : Uuid} {w p : WayInfo}
    (h : AllConformable aIds w.what) : p ∈ promoted aIds aFrom w ↔
      w.what.flags.nearest = true ∧ p.distance ≠ w.distance ∧
        Selected (aIds.erase aFrom) w.what p.from_ ∧ p.for_ = w.for_ ∧ p.what = w.what ∧
        p.distance = depthOf (aIds.erase aFrom) w.what p.from_ := by
  obtain ⟨m, hm, hfind⟩ := getUUIDFor_spec h
  unfold promoted
  rw [hm]
  cases hn : w.what.flags.nearest with
  | false => simp
  | true =>
    have hothers := find_others hn aFrom hfind
    have hfirst : ∀ v, Selected (aIds.erase aFrom) w.what v →
        firstDistance (getOnlyNearestUUIDFor (m.erase aFrom)) =
          depthOf (aIds.erase aFrom) w.what v := fun v hv =>
      firstDistance_eq ((hothers v _).2 ⟨hv, rfl⟩) fun _ _ hk =>
        getOnlyNearest_eq ((hothers v _).2 ⟨hv, rfl⟩) hk
    simp only [if_true, true_and]
    split_ifs with hnone
    · simp only [List.not_mem_nil, false_iff]
      rintro ⟨hdist, hsel, -, -, hd⟩
      rcases hnone with hnil | heq
      · have hmem := (SortedMap.mem_entries_iff _ _ _).2 ((hothers p.from_ _).2 ⟨hsel, rfl⟩)
        rw [hnil] at hmem
        cases hmem
      · exact hdist (hd.trans ((hfirst _ hsel).symm.trans heq))
    · rw [mem_waysFor]
      constructor
      · rintro ⟨⟨k, hk⟩, hf, hw, hd⟩
        have hsel := ((hothers _ _).1 hk).1
        exact ⟨fun heq => hnone (.inr (hd.symm.trans heq)), hsel, hf, hw,
          hd.trans (hfirst _ hsel)⟩
      · rintro ⟨-, hsel, hf, hw, hd⟩
        exact ⟨⟨_, (hothers _ _).2 ⟨hsel, rfl⟩⟩, hf, hw, hd.trans (hfirst _ hsel).symm⟩

theorem promoted_pairwise (aIds : SortedMap Uuid Text) (aFrom : Uuid) (w : WayInfo) :
    (promoted aIds aFrom w).Pairwise fun p q => p.from_ ≠ q.from_ := by
  unfold promoted
  split_ifs
  · split
    · dsimp only
      split_ifs
      · exact List.Pairwise.nil
      · exact waysFor_pairwise _ _ _
    · exact List.Pairwise.nil
  · exact List.Pairwise.nil

theorem promoted_distance {aIds : SortedMap Uuid Text} {aFrom : Uuid} {w p q : WayInfo}
    (hp : p ∈ promoted aIds aFrom w) (hq : q ∈ promoted aIds aFrom w) :
    p.distance = q.distance := by
  unfold promoted at hp hq
  split_ifs at hp hq
  · cases hm : getUUIDFor aIds w.what.nameFrom w.what.flags.invertGroup with
    | error e => rw [hm] at hp; cases hp
    | ok m =>
      rw [hm] at hp hq
      dsimp only at hp hq
      split_ifs at hp hq
      · cases hp
      · rw [(mem_waysFor.1 hp).2.2.2, (mem_waysFor.1 hq).2.2.2]
  · cases hp

/-- The record after the ways that take the place of one. -/
def promote (aIds : SortedMap Uuid Text) (aFrom : Uuid) (w : WayInfo) (dg : RequiredDG) :
    RequiredDG :=
  if w.what.flags.nearest then
    dg.setNearest w.for_ w.what.handler (match promoted aIds aFrom w with
      | [] => w.distance
      | p :: _ => p.distance)
  else dg

theorem recorded_promote (aIds : SortedMap Uuid Text) (aFrom : Uuid) (w : WayInfo)
    (dg : RequiredDG) : Recorded dg (promote aIds aFrom w dg) := by
  unfold promote
  split_ifs
  · exact recorded_setNearest _ _ _ _
  · exact Recorded.refl dg

theorem nearestOf_promote (aIds : SortedMap Uuid Text) (aFrom : Uuid) {w : WayInfo}
    {dg : RequiredDG} (hdist : w.what.flags.nearest = true →
      dg.nearestOf w.for_ w.what.handler = w.distance) (r : Uuid) (h : ℕ) :
    ((promoted aIds aFrom w ≠ [] → ¬ (r = w.for_ ∧ h = w.what.handler)) →
      (promote aIds aFrom w dg).nearestOf r h = dg.nearestOf r h) ∧
    ∀ p ∈ promoted aIds aFrom w,
      (promote aIds aFrom w dg).nearestOf w.for_ w.what.handler = p.distance := by
  cases hn : w.what.flags.nearest with
  | false => simp [promote, promoted, hn]
  | true =>
    simp only [promote, hn, if_true, nearestOf_setNearest, and_self]
    cases hps : promoted aIds aFrom w with
    | nil =>
      refine ⟨fun _ => ?_, by simp⟩
      split_ifs with hrh
      · rw [hrh.1, hrh.2, hdist hn]
      · rfl
    | cons p ps =>
      refine ⟨fun hnot => if_neg (hnot (List.cons_ne_nil _ _)), fun q hq => ?_⟩
      exact promoted_distance (w := w) (by rw [hps]; exact List.mem_cons_self) (hps ▸ hq)

/-- One turn of `addSenderIfNeed`, for a way at the recorded distance. -/
theorem addSenderIfNeed_cons {w : WayInfo} {ws : List WayInfo} {dg dg' : RequiredDG}
    {u : Uuid} {added : List WayInfo} (hconf : AllConformable dg.ids w.what)
    (hdist : w.what.flags.nearest = true → dg.nearestOf w.for_ w.what.handler = w.distance)
    (h : addSenderIfNeed u ws (promote dg.ids u w dg) = .ok (added, dg')) :
    addSenderIfNeed u (w :: ws) dg = .ok (promoted dg.ids u w ++ added, dg') := by
  obtain ⟨m, hm, -⟩ := getUUIDFor_spec hconf
  unfold addSenderIfNeed
  cases hn : w.what.flags.nearest with
  | false =>
    simp only [promote, hn, Bool.false_eq_true, if_false] at h
    simp only [Bool.false_eq_true, if_false, h, promoted, hn, List.nil_append]
  | true =>
    have hids : (dg.setNearest w.for_ w.what.handler w.distance).ids = dg.ids := rfl
    simp only [if_true, hdist hn, lt_irrefl, if_false, hids, hm]
    simp only [promote, promoted, hn, if_true, hm] at h
    simp only [promoted, hn, if_true, hm, bind, Except.bind]
    split_ifs at h ⊢ with hnone
    · exact h
    · cases hw : waysFor w (getOnlyNearestUUIDFor (m.erase u))
          (firstDistance (getOnlyNearestUUIDFor (m.erase u))) with
      | nil =>
        have hnil : (getOnlyNearestUUIDFor (m.erase u)).entries = [] := by
          simpa [waysFor, SortedMap.keys] using hw
        exact absurd (.inl hnil) hnone
      | cons p ps =>
        have hp : p.distance = firstDistance (getOnlyNearestUUIDFor (m.erase u)) :=
          (mem_waysFor.1 (hw ▸ List.mem_cons_self)).2.2.2
        rw [hw] at h
        change addSenderIfNeed u ws (dg.setNearest _ _ p.distance) = _ at h
        rw [hp] at h
        rw [setNearest_setNearest, h]
        rfl

/-- `addSenderIfNeed` on ways at the recorded distances, when what is promoted for a record is
    promoted for one way only. -/
theorem addSenderIfNeed_spec {u : Uuid} {ws : List WayInfo} {dg : RequiredDG}
    (hconf : ∀ w ∈ ws, AllConformable dg.ids w.what)
    (hdist : ∀ w ∈ ws, w.what.flags.nearest = true →
      dg.nearestOf w.for_ w.what.handler = w.distance)
    (hpair : ws.Pairwise fun w w' => SameRecord w w' → promoted dg.ids u w = []) :
    ∃ dg', addSenderIfNeed u ws dg = .ok (ws.flatMap (promoted dg.ids u), dg') ∧
      Recorded dg dg' ∧
      (∀ r h, (∀ w ∈ ws, promoted dg.ids u w ≠ [] → ¬ (r = w.for_ ∧ h = w.what.handler)) →
        dg'.nearestOf r h = dg.nearestOf r h) ∧
      ∀ w ∈ ws, ∀ p ∈ promoted dg.ids u w,
        dg'.nearestOf w.for_ w.what.handler = p.distance := by
  induction ws generalizing dg with
  | nil => exact ⟨dg, rfl, Recorded.refl dg, fun _ _ _ => rfl, by simp⟩
  | cons w ws ih =>
    obtain ⟨hw, hws⟩ := List.pairwise_cons.1 hpair
    have hrec := recorded_promote dg.ids u w dg
    have hstep := nearestOf_promote dg.ids u (hdist w List.mem_cons_self)
    obtain ⟨dg', hdg', hrec', hother, hprom⟩ := @ih (promote dg.ids u w dg)
      (fun x hx => by rw [hrec.ids]; exact hconf x (List.mem_cons_of_mem _ hx))
      (fun x hx hn => by
        rw [(hstep _ _).1 fun hne hh => hne (hw x hx ⟨hh.1.symm, hh.2.symm⟩)]
        exact hdist x (List.mem_cons_of_mem _ hx) hn)
      (by rw [hrec.ids]; exact hws)
    rw [hrec.ids] at hdg' hother hprom
    refine ⟨dg', addSenderIfNeed_cons (hconf w List.mem_cons_self)
      (hdist w List.mem_cons_self) hdg', hrec.trans hrec', fun r h hnot => ?_,
      fun x hx p hp => ?_⟩
    · rw [hother r h fun x hx => hnot x (List.mem_cons_of_mem _ hx),
        (hstep r h).1 (hnot w List.mem_cons_self)]
    · rcases List.mem_cons.1 hx with rfl | hx
      · -- no later way is about the same record
        rw [hother _ _ fun y hy _ hh => List.ne_nil_of_mem hp (hw y hy hh), (hstep 0 0).2 p hp]
      · exact hprom x hx p hp

end UdtKernel.RequiredDG
