import UdtKernel.RequiredDG.Pushed

set_option autoImplicit false

/-! Which pairs of a receiver and a message an identifier is to send for. -/

namespace UdtKernel.RequiredDG
open UdtKernel.Lib

variable {swap : SwapHeader}

/-- A message has a real handler when it is sent for a demand that is not a registrator's. -/
theorem CellsOk.mem_real {dg : RequiredDG} {G : Regs} (h : CellsOk swap dg G) (t : Triple) :
    t ∈ real dg ↔ ∃ d, G t.sender t.receiver d ∧ d.flags.registrator = false ∧
      t.msg ∈ msgsOf swap dg.msgsGenealogy d := by
  obtain ⟨ds, -, hmem, hok⟩ := h t.sender t.msg t.receiver
  have hreal : t ∈ real dg ↔ ∃ d ∈ ds, d.flags.registrator = false := by
    unfold real
    rw [Set.mem_ofPred_eq]
    cases hc : dg.cell t.sender t.msg t.receiver with
    | none =>
      rw [hc] at hok
      change ds = [] at hok
      simp [hok]
    | some c =>
      rw [hc] at hok
      simp only [Option.some.injEq, exists_eq_left', hok.2.2, List.countP_pos_iff,
        Bool.not_eq_true']
  rw [hreal]
  constructor
  · rintro ⟨d, hd, hreg⟩
    obtain ⟨hG, hm⟩ := (hmem d).1 hd
    exact ⟨d, hG, hreg, hm⟩
  · rintro ⟨d, hG, hreg, hm⟩
    exact ⟨d, (hmem d).2 ⟨hG, hm⟩, hreg⟩

def msgsFor (swap : SwapHeader) (g : Genealogy) (aIds : SortedMap Uuid Text) (ds : List DemandDg)
    (u : Uuid) : List Msg :=
  (ds.filter fun d => !d.flags.registrator && decide (Selected aIds d u)).flatMap (msgsOf swap g)

theorem mem_msgsFor {g : Genealogy} {aIds : SortedMap Uuid Text} {ds : List DemandDg} {u : Uuid}
    {m : Msg} : m ∈ msgsFor swap g aIds ds u ↔ ∃ d ∈ ds, d.flags.registrator = false ∧
      Selected aIds d u ∧ m ∈ msgsOf swap g d := by
  unfold msgsFor
  simp only [List.mem_flatMap, List.mem_filter, Bool.and_eq_true, Bool.not_eq_true',
    decide_eq_true_eq, and_assoc]

def pairsOf (swap : SwapHeader) (g : Genealogy) (aIds : SortedMap Uuid Text) (dgs : DemandDgsFor)
    (u : Uuid) : List (Uuid × Msg) :=
  dgs.entries.flatMap fun e => (msgsFor swap g aIds e.2 u).map fun m => (e.1, m)

theorem mem_pairsOf {g : Genealogy} {aIds : SortedMap Uuid Text} {dgs : DemandDgsFor}
    {u r : Uuid} {m : Msg} : (r, m) ∈ pairsOf swap g aIds dgs u ↔
      m ∈ msgsFor swap g aIds ((dgs.find r).getD []) u := by
  unfold pairsOf
  simp only [List.mem_flatMap, List.mem_map, Prod.mk.injEq]
  constructor
  · rintro ⟨⟨r', ds⟩, he, m', hm, rfl, rfl⟩
    rw [(SortedMap.mem_entries_iff ..).1 he]
    exact hm
  · intro hm
    cases hds : dgs.find r with
    | none =>
      rw [hds, mem_msgsFor] at hm
      obtain ⟨d, hd, -⟩ := hm
      cases hd
    | some ds =>
      rw [hds] at hm
      exact ⟨(r, ds), (SortedMap.mem_entries_iff ..).2 hds, m, hm, rfl, rfl⟩

/-- In a table that is kept the real handlers are those of the demands. -/
theorem Kept.mem_real {dg : RequiredDG} (hk : Kept swap dg) {u r : Uuid} {m : Msg} :
    (⟨u, r, m⟩ : Triple) ∈ real dg ↔
      m ∈ msgsFor swap dg.msgsGenealogy dg.ids (dg.getDemandFor r) u := by
  rw [hk.cells.mem_real, mem_msgsFor]
  constructor
  · rintro ⟨e, ⟨d, hd, rfl, hsel⟩, hreg, hm⟩
    exact ⟨d, hd, hreg, hsel, by rwa [msgsOf_plain] at hm⟩
  · rintro ⟨d, hd, hreg, hsel, hm⟩
    exact ⟨plain d, ⟨d, hd, rfl, hsel⟩, hreg, by rwa [msgsOf_plain]⟩

theorem Kept.mem_real_iff_mem_pairsOf {dg : RequiredDG} (hk : Kept swap dg) {u r : Uuid} {m : Msg} :
    (⟨u, r, m⟩ : Triple) ∈ real dg ↔
      (r, m) ∈ pairsOf swap dg.msgsGenealogy dg.ids dg.dgs u :=
  hk.mem_real.trans mem_pairsOf.symm

theorem mem_triples_iff {m : DemandDgsFor} {t : Triple} : t ∈ triples m ↔
    ∃ d, Pushed m t.sender d ∧ d.uuidFrom = some t.receiver ∧ d.msg = t.msg := by
  unfold triples Pushed
  rw [Set.mem_ofPred_eq]
  constructor
  · rintro ⟨ds, hds, d, hd, h⟩
    exact ⟨d, ⟨ds, hds, hd⟩, h⟩
  · rintro ⟨d, ⟨ds, hds, hd⟩, h⟩
    exact ⟨ds, hds, d, hd, h⟩

/-- What is reported is the change that is made. -/
theorem Reports.real_eq {dg : RequiredDG} {s' : Patch} (h : Reports dg s') :
    real s'.dg = real dg \ triples s'.removed ∪ triples s'.new := by
  obtain ⟨s, ⟨-, hnew, x, -, hold, hreal⟩, -, hremoved, y, -, hadded, hreal'⟩ := h
  rw [hreal', hreal, hremoved, hold, hadded, hnew, triples_empty, Set.empty_union, Set.empty_union]

theorem Reports.removed_subset {dg : RequiredDG} {s' : Patch} (h : Reports dg s') :
    triples s'.removed ⊆ real dg := by
  obtain ⟨s, ⟨-, hnew, x, hx, hold, hreal⟩, -, hremoved, -⟩ := h
  rw [hremoved, hold, triples_empty, Set.empty_union]
  exact hx

def leaves (dg : RequiredDG) (aUuid : Uuid) : Bool :=
  (dg.ids.find aUuid).any fun name => isValidId ⟨aUuid, name⟩

def idsAfter (dg : RequiredDG) : Op → SortedMap Uuid Text
  | .addClient aId => dg.ids.insert aId.uuid aId.name
  | .removeClient aUuid => if dg.leaves aUuid then dg.ids.erase aUuid else dg.ids
  | .setDemandsDGFor _ _ => dg.ids

def dgsAfter (dg : RequiredDG) : Op → DemandDgsFor
  | .addClient _ => dg.dgs
  | .removeClient aUuid => if dg.leaves aUuid then dg.dgs.erase aUuid else dg.dgs
  | .setDemandsDGFor aFor aReqDgs =>
    if aReqDgs = [] then dg.dgs.erase aFor else dg.dgs.insert aFor aReqDgs

theorem find_dgsAfter_set (dg : RequiredDG) (r r' : Uuid) (ds : List DemandDg) :
    ((dg.dgsAfter (.setDemandsDGFor r ds)).find r').getD [] =
      if r' = r then ds else dg.getDemandFor r' := by
  rw [dgsAfter]
  by_cases hnil : ds = []
  · rw [if_pos hnil, SortedMap.find_erase, hnil]
    split_ifs <;> rfl
  · rw [if_neg hnil, SortedMap.find_insert]
    split_ifs <;> rfl

/-- What an operation makes of the identifiers and the demands. -/
structure After (dg : RequiredDG) (op : Op) (dg' : RequiredDG) : Prop where
  ids : dg'.ids = dg.idsAfter op
  demands : ∀ r, dg'.getDemandFor r = ((dg.dgsAfter op).find r).getD []
  msgsGenealogy : dg'.msgsGenealogy = dg.msgsGenealogy

theorem removeClient_after {dg : RequiredDG} (hk : Kept swap dg) {u : Uuid}
    (hsafe : Safe swap dg (.removeClient u)) {s : Patch} (hs : removeClient swap u dg = .ok s) :
    After dg (.removeClient u) s.dg := by
  unfold removeClient at hs
  simp only at hs
  cases hfind : dg.ids.find u with
  | none =>
    rw [hfind] at hs
    cases hs
    have hleaves : dg.leaves u = false := by simp [leaves, hfind]
    exact ⟨by simp [idsAfter, hleaves], fun r => by simp [dgsAfter, hleaves, getDemandFor], rfl⟩
  | some name =>
    rw [hfind] at hs
    simp only at hs
    split_ifs at hs with hvalid
    · have hleaves : dg.leaves u = true := by simp [leaves, hfind, hvalid]
      obtain ⟨s₁, hs₁, hk₁, hids₁, hgen₁, hdemand₁, -⟩ :=
        removeAllSendersOfMsgsFor_spec (s := ⟨dg, .empty, .empty⟩) hk u
      obtain ⟨-, s₃, hs₃, hids, hdgs, hgen, -⟩ := removeAllReceiversForMsgsFrom_spec hk₁ ⟨u, name⟩
        (by rw [hids₁]; exact hfind) fun r d hd hsel hlen => by
          rw [hdemand₁] at hd
          split_ifs at hd with hr
          · cases hd
          · rw [hids₁] at hsel
            rw [hgen₁] at hlen
            exact (hsafe (r, d) (mem_demandsOf.2 hd) hr hsel hlen).congr hids₁ hgen₁
              ((hdemand₁ r).trans (if_neg hr))
      simp only [hs₁, hs₃, bind, Except.bind, pure, Except.pure, Except.ok.injEq] at hs
      subst hs
      refine ⟨?_, fun r => ?_, hgen.trans hgen₁⟩
      · change s₃.dg.ids.erase u = _
        rw [hids, hids₁, idsAfter, if_pos hleaves]
      · have hsame : s₃.dg.getDemandFor r = s₁.dg.getDemandFor r := by
          unfold getDemandFor
          rw [hdgs]
        change s₃.dg.getDemandFor r = _
        rw [hsame, hdemand₁, dgsAfter, if_pos hleaves, SortedMap.find_erase]
        split_ifs <;> rfl
    · cases hs
      have hleaves : dg.leaves u = false := by simpa [leaves, hfind] using hvalid
      exact ⟨by simp [idsAfter, hleaves], fun r => by simp [dgsAfter, hleaves, getDemandFor], rfl⟩

/-- What an operation that does not go wrong keeps, changes and reports. -/
theorem apply_after {dg : RequiredDG} (hk : Kept swap dg) {op : Op} (h : StepOk swap dg op) :
    ∃ s, apply swap op dg = .ok s ∧ Kept swap s.dg ∧ After dg op s.dg ∧ Reports dg s := by
  obtain ⟨s, hs, hks, hgen, hrep⟩ := apply_spec hk h.1 h.2
  refine ⟨s, hs, hks, ?_, hrep⟩
  obtain ⟨hgranted, hsafe⟩ := h
  cases op with
  | addClient aId =>
    obtain ⟨s', hs', -, hids, hdgs, -⟩ := addClient_spec hk hgranted
      (fun r d hd => (hsafe (r, d) (mem_demandsOf.2 hd)).1)
      (fun r d hd hn hlive hz hnone =>
        (hsafe (r, d) (mem_demandsOf.2 hd)).2 hn hlive hz (depthOf_all_zero hnone))
    obtain rfl : s' = s := Except.ok.inj (hs'.symm.trans hs)
    exact ⟨hids, fun r => by rw [getDemandFor, hdgs]; rfl, hgen⟩
  | removeClient aUuid => exact removeClient_after hk hsafe hs
  | setDemandsDGFor aFor aReqDgs =>
    obtain ⟨s', hs', -, hids, -, hdemand, -⟩ := setDemandsDGFor_spec hk hgranted
      (fun d hd => (hsafe d hd).1) (fun d hd => (hsafe d hd).2)
    obtain rfl : s' = s := Except.ok.inj (hs'.symm.trans hs)
    refine ⟨hids, fun r => ?_, hgen⟩
    rw [hdemand, find_dgsAfter_set]

/-- The client that comes or leaves is not told of what it was told before. -/
theorem addClient_separate {dg : RequiredDG} (hk : Kept swap dg) {aId : Id}
    (h : StepOk swap dg (.addClient aId)) {s : Patch} (hs : addClient swap aId dg = .ok s) :
    Disjoint (triples s.new) (triples s.removed) := by
  obtain ⟨s', hs', -, -, hrep⟩ := apply_after hk h
  obtain rfl : s' = s := Except.ok.inj (hs'.symm.trans hs)
  have hgrows := @addClient_grows swap aId dg
  rw [hs] at hgrows
  refine Set.disjoint_left.2 fun t hnew hremoved => ?_
  obtain ⟨d, hd, -⟩ := mem_triples_iff.1 hnew
  obtain ⟨hu, -⟩ := (hgrows.new hd).resolve_left (not_pushed_empty _ _)
  obtain ⟨d', -, -, hsel, -⟩ := mem_msgsFor.1 (hk.mem_real.1 (hrep.removed_subset hremoved))
  refine hsel.1 ?_
  rw [depthOf, hu, show dg.ids.find aId.uuid = none from h.1]

theorem removeClient_separate {dg : RequiredDG} (hk : Kept swap dg) {u : Uuid} {s : Patch}
    (hs : removeClient swap u dg = .ok s) : Disjoint (triples s.new) (triples s.removed) := by
  have hgrows := removeClient_grows hk u
  rw [hs] at hgrows
  refine Set.disjoint_left.2 fun t hnew hremoved => ?_
  obtain ⟨d, hd, hr, -⟩ := mem_triples_iff.1 hnew
  obtain ⟨d', hd', hr', -⟩ := mem_triples_iff.1 hremoved
  obtain ⟨hu, r, hne, e, -, he⟩ := (hgrows.new hd).resolve_left (not_pushed_empty _ _)
  rcases (hgrows.removed hd').resolve_left (not_pushed_empty _ _) with hu' | hr''
  · exact hu hu'
  · rw [he.1] at hr
    rw [hr', ← hr] at hr''
    exact hne (Option.some.inj hr'')

/-- The demands that a new list leaves as they are. -/
def keptDemands (old new : List DemandDg) : List DemandDg :=
  old.filter fun o => new.any fun d => o.isEqual d

/-- What is sent for a demand that stays is not reported as removed. -/
theorem setDemandsDGFor_kept {dg : RequiredDG} (hk : Kept swap dg) {r : Uuid}
    {ds : List DemandDg} (h : StepOk swap dg (.setDemandsDGFor r ds)) {s : Patch}
    (hs : setDemandsDGFor swap r ds dg = .ok s) {u : Uuid} {m : Msg}
    (hm : m ∈ msgsFor swap dg.msgsGenealogy dg.ids (keptDemands (dg.getDemandFor r) ds) u) :
    (⟨u, r, m⟩ : Triple) ∉ triples s.removed := by
  obtain ⟨o, ho, hreg, hsel, hm⟩ := mem_msgsFor.1 hm
  obtain ⟨hold, hany⟩ := List.mem_filter.1 ho
  have hnil : ds ≠ [] := by
    rintro rfl
    cases hany
  set R := (dg.getDemandFor r).filter fun o => !ds.any fun d => o.isEqual d with hR
  have hmemR : ∀ x, x ∈ R → x ∈ dg.getDemandFor r := fun x hx => (List.mem_filter.1 hx).1
  have hnotR : o ∉ R := fun hx => by
    have hnone := (List.mem_filter.1 hx).2
    rw [hany] at hnone
    cases hnone
  have hcells : CellsOk swap { dg with dgs := dg.dgs.insert r ds } (target dg) :=
    hk.cells.congr rfl (fun _ _ _ => rfl) fun _ _ _ _ => Iff.rfl
  obtain ⟨s₁, hs₁, hbase, hcells₁, -, -, -, x, -, hremoved, hreal⟩ :=
    removeSendersOfMsgFor_spec R (s := ⟨{ dg with dgs := dg.dgs.insert r ds }, .empty, .empty⟩)
      (r := r) hcells (fun d hd => hk.conformable r d (hmemR d hd))
      (fun d hd v hsel => ⟨d, hmemR d hd, rfl, hsel⟩) ((hk.lists r).filter _).plain_ne
  -- the demand is still sent for when the others have been removed
  have hstays : (⟨u, r, m⟩ : Triple) ∈ real s₁.dg := by
    refine (hcells₁.mem_real _).2 ⟨plain o, ⟨⟨o, hold, rfl, hsel⟩, ?_⟩, hreg, ?_⟩
    · rintro ⟨-, d, hd, heq, -⟩
      exact hnotR ((hk.lists r).eq_of_isEqual hold (hmemR d hd) (plain_isEqual heq) ▸ hd)
    · rw [msgsOf_plain, hbase.msgsGenealogy]
      exact hm
  rw [setDemandsDGFor_eq hk h.1 hnil, hs₁] at hs
  have hgrows := @addSendersOfMsgFor_grows swap r
    (ds.filter fun d => !(dg.getDemandFor r).any fun o => o.isEqual d) s₁
  change addSendersOfMsgFor swap r _ s₁ = _ at hs
  rw [hs] at hgrows
  intro hmem
  obtain ⟨d, hd, hd'⟩ := mem_triples_iff.1 hmem
  have hx : (⟨u, r, m⟩ : Triple) ∈ triples s₁.removed :=
    mem_triples_iff.2 ⟨d, (hgrows.removed hd).resolve_right id, hd'⟩
  rw [hremoved, triples_empty, Set.empty_union] at hx
  rw [hreal] at hstays
  exact hstays.2 hx

/-- When a sender's messages of old and new demands are those of demands that stay, it is not told
    of what it was told before. -/
theorem setDemandsDGFor_separate {dg : RequiredDG} (hk : Kept swap dg) {r : Uuid}
    {ds : List DemandDg} (h : StepOk swap dg (.setDemandsDGFor r ds)) {s : Patch}
    (hs : setDemandsDGFor swap r ds dg = .ok s) {u : Uuid}
    (hkept : ∀ m ∈ msgsFor swap dg.msgsGenealogy dg.ids (dg.getDemandFor r) u,
      m ∈ msgsFor swap dg.msgsGenealogy dg.ids ds u →
      m ∈ msgsFor swap dg.msgsGenealogy dg.ids (keptDemands (dg.getDemandFor r) ds) u)
    {t : Triple} (ht : t.sender = u) (hnew : t ∈ triples s.new) : t ∉ triples s.removed := by
  intro hremoved
  obtain ⟨s', hs', hks, hafter, hrep⟩ := apply_after hk h
  obtain rfl : s' = s := Except.ok.inj (hs'.symm.trans hs)
  have hgrows := @setDemandsDGFor_grows swap r ds dg
  rw [hs] at hgrows
  obtain ⟨d, hd, hr, -⟩ := mem_triples_iff.1 hnew
  obtain ⟨e, -, he⟩ := (hgrows.new hd).resolve_left (not_pushed_empty _ _)
  obtain ⟨v, r', m⟩ := t
  obtain rfl : v = u := ht
  obtain rfl : r' = r := Option.some.inj (hr.symm.trans he.1)
  have hbefore := hk.mem_real.1 (hrep.removed_subset hremoved)
  have hreal : (⟨v, r', m⟩ : Triple) ∈ real s'.dg := by
    rw [hrep.real_eq]
    exact .inr hnew
  have hafter' := hks.mem_real.1 hreal
  rw [hafter.ids, hafter.msgsGenealogy, hafter.demands, find_dgsAfter_set, if_pos rfl] at hafter'
  exact setDemandsDGFor_kept hk h hs (hkept m hbefore hafter') hremoved

/-- No demand is marked as removed. -/
def Unmarked (ds : List DemandDg) : Prop := ∀ d ∈ ds, d.flags.removed = false

def Op.demands : Op → List DemandDg
  | .setDemandsDGFor _ aReqDgs => aReqDgs
  | _ => []

theorem apply_unmarked {dg : RequiredDG} (hk : Kept swap dg) {op : Op} (h : StepOk swap dg op)
    (hdg : ∀ r, Unmarked (dg.getDemandFor r)) (hop : Unmarked op.demands) {s : Patch}
    (hs : apply swap op dg = .ok s) :
    (∀ u d, Pushed s.new u d → d.flags.removed = false) ∧
      ∀ r, Unmarked (s.dg.getDemandFor r) := by
  obtain ⟨s', hs', -, hafter, -⟩ := apply_after hk h
  obtain rfl : s' = s := Except.ok.inj (hs'.symm.trans hs)
  cases op with
  | addClient aId =>
    have hgrows := @addClient_grows swap aId dg
    rw [show addClient swap aId dg = .ok s' from hs] at hgrows
    refine ⟨fun u d hd => ?_, fun r => hafter.demands r ▸ hdg r⟩
    obtain ⟨-, r, e, he, hde⟩ := (hgrows.new hd).resolve_left (not_pushed_empty _ _)
    exact hde.2.trans (hdg r e he)
  | removeClient aUuid =>
    have hgrows := removeClient_grows hk aUuid
    rw [show removeClient swap aUuid dg = .ok s' from hs] at hgrows
    refine ⟨fun u d hd => ?_, fun r => ?_⟩
    · obtain ⟨-, r, -, e, he, hde⟩ := (hgrows.new hd).resolve_left (not_pushed_empty _ _)
      exact hde.2.trans (hdg r e he)
    · rw [hafter.demands, dgsAfter]
      split_ifs
      · rw [SortedMap.find_erase]
        split_ifs
        · exact fun d hd => absurd hd List.not_mem_nil
        · exact hdg r
      · exact hdg r
  | setDemandsDGFor aFor aReqDgs =>
    have hgrows := @setDemandsDGFor_grows swap aFor aReqDgs dg
    rw [show setDemandsDGFor swap aFor aReqDgs dg = .ok s' from hs,
      getDiffDemandsDG_eq (hk.lists aFor) h.1] at hgrows
    refine ⟨fun u d hd => ?_, fun r => ?_⟩
    · obtain ⟨e, he, hde⟩ := (hgrows.new hd).resolve_left (not_pushed_empty _ _)
      exact hde.2.trans (hop e (List.mem_filter.1 he).1)
    · rw [hafter.demands, find_dgsAfter_set]
      split_ifs
      · exact hop
      · exact hdg r

end UdtKernel.RequiredDG
