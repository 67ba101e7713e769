import UdtKernel.Routing.Inform

set_option autoImplicit false

/-! Every customer knows who sends for it, whatever the net and the demands do. -/

namespace UdtKernel.RoutingService
open UdtKernel.Lib UdtKernel.RequiredDG

variable {swap : SwapHeader} {d : Descriptors}

/-- An operation changes nothing that a customer sends for. -/
def Unnoticed (swap : SwapHeader) (d : Descriptors) (dg : RequiredDG) (op : Op) : Prop :=
  ∀ u ∈ d.customers,
    (∀ p ∈ pairsOf swap dg.msgsGenealogy dg.ids dg.dgs u,
      p ∈ pairsOf swap dg.msgsGenealogy (dg.idsAfter op) (dg.dgsAfter op) u) ∧
    ∀ p ∈ pairsOf swap dg.msgsGenealogy (dg.idsAfter op) (dg.dgsAfter op) u,
      p ∈ pairsOf swap dg.msgsGenealogy dg.ids dg.dgs u

/-- The consumers of an item come or leave, but none except the last one is noticed. -/
def ConsumersOk (swap : SwapHeader) (d : Descriptors) (op : Id → Op) :
    List (Uuid × KernelLink) → RequiredDG → Prop
  | [], _ => True
  | e :: l, dg =>
    if e.2.type = .consumer then
      StepOk swap dg (op ⟨e.1, e.2.name⟩) ∧
        ((∃ e' ∈ l, e'.2.type = .consumer) → Unnoticed swap d dg (op ⟨e.1, e.2.name⟩)) ∧
        ∀ s ∈ (RequiredDG.apply swap (op ⟨e.1, e.2.name⟩) dg).toOption, ConsumersOk swap d op l s.dg
    else ConsumersOk swap d op l dg

def ItemsOk (swap : SwapHeader) (d : Descriptors) (op : Id → Op) :
    List DiffItem → RequiredDG → Prop
  | [], _ => True
  | i :: items, dg => ConsumersOk swap d op i.infos.customerInfo.entries dg ∧
      ∀ p ∈ (handleConsumers (fun aId => RequiredDG.apply swap (op aId)) i.infos.customerInfo
        dg).toOption, ItemsOk swap d op items p.dg

/-- The new demands of each program leave everything that a customer sends for. -/
def NewDemandsOk (swap : SwapHeader) (d : Descriptors) :
    List (Uuid × List DemandDg) → RequiredDG → Prop
  | [], _ => True
  | e :: l, dg => StepOk swap dg (.setDemandsDGFor e.1 e.2) ∧ Unmarked e.2 ∧
      (∀ u ∈ d.customers, ∀ m ∈ msgsFor swap dg.msgsGenealogy dg.ids (dg.getDemandFor e.1) u,
        m ∈ msgsFor swap dg.msgsGenealogy dg.ids e.2 u) ∧
      ∀ s ∈ (setDemandsDGFor swap e.1 e.2 dg).toOption, NewDemandsOk swap d l s.dg

/-- When the customers are told of what an event changes. -/
def EventOk (swap : SwapHeader) (d : Descriptors) (dg : RequiredDG) : TableEvent → Prop
  | .diff aDiff => ItemsOk swap d Op.addClient aDiff.opened dg ∧
      ∀ h ∈ (aDiff.opened.foldlM (handleItem (handleNewId swap)) ⟨dg, []⟩).toOption,
        ItemsOk swap d (fun aId => .removeClient aId.uuid) aDiff.closed h.dg
  | .newDemands aDemands => NewDemandsOk swap d aDemands.entries dg
  | .demandsFrom aFrom aP => ∀ info ∈ d.info aFrom,
      StepOk swap dg (.setDemandsDGFor info.uuid aP) ∧ Unmarked aP ∧
      ∀ u ∈ d.customers,
        ∀ m ∈ msgsFor swap dg.msgsGenealogy dg.ids (dg.getDemandFor info.uuid) u,
          m ∈ msgsFor swap dg.msgsGenealogy dg.ids aP u →
          m ∈ msgsFor swap dg.msgsGenealogy dg.ids (keptDemands (dg.getDemandFor info.uuid) aP) u

instance (swap : SwapHeader) (d : Descriptors) (dg : RequiredDG) (op : Op) :
    Decidable (Unnoticed swap d dg op) := inferInstanceAs (Decidable (∀ u ∈ d.customers, _))

instance (ds : List DemandDg) : Decidable (Unmarked ds) :=
  inferInstanceAs (Decidable (∀ x ∈ ds, _))

instance decidableConsumersOk (swap : SwapHeader) (d : Descriptors) (op : Id → Op) :
    (l : List (Uuid × KernelLink)) → (dg : RequiredDG) → Decidable (ConsumersOk swap d op l dg)
  | [], _ => isTrue trivial
  | e :: l, dg =>
    have := decidableConsumersOk swap d op l
    inferInstanceAs (Decidable (if e.2.type = .consumer then
      StepOk swap dg (op ⟨e.1, e.2.name⟩) ∧ (_ → _) ∧ ∀ s ∈ _, ConsumersOk swap d op l (Patch.dg s)
      else ConsumersOk swap d op l dg))

instance decidableItemsOk (swap : SwapHeader) (d : Descriptors) (op : Id → Op) :
    (items : List DiffItem) → (dg : RequiredDG) → Decidable (ItemsOk swap d op items dg)
  | [], _ => isTrue trivial
  | _ :: items, _ =>
    have := decidableItemsOk swap d op items
    inferInstanceAs (Decidable (_ ∧ ∀ p ∈ _, ItemsOk swap d op items (Patch.dg p)))

instance decidableNewDemandsOk (swap : SwapHeader) (d : Descriptors) :
    (l : List (Uuid × List DemandDg)) → (dg : RequiredDG) → Decidable (NewDemandsOk swap d l dg)
  | [], _ => isTrue trivial
  | _ :: l, _ =>
    have := decidableNewDemandsOk swap d l
    inferInstanceAs (Decidable (_ ∧ _ ∧ (∀ u ∈ d.customers, _) ∧
      ∀ s ∈ _, NewDemandsOk swap d l (Patch.dg s)))

instance (swap : SwapHeader) (d : Descriptors) (dg : RequiredDG) :
    (e : TableEvent) → Decidable (EventOk swap d dg e)
  | .diff _ => inferInstanceAs (Decidable (_ ∧ ∀ h ∈ _, ItemsOk swap d _ _ (Handled.dg h)))
  | .newDemands _ => inferInstanceAs (Decidable (NewDemandsOk ..))
  | .demandsFrom _ _ => inferInstanceAs (Decidable (∀ info ∈ _, _ ∧ _ ∧ ∀ u ∈ d.customers, _))

/-- A customer that was told of an operation sends for what the table says. -/
theorem told_op (hd : d.Found) {u : Uuid} (hu : u ∈ d.customers) {dg : RequiredDG}
    (hk : Kept swap dg) {op : Op} (hop : StepOk swap dg op)
    (hdg : ∀ r, Unmarked (dg.getDemandFor r)) (hdemands : Unmarked op.demands) {s : Patch}
    (hs : RequiredDG.apply swap op dg = .ok s)
    (hseparate : ∀ t, t.sender = u → t ∈ triples s.new → t ∉ triples s.removed) :
    told d u (informNewReceiver d (s.new, s.removed)) (realPairs dg u) = realPairs s.dg u := by
  obtain ⟨s', hs', -, -, hrep⟩ := apply_after hk hop
  obtain rfl : s' = s := Except.ok.inj (hs'.symm.trans hs)
  rw [told_informNewReceiver hd hu fun x hx =>
    (apply_unmarked hk hop hdg hdemands hs).1 u x hx]
  ext p
  unfold realPairs reportedPairs
  rw [hrep.real_eq]
  simp only [Set.mem_sdiff, Set.mem_union, Set.mem_ofPred_eq]
  have hp := hseparate ⟨u, p.1, p.2⟩ rfl
  tauto

theorem Unnoticed.realPairs_eq {dg : RequiredDG} (hk : Kept swap dg) {op : Op}
    (hop : StepOk swap dg op) {s : Patch} (hs : RequiredDG.apply swap op dg = .ok s)
    (h : Unnoticed swap d dg op) {u : Uuid} (hu : u ∈ d.customers) :
    realPairs s.dg u = realPairs dg u := by
  obtain ⟨s', hs', hks, hafter, -⟩ := apply_after hk hop
  obtain rfl : s' = s := Except.ok.inj (hs'.symm.trans hs)
  ext ⟨r, m⟩
  unfold realPairs
  rw [Set.mem_ofPred_eq, Set.mem_ofPred_eq, hks.mem_real, hk.mem_real_iff_mem_pairsOf,
    hafter.demands, hafter.ids, hafter.msgsGenealogy, ← mem_pairsOf]
  exact ⟨(h u hu).2 _, (h u hu).1 _⟩

structure OfClient (swap : SwapHeader) (op : Id → Op) : Prop where
  demands : ∀ aId, (op aId).demands = []
  separate : ∀ {dg aId s}, Kept swap dg → StepOk swap dg (op aId) →
    RequiredDG.apply swap (op aId) dg = .ok s → Disjoint (triples s.new) (triples s.removed)

theorem consumers_told (hd : d.Found) {op : Id → Op} (hclient : OfClient swap op)
    {l : List (Uuid × KernelLink)} {s : Patch} (hk : Kept swap s.dg)
    (hdg : ∀ r, Unmarked (s.dg.getDemandFor r)) (h : ConsumersOk swap d op l s.dg) :
    ∃ s', l.foldlM (fun s e => match e.2.type with
        | .kernel => Except.ok s
        | .consumer => RequiredDG.apply swap (op ⟨e.1, e.2.name⟩) s.dg) s = .ok s' ∧
      Kept swap s'.dg ∧ (∀ r, Unmarked (s'.dg.getDemandFor r)) ∧
      ((¬∃ e ∈ l, e.2.type = .consumer) → s' = s) ∧
      ((∃ e ∈ l, e.2.type = .consumer) → ∀ u ∈ d.customers,
        told d u (informNewReceiver d (s'.new, s'.removed)) (realPairs s.dg u) =
          realPairs s'.dg u) := by
  induction l generalizing s with
  | nil => exact ⟨s, rfl, hk, hdg, fun _ => rfl, fun ⟨e, he, _⟩ => absurd he List.not_mem_nil⟩
  | cons e l ih =>
    unfold ConsumersOk at h
    cases htype : e.2.type with
    | kernel =>
      rw [htype, if_neg (by decide)] at h
      obtain ⟨s', hs', hk', hdg', hnone, hsome⟩ := ih hk hdg h
      have hiff : (∃ e' ∈ e :: l, e'.2.type = .consumer) ↔ ∃ e' ∈ l, e'.2.type = .consumer := by
        simp [htype]
      rw [hiff]
      exact ⟨s', by rw [List.foldlM_cons, htype]; exact hs', hk', hdg', hnone, hsome⟩
    | consumer =>
      rw [htype, if_pos rfl] at h
      obtain ⟨hop, hunnoticed, hrest⟩ := h
      obtain ⟨s₁, hs₁, hk₁, -⟩ := apply_after hk hop
      have hmark := apply_unmarked hk hop hdg (by rw [hclient.demands]; simp [Unmarked]) hs₁
      obtain ⟨s', hs', hk', hdg', hnone, hsome⟩ :=
        ih hk₁ hmark.2 (hrest s₁ (by rw [hs₁]; rfl))
      refine ⟨s', ?_, hk', hdg', fun hno => absurd ⟨e, List.mem_cons_self, htype⟩ hno,
        fun _ u hu => ?_⟩
      · rw [List.foldlM_cons, htype]
        change RequiredDG.apply swap _ s.dg >>= _ = _
        rw [hs₁]
        exact hs'
      · by_cases hl : ∃ e' ∈ l, e'.2.type = .consumer
        · rw [← (hunnoticed hl).realPairs_eq hk hop hs₁ hu]
          exact hsome hl u hu
        · rw [hnone hl]
          refine told_op hd hu hk hop hdg (by rw [hclient.demands]; simp [Unmarked]) hs₁ ?_
          exact fun t _ hnew => Set.disjoint_left.1 (hclient.separate hk hop hs₁) hnew

theorem items_told (hd : d.Found) {op : Id → Op} (hclient : OfClient swap op)
    {items : List DiffItem} {s : Handled} (hk : Kept swap s.dg)
    (hdg : ∀ r, Unmarked (s.dg.getDemandFor r)) (h : ItemsOk swap d op items s.dg) :
    ∃ s', items.foldlM
        (handleItem (handleConsumers fun aId => RequiredDG.apply swap (op aId))) s = .ok s' ∧
      Kept swap s'.dg ∧ (∀ r, Unmarked (s'.dg.getDemandFor r)) ∧
      ∀ u ∈ d.customers, ∀ known,
        told d u (s.updates.flatMap (informNewReceiver d)) known = realPairs s.dg u →
        told d u (s'.updates.flatMap (informNewReceiver d)) known = realPairs s'.dg u := by
  induction items generalizing s with
  | nil => exact ⟨s, rfl, hk, hdg, fun _ _ _ hknown => hknown⟩
  | cons i items ih =>
    obtain ⟨hconsumers, hrest⟩ := h
    obtain ⟨p, hp, hk₁, hdg₁, hnone, hsome⟩ :=
      consumers_told hd hclient (s := ⟨s.dg, .empty, .empty⟩) hk hdg hconsumers
    change handleConsumers (fun aId => RequiredDG.apply swap (op aId)) i.infos.customerInfo s.dg =
      .ok p at hp
    have htold : ∀ u ∈ d.customers,
        told d u (informNewReceiver d (p.new, p.removed)) (realPairs s.dg u) =
          realPairs p.dg u := by
      intro u hu
      by_cases hl : ∃ e ∈ i.infos.customerInfo.entries, e.2.type = .consumer
      · exact hsome hl u hu
      · rw [hnone hl]
        rfl
    obtain ⟨s', hs', hk', hdg', htold'⟩ := ih (s := ⟨p.dg, s.updates ++ [(p.new, p.removed)]⟩)
      hk₁ hdg₁ (hrest p (by rw [hp]; rfl))
    refine ⟨s', ?_, hk', hdg', fun u hu known hknown => htold' u hu known ?_⟩
    · rw [List.foldlM_cons]
      change (handleConsumers _ _ s.dg >>= _) >>= _ = _
      rw [hp]
      exact hs'
    · rw [List.flatMap_append, told_append, hknown, List.flatMap_singleton]
      exact htold u hu

theorem ofClient_add : OfClient swap Op.addClient :=
  ⟨fun _ => rfl, fun hk hop hs => addClient_separate hk hop hs⟩

theorem ofClient_remove : OfClient swap fun aId => .removeClient aId.uuid :=
  ⟨fun _ => rfl, fun hk _ hs => removeClient_separate hk hs⟩

theorem setIntersection_pairs {aTo aFrom : DemandDgsFor} {u : Uuid}
    (h : (aTo.find u).isSome = true) :
    reportedPairs (setIntersection aTo aFrom) u = reportedPairs aTo u ∪ reportedPairs aFrom u := by
  obtain ⟨ds, hds⟩ := Option.isSome_iff_exists.1 h
  ext p
  unfold reportedPairs triples setIntersection
  simp only [Set.mem_union, Set.mem_ofPred_eq, SortedMap.find_mapVal, hds, Option.map_some,
    Option.some.injEq, exists_eq_left', List.mem_append]
  cases aFrom.find u with
  | none => simp
  | some es =>
    simp only [Option.getD_some, Option.some.injEq, exists_eq_left']
    constructor
    · rintro ⟨x, hx | hx, h⟩
      · exact .inl ⟨x, hx, h⟩
      · exact .inr ⟨x, hx, h⟩
    · rintro (⟨x, hx, h⟩ | ⟨x, hx, h⟩)
      · exact ⟨x, .inl hx, h⟩
      · exact ⟨x, .inr hx, h⟩

/-- When everything that is sent for stays, what is new is all that changes. -/
theorem realPairs_union {dg : RequiredDG} (hk : Kept swap dg) {r : Uuid} {ds : List DemandDg}
    (hop : StepOk swap dg (.setDemandsDGFor r ds)) {s : Patch}
    (hs : setDemandsDGFor swap r ds dg = .ok s) {u : Uuid}
    (hstays : ∀ m ∈ msgsFor swap dg.msgsGenealogy dg.ids (dg.getDemandFor r) u,
      m ∈ msgsFor swap dg.msgsGenealogy dg.ids ds u) :
    realPairs s.dg u = realPairs dg u ∪ reportedPairs s.new u := by
  obtain ⟨s', hs', hks, hafter, hrep⟩ := apply_after hk hop
  obtain rfl : s' = s := Except.ok.inj (hs'.symm.trans hs)
  have hsub : realPairs dg u ⊆ realPairs s'.dg u := by
    rintro ⟨r', m⟩ hp
    have hm := hk.mem_real.1 hp
    refine hks.mem_real.2 ?_
    rw [hafter.ids, hafter.msgsGenealogy, hafter.demands, find_dgsAfter_set]
    by_cases hr : r' = r
    · subst hr
      rw [if_pos rfl]
      exact hstays m hm
    · rw [if_neg hr]
      exact hm
  have hreal : realPairs s'.dg u = realPairs dg u \ reportedPairs s'.removed u ∪
      reportedPairs s'.new u := by
    ext p
    unfold realPairs reportedPairs
    rw [hrep.real_eq]
    rfl
  refine Set.Subset.antisymm ?_ (Set.union_subset hsub ?_)
  · rw [hreal]
    exact Set.union_subset_union_left _ Set.sdiff_subset
  · rw [hreal]
    exact Set.subset_union_right

theorem newDemands_told {l : List (Uuid × List DemandDg)} {s : Patch} (hk : Kept swap s.dg)
    (hdg : ∀ r, Unmarked (s.dg.getDemandFor r)) (h : NewDemandsOk swap d l s.dg)
    (hkeys : ∀ u ∈ d.customers, (s.new.find u).isSome = true)
    (hnew : ∀ u x, Pushed s.new u x → x.flags.removed = false)
    (hremoved : ∀ u, s.removed.find u = none) :
    ∃ s', l.foldlM (newDemandsTurn swap) s = .ok s' ∧
      (∀ u x, Pushed s'.new u x → x.flags.removed = false) ∧
      (∀ u, s'.removed.find u = none) ∧ ∀ u ∈ d.customers, ∀ known,
        known ∪ reportedPairs s.new u = realPairs s.dg u →
        known ∪ reportedPairs s'.new u = realPairs s'.dg u := by
  induction l generalizing s with
  | nil => exact ⟨s, rfl, hnew, hremoved, fun _ _ _ hknown => hknown⟩
  | cons e l ih =>
    obtain ⟨hop, hmarked, hstays, hrest⟩ := h
    obtain ⟨p, hp, hk₁, -⟩ := apply_after hk hop
    have hmark := apply_unmarked hk hop hdg hmarked hp
    change setDemandsDGFor swap e.1 e.2 s.dg = .ok p at hp
    obtain ⟨s', hs', hnew', hremoved', htold⟩ := ih
      (s := ⟨p.dg, setIntersection s.new p.new, setIntersection s.removed p.removed⟩)
      hk₁ hmark.2 (hrest p (by rw [hp]; rfl))
      (fun u hu => by
        change ((SortedMap.mapVal ..).find u).isSome = true
        rw [SortedMap.find_mapVal, Option.isSome_map]
        exact hkeys u hu)
      (fun u x hx => by
        obtain ⟨ds, hds, hx⟩ := hx
        change (SortedMap.mapVal ..).find u = some ds at hds
        rw [SortedMap.find_mapVal] at hds
        obtain ⟨es, hes, rfl⟩ := Option.map_eq_some_iff.1 hds
        rcases List.mem_append.1 hx with hx | hx
        · exact hnew u x ⟨es, hes, hx⟩
        · cases hfind : p.new.find u with
          | none => rw [hfind] at hx; cases hx
          | some fs => exact hmark.1 u x ⟨fs, hfind, by rwa [hfind] at hx⟩)
      (fun u => by
        change (SortedMap.mapVal ..).find u = none
        rw [SortedMap.find_mapVal, hremoved]
        rfl)
    refine ⟨s', ?_, hnew', hremoved', fun u hu known hknown => htold u hu known ?_⟩
    · rw [List.foldlM_cons]
      unfold newDemandsTurn
      rw [hp]
      exact hs'
    · change known ∪ reportedPairs (setIntersection s.new p.new) u = realPairs p.dg u
      rw [setIntersection_pairs (hkeys u hu), realPairs_union hk hop hp (hstays u hu), ← hknown,
        Set.union_assoc]

theorem emptyLists_find (d : Descriptors) (u : Uuid) :
    (emptyLists d).find u = if u ∈ d.customers then some [] else none := by
  have hall : ∀ (l : List Uuid) (m : DemandDgsFor), (∀ v ds, m.find v = some ds → ds = []) →
      (l.foldl (fun m u => m.insertNew u []) m).find u =
        if u ∈ l then some [] else m.find u := by
    intro l
    induction l with
    | nil => simp
    | cons v l ih =>
      intro m hm
      have hempty : (m.find v).getD [] = [] := by
        cases hfind : m.find v with
        | none => rfl
        | some ds => exact hm v ds hfind
      rw [List.foldl_cons, ih]
      · simp only [SortedMap.find_insertNew, hempty, List.mem_cons]
        by_cases hu : u = v <;> simp [hu]
      · intro w ds hds
        rw [SortedMap.find_insertNew, hempty] at hds
        split_ifs at hds
        · exact (Option.some.inj hds).symm
        · exact hm w ds hds
  exact hall d.customers .empty fun v ds hds => by cases hds

/-- Each customer that is told of what an event changes sends for what the table says. -/
theorem handle_told (hd : d.Found) {dg : RequiredDG} (hk : Kept swap dg)
    (hdg : ∀ r, Unmarked (dg.getDemandFor r)) {e : TableEvent} (he : EventOk swap d dg e) :
    ∃ dg' sent, handle swap d e dg = .ok (dg', sent) ∧ ∀ u ∈ d.customers,
      told d u sent (realPairs dg u) = realPairs dg' u := by
  cases e with
  | diff aDiff =>
    obtain ⟨hopened, hclosed⟩ := he
    obtain ⟨s₁, hs₁, hk₁, hdg₁, htold₁⟩ :=
      items_told hd ofClient_add (s := ⟨dg, []⟩) hk hdg hopened
    change aDiff.opened.foldlM (handleItem (handleNewId swap)) ⟨dg, []⟩ = .ok s₁ at hs₁
    obtain ⟨s, hs, -, -, htold⟩ :=
      items_told hd ofClient_remove hk₁ hdg₁ (hclosed s₁ (by rw [hs₁]; rfl))
    change aDiff.closed.foldlM (handleItem (handleCloseId swap)) s₁ = .ok s at hs
    refine ⟨s.dg, s.updates.flatMap (informNewReceiver d), ?_, fun u hu =>
      htold u hu _ (htold₁ u hu _ rfl)⟩
    simp only [handle, handleDiff, hs₁, hs, bind, Except.bind]
    rfl
  | newDemands aDemands =>
    have hempty : ∀ u x, ¬Pushed (emptyLists d) u x := by
      rintro u x ⟨ds, hds, hx⟩
      rw [emptyLists_find] at hds
      split_ifs at hds
      cases hds
      cases hx
    obtain ⟨s, hs, hnew, hremoved, htold⟩ := newDemands_told (s := ⟨dg, emptyLists d, .empty⟩) hk
      hdg he (fun u hu => by rw [emptyLists_find, if_pos hu]; rfl)
      (fun u x hx => absurd hx (hempty u x)) fun _ => rfl
    refine ⟨s.dg, informNewReceiver d (s.new, s.removed), ?_, fun u hu => ?_⟩
    · simp only [handle, hs]
      rfl
    · have hnone : reportedPairs s.removed u = ∅ := by
        refine Set.eq_empty_iff_forall_notMem.2 fun p ⟨ds, hds, _⟩ => ?_
        rw [hremoved] at hds
        cases hds
      have hfirst : reportedPairs (emptyLists d) u = ∅ := by
        refine Set.eq_empty_iff_forall_notMem.2 fun p ⟨ds, hds, x, hx, _⟩ => ?_
        exact hempty u x ⟨ds, hds, hx⟩
      rw [told_informNewReceiver hd hu (hnew u), hnone, Set.sdiff_empty]
      exact htold u hu _ (by rw [hfirst, Set.union_empty])
  | demandsFrom aFrom aP =>
    simp only [handle]
    cases hinfo : d.info aFrom with
    | none => exact ⟨dg, informNewReceiver d (.empty, .empty), rfl, fun u _ => rfl⟩
    | some info =>
      obtain ⟨hop, hmarked, hkept⟩ := he info hinfo
      obtain ⟨s, hs, -⟩ := apply_after hk hop
      have hset : setDemandsDGFor swap info.uuid aP dg = .ok s := hs
      refine ⟨s.dg, informNewReceiver d (s.new, s.removed), by simp only [hset]; rfl,
        fun u hu => ?_⟩
      refine told_op hd hu hk hop hdg hmarked hs fun t ht hnew => ?_
      exact setDemandsDGFor_separate hk hop hset (hkept u hu) ht hnew

/-- When every operation on a table meets its condition, and an event as well, each customer is
    told of everything that the event changes. -/
theorem runOps_told (swap : SwapHeader) (d : Descriptors) (g : Genealogy) (ops : List Op)
    (dg : RequiredDG) (h : EveryStep swap (StepOk swap) ops (start g))
    (hrun : runOps swap ops (start g) = .ok dg) (hd : d.Found)
    (hdg : ∀ e ∈ dg.dgs.entries, Unmarked e.2) (e : TableEvent) (he : EventOk swap d dg e) :
    ∃ dg' sent, handle swap d e dg = .ok (dg', sent) ∧ ∀ u ∈ d.customers,
      told d u sent (realPairs dg u) = realPairs dg' u := by
  obtain ⟨dg', hdg', hk, -⟩ := runOps_spec (kept_start g) h
  obtain rfl := Except.ok.inj (hrun.symm.trans hdg')
  refine handle_told hd hk (fun r => ?_) he
  unfold getDemandFor
  cases hfind : dg.dgs.find r with
  | none => exact fun x hx => absurd hx List.not_mem_nil
  | some ds => exact hdg (r, ds) ((SortedMap.mem_entries_iff ..).2 hfind)

def twoCustomers : Descriptors where
  descriptors := (SortedMap.empty.insert 5 (some ⟨2, ['s'], .consumer, 1⟩)).insert 6
    (some ⟨9, ['r'], .consumer, 1⟩)
  byUuids := (SortedMap.empty.insert 2 5).insert 9 6

/-- The first customer sends for a demand of the second one. -/
def subscribedOps : List Op :=
  [.addClient ⟨2, ['s']⟩, .addClient ⟨9, ['r']⟩, .setDemandsDGFor 9 [demandOf ['s'] 1 false]]

def closedDiff : KernelInfosDiff :=
  ⟨[], [⟨7, ⟨['k'], SortedMap.empty.insert 9 ⟨['r'], .consumer, 1⟩, 1⟩, true⟩]⟩

theorem runOps_told_closed : ∃ dg' sent,
    handle noSwap twoCustomers (.diff closedDiff) (tableOf noSwap .empty subscribedOps) =
      .ok (dg', sent) ∧
    ∀ u ∈ twoCustomers.customers, told twoCustomers u sent
      (realPairs (tableOf noSwap .empty subscribedOps) u) = realPairs dg' u :=
  runOps_told noSwap twoCustomers .empty subscribedOps _ (by decide) rfl (by decide) (by decide)
    (.diff closedDiff) (by decide)

/-- A customer is left with something else than what the table says. -/
def Mistold (swap : SwapHeader) (d : Descriptors) (dg : RequiredDG) (e : TableEvent) : Prop :=
  ∃ dg' sent, handle swap d e dg = .ok (dg', sent) ∧ ∃ u ∈ d.customers,
    told d u sent (realPairs dg u) ≠ realPairs dg' u

theorem mistold_of_knows {dg : RequiredDG} {e : TableEvent} {u : Uuid} {p : Subscription}
    (hu : u ∈ d.customers) (h : (handle swap d e dg).toOption.any (fun r =>
      knows d u p r.2 (sends dg u p) != sends r.1 u p) = true) : Mistold swap d dg e := by
  obtain ⟨⟨dg', sent⟩, hr, hne⟩ := (Option.any_eq_true _ _).1 h
  refine ⟨dg', sent, ?_, u, hu, fun heq => ?_⟩
  · revert hr
    cases handle swap d e dg with
    | error => exact fun hr => by cases hr
    | ok r => exact fun hr => by rw [Option.some.inj hr]
  · refine (bne_iff_ne.1 hne) (Bool.eq_iff_iff.2 ?_)
    rw [← mem_told_iff d u p sent mem_realPairs_iff, heq, mem_realPairs_iff]

/-- The second customer and another consumer of a kernel are closed with it. -/
def closedTogether : KernelInfosDiff :=
  ⟨[], [⟨7, ⟨['k'], (SortedMap.empty.insert 9 ⟨['r'], .consumer, 1⟩).insert 10
    ⟨['q'], .consumer, 1⟩, 1⟩, true⟩]⟩

def threeClients : RequiredDG :=
  tableOf noSwap .empty (subscribedOps ++ [.addClient ⟨10, ['q']⟩])

theorem told_false_of_mistold : twoCustomers.Found ∧
    Mistold noSwap twoCustomers threeClients (.newDemands (SortedMap.empty.insert 9 [])) ∧
    Mistold noSwap twoCustomers threeClients (.diff closedTogether) ∧
    Mistold noSwap twoCustomers threeClients
      (.demandsFrom 6 [{ demandOf ['s'] 2 false with uuidFrom := some 2 }]) := by
  refine ⟨by decide, ?_, ?_, ?_⟩
  · exact mistold_of_knows (u := 2) (p := (9, (['p'], [1]))) (by decide) (by decide)
  · exact mistold_of_knows (u := 2) (p := (9, (['p'], [1]))) (by decide) (by decide)
  · exact mistold_of_knows (u := 2) (p := (9, (['p'], [1]))) (by decide) (by decide)

end UdtKernel.RoutingService
