import UdtKernel.Graph.Integrity
import UdtKernel.Info.Merge

set_option autoImplicit false

/-! What an event makes of the graph of the net and of the difference that is published. -/

namespace UdtKernel.InfoData
open UdtKernel.Lib

def latencyOf (net : SortedMap Uuid KernelInfos) (u v : Uuid) : Option ℤ :=
  (net.find u).bind fun infos => (infos.customerInfo.find v).map fun link => (link.latency : ℤ)

def InNet (net : SortedMap Uuid KernelInfos) (u : Uuid) : Prop :=
  (net.find u).isSome = true ∨ ∃ k, (latencyOf net k u).isSome = true

structure IsGraphOf (net : SortedMap Uuid KernelInfos) (g : RouteGraph) : Prop where
  edge : ∀ u v, g.edge u v = latencyOf net u v
  isVertex : ∀ u, g.isVertex u = true ↔ InNet net u

theorem IsGraphOf.unique {net : SortedMap Uuid KernelInfos} {g g' : RouteGraph}
    (h : IsGraphOf net g) (h' : IsGraphOf net g') : g.vertices = g'.vertices :=
  RouteGraph.vertices_ext (fun u => (h.isVertex u).trans (h'.isVertex u).symm)
    fun u v => (h.edge u v).trans (h'.edge u v).symm

theorem linksOf_find (infos : KernelInfos) (v : Uuid) :
    (linksOf infos).find v = (infos.customerInfo.find v).map fun link => (link.latency : ℤ) :=
  SortedMap.find_mapVal ..

theorem linksOf_nonneg (infos : KernelInfos) : ∀ e ∈ (linksOf infos).entries, 0 ≤ e.2 := by
  intro e he
  obtain ⟨p, -, rfl⟩ := List.mem_map.1 he
  exact Int.natCast_nonneg _

/-- The kernels of a list are added to a graph that has none of their links. -/
theorem addAll_spec {l : List (Uuid × KernelInfos)} (hl : l.Pairwise fun p q => p.1 < q.1)
    {g : RouteGraph} (hg : ∀ p ∈ l, ∀ v, g.edge p.1 v = none) :
    ∃ g', l.foldlM (fun g e => g.addNode e.1 (linksOf e.2)) g = .ok g' ∧
      (∀ u v, g'.edge u v = (g.edge u v).or ((SortedMap.lookup u l).bind fun infos =>
        (infos.customerInfo.find v).map fun link => (link.latency : ℤ))) ∧
      ∀ u, g'.isVertex u = true ↔ g.isVertex u = true ∨
        ∃ p ∈ l, p.1 = u ∨ (p.2.customerInfo.find u).isSome = true := by
  induction l generalizing g with
  | nil => exact ⟨g, rfl, by simp [SortedMap.lookup], by simp⟩
  | cons p l ih =>
    obtain ⟨hlt, hl⟩ := List.pairwise_cons.1 hl
    obtain ⟨g₁, hg₁, hadded⟩ := RouteGraph.addNode_spec p.1 g _ (linksOf_nonneg p.2)
    obtain ⟨g', hg', hedge, hvertex⟩ := ih hl fun q hq v => by
      rw [hadded.edge, if_neg (ne_of_gt (hlt q hq))]
      exact hg q (List.mem_cons_of_mem p hq) v
    refine ⟨g', ?_, fun u v => ?_, fun u => ?_⟩
    · rw [List.foldlM_cons, hg₁]
      exact hg'
    · rw [hedge, hadded.edge, SortedMap.lookup]
      split_ifs with hu
      · subst hu
        rw [hg p List.mem_cons_self, linksOf_find, SortedMap.lookup_eq_none_of_forall_lt hlt]
        simp
      · rfl
    · rw [hvertex, hadded.isVertex, linksOf_find, Option.isSome_map, or_assoc, @eq_comm _ u p.1]
      simp only [List.mem_cons, exists_eq_or_imp]

theorem rebuildGraph_spec (d : InfoData) :
    ∃ g, rebuildGraph d = .ok { d with graph := g } ∧ IsGraphOf d.fnet.net g := by
  obtain ⟨g, hg, hedge, hvertex⟩ := addAll_spec (g := d.graph.reset) d.fnet.net.sorted
    fun _ _ _ => rfl
  refine ⟨g, ?_, fun u v => ?_, fun u => ?_⟩
  · unfold rebuildGraph
    rw [hg]
    rfl
  · rw [hedge]
    rfl
  · rw [hvertex, InNet]
    have hempty : d.graph.reset.isVertex u = false := rfl
    rw [hempty]
    simp only [Bool.false_eq_true, false_or]
    constructor
    · rintro ⟨⟨k, infos⟩, hmem, hor⟩
      rw [SortedMap.mem_entries_iff] at hmem
      rcases hor with rfl | hlink
      · exact .inl (Option.isSome_iff_exists.2 ⟨infos, hmem⟩)
      · refine .inr ⟨k, ?_⟩
        rw [latencyOf, hmem, Option.bind_some, Option.isSome_map]
        exact hlink
    · rintro (hu | ⟨k, hk⟩)
      · obtain ⟨infos, hmem⟩ := Option.isSome_iff_exists.1 hu
        exact ⟨(u, infos), (SortedMap.mem_entries_iff ..).2 hmem, .inl rfl⟩
      · unfold latencyOf at hk
        cases hmem : d.fnet.net.find k with
        | none => rw [hmem] at hk; cases hk
        | some infos =>
          rw [hmem, Option.bind_some, Option.isSome_map] at hk
          exact ⟨(k, infos), (SortedMap.mem_entries_iff ..).2 hmem, .inr hk⟩

def dropFrom (aFrom : Descriptor) :
    Option (Finset Descriptor) → Option (Finset Descriptor)
  | some from_ => if from_ = {aFrom} then none else some (from_.erase aFrom)
  | none => none

/-- What the loop of `MRemoveKernel` makes of the kernels of a list. -/
structure Dropped (aFrom : Descriptor) (l : List (Uuid × KernelInfos))
    (s s' : InfoData × List DiffItem) : Prop where
  net : ∀ k, s'.1.fnet.net.find k =
    if k ∈ l.map Prod.fst ∧ s.1.uuidFrom.find k = some {aFrom} then none
    else s.1.fnet.net.find k
  from_ : ∀ k, s'.1.uuidFrom.find k =
    if k ∈ l.map Prod.fst then dropFrom aFrom (s.1.uuidFrom.find k) else s.1.uuidFrom.find k
  closed : ∀ i, i ∈ s'.2 ↔
    i ∈ s.2 ∨ ∃ p ∈ l, s.1.uuidFrom.find p.1 = some {aFrom} ∧ i = ⟨p.1, p.2, true⟩

theorem removeStep_spec (aFrom : Descriptor) {s : InfoData × List DiffItem}
    {e : Uuid × KernelInfos} (h : (s.1.uuidFrom.find e.1).isSome = true) :
    ∃ s', removeStep aFrom s e = .ok s' ∧ Dropped aFrom [e] s s' := by
  obtain ⟨from_, hfrom⟩ := Option.isSome_iff_exists.1 h
  unfold removeStep
  rw [hfrom]
  simp only [mem_and_erase_iff]
  by_cases hlast : from_ = {aFrom}
  · rw [if_pos hlast]
    refine ⟨_, rfl, fun k => ?_, fun k => ?_, fun i => ?_⟩
    · change (s.1.fnet.net.erase e.1).find k = _
      rw [SortedMap.find_erase]
      by_cases hk : k = e.1
      · subst hk
        simp [hfrom, hlast]
      · simp [hk]
    · change (s.1.uuidFrom.erase e.1).find k = _
      rw [SortedMap.find_erase]
      by_cases hk : k = e.1
      · subst hk
        simp [hfrom, hlast, dropFrom]
      · simp [hk]
    · simp [hfrom, hlast]
  · rw [if_neg hlast]
    refine ⟨_, rfl, fun k => ?_, fun k => ?_, fun i => ?_⟩
    · rw [if_neg]
      rintro ⟨hk, heq⟩
      rw [List.map_singleton, List.mem_singleton] at hk
      rw [hk, hfrom] at heq
      exact hlast (Option.some.inj heq)
    · change (s.1.uuidFrom.insert e.1 _).find k = _
      rw [SortedMap.find_insert]
      by_cases hk : k = e.1
      · subst hk
        simp [hfrom, hlast, dropFrom]
      · simp [hk]
    · simp [hfrom, hlast]

theorem removeAll_spec (aFrom : Descriptor) {l : List (Uuid × KernelInfos)}
    (hl : l.Pairwise fun p q => p.1 < q.1) {s : InfoData × List DiffItem}
    (h : ∀ p ∈ l, (s.1.uuidFrom.find p.1).isSome = true) :
    ∃ s', l.foldlM (removeStep aFrom) s = .ok s' ∧ Dropped aFrom l s s' := by
  induction l generalizing s with
  | nil => exact ⟨s, rfl, by simp, by simp, by simp⟩
  | cons e l ih =>
    obtain ⟨hlt, hl⟩ := List.pairwise_cons.1 hl
    obtain ⟨s₁, hs₁, h₁⟩ := removeStep_spec aFrom (h e List.mem_cons_self)
    have hfrom : ∀ k, k ≠ e.1 → s₁.1.uuidFrom.find k = s.1.uuidFrom.find k := fun k hk => by
      rw [h₁.from_, if_neg (by simpa using hk)]
    have hne : ∀ q ∈ l, q.1 ≠ e.1 := fun q hq => ne_of_gt (hlt q hq)
    have hnot : e.1 ∉ l.map Prod.fst := fun hmem => by
      obtain ⟨q, hq, heq⟩ := List.mem_map.1 hmem
      exact hne q hq heq
    obtain ⟨s', hs', h'⟩ := ih hl fun q hq => by
      rw [hfrom _ (hne q hq)]
      exact h q (List.mem_cons_of_mem e hq)
    refine ⟨s', ?_, fun k => ?_, fun k => ?_, fun i => ?_⟩
    · rw [List.foldlM_cons, hs₁]
      exact hs'
    · rw [h'.net, h₁.net]
      by_cases hk : k = e.1
      · subst hk
        simp [hnot]
      · simp only [hfrom k hk, List.map_cons, List.map_nil, List.mem_cons, hk, false_or,
          List.not_mem_nil, false_and, if_false]
    · rw [h'.from_, h₁.from_]
      by_cases hk : k = e.1
      · subst hk
        simp [hnot]
      · simp only [List.map_cons, List.map_nil, List.mem_cons, hk, false_or, List.not_mem_nil,
          if_false]
    · rw [h'.closed, h₁.closed, or_assoc]
      simp only [List.mem_cons, exists_eq_or_imp, List.not_mem_nil, or_false, exists_eq_left]
      refine or_congr_right (or_congr_right (exists_congr fun q => and_congr_right fun hq => ?_))
      rw [hfrom _ (hne q hq)]

def relinked (my : KernelInfos) (links : KernLinks) : KernelInfos :=
  { my with customerInfo := links, indexNumber := (my.indexNumber + 1) % 2 ^ 32 }

theorem Known.own_find {aMe : Uuid} {d : InfoData} (h : Known aMe d) :
    ∃ my, d.fnet.net.find aMe = some my := by
  obtain ⟨from_, hfrom, -⟩ := h.own
  refine Option.isSome_iff_exists.1 ((h.keys aMe).symm.trans ?_)
  rw [hfrom]
  rfl

theorem Known.not_last {aMe : Uuid} {d : InfoData} (h : Known aMe d) {aFrom : Descriptor}
    (hvalid : aFrom ≠ invalidDescriptor) : d.uuidFrom.find aMe ≠ some {aFrom} := by
  obtain ⟨from_, hfrom, hmem⟩ := h.own
  rw [hfrom]
  intro heq
  rw [Option.some.inj heq, Finset.mem_singleton] at hmem
  exact hvalid hmem.symm

structure Opened (aMe : Id) (aFrom : Descriptor) (aInfo : DescriptorInfo) (d d' : InfoData)
    (diff : KernelInfosDiff) : Prop where
  net : ∀ k, d'.fnet.net.find k =
    if k = aMe.uuid then (d.fnet.net.find k).map fun my =>
      relinked my (my.customerInfo.insertNew aInfo.uuid aInfo.link)
    else if aInfo.link.type = .kernel ∧ k = aInfo.uuid then
      some ((d.fnet.net.find k).getD ⟨aInfo.link.name, .empty, 0⟩)
    else d.fnet.net.find k
  from_ : ∀ k, d'.uuidFrom.find k =
    if aInfo.link.type = .kernel ∧ k = aInfo.uuid then
      some (insert aFrom ((d.uuidFrom.find k).getD ∅))
    else d.uuidFrom.find k
  opened : ∀ i, i ∈ diff.opened ↔ i = myLink aMe aInfo ∨
    aInfo.link.type = .kernel ∧ d.fnet.net.find aInfo.uuid = none ∧
      i = ⟨aInfo.uuid, ⟨aInfo.link.name, .empty, 0⟩, true⟩
  closed : diff.closed = []
  graph : RouteGraph.Added aMe.uuid (SortedMap.empty.insert aInfo.uuid (aInfo.link.latency : ℤ))
    d.graph d'.graph

theorem putConsumerToMyInfo_eq {aMe : Id} {d : InfoData} {my : KernelInfos}
    (h : d.fnet.net.find aMe.uuid = some my) (aFrom : Descriptor) (aNew : DescriptorInfo)
    (aAdded : List DiffItem) : putConsumerToMyInfo aMe aFrom aNew d aAdded =
      .ok ({ d with
        fnet := KernelInfosArray.wasChanged { d.fnet with
          net := d.fnet.net.insert aMe.uuid
            (relinked my (my.customerInfo.insertNew aNew.uuid aNew.link)) }
        allDescriptors := d.allDescriptors ++ [aFrom] }, aAdded ++ [myLink aMe aNew]) := by
  unfold putConsumerToMyInfo changeMyInfo
  rw [h]
  rfl

theorem popConsumerFromMyInfo_eq {aMe : Id} {d : InfoData} {my : KernelInfos}
    (h : d.fnet.net.find aMe.uuid = some my) (aFrom : Descriptor) (aOld : DescriptorInfo)
    (aRemoved : List DiffItem) : popConsumerFromMyInfo aMe aFrom aOld d aRemoved =
      .ok ({ d with
        fnet := KernelInfosArray.wasChanged { d.fnet with
          net := d.fnet.net.insert aMe.uuid
            (relinked my (my.customerInfo.erase aOld.uuid)) }
        allDescriptors := d.allDescriptors.filter (· ≠ aFrom) },
        aRemoved ++ [myLink aMe aOld]) := by
  unfold popConsumerFromMyInfo changeMyInfo
  rw [h]
  rfl

theorem addKernel_spec {aInfo : DescriptorInfo} {d : InfoData}
    (h : (d.uuidFrom.find aInfo.uuid).isSome = (d.fnet.net.find aInfo.uuid).isSome)
    (aFrom : Descriptor) (aOpened : List DiffItem) :
    ∃ r : Bool × InfoData × List DiffItem, addKernel aInfo aFrom d aOpened = .ok r ∧
      (∀ k, r.2.1.fnet.net.find k = if k = aInfo.uuid then
        some ((d.fnet.net.find k).getD ⟨aInfo.link.name, .empty, 0⟩) else d.fnet.net.find k) ∧
      (∀ k, r.2.1.uuidFrom.find k = if k = aInfo.uuid then
        some (insert aFrom ((d.uuidFrom.find k).getD ∅)) else d.uuidFrom.find k) ∧
      (∀ i, i ∈ r.2.2 ↔ i ∈ aOpened ∨ d.fnet.net.find aInfo.uuid = none ∧
        i = ⟨aInfo.uuid, ⟨aInfo.link.name, .empty, 0⟩, true⟩) ∧
      r.2.1.graph = d.graph := by
  unfold addKernel
  cases hfrom : d.uuidFrom.find aInfo.uuid with
  | none =>
    have hnet : d.fnet.net.find aInfo.uuid = none := by simpa [hfrom] using h.symm
    obtain ⟨s, hs, hstep⟩ := putKernel_spec aFrom
      ⟨aInfo.link.name, .empty, 0⟩ (s := ⟨d.uuidFrom, d.fnet.net, aOpened, []⟩)
      hfrom hnet
    simp only [hs]
    refine ⟨_, rfl, fun k => ?_, fun k => ?_, fun i => ?_, rfl⟩
    · refine (hstep.net k).trans ?_
      split_ifs with hk
      · rw [hk, hnet]
        rfl
      · rfl
    · refine (hstep.from_ k).trans ?_
      split_ifs with hk
      · rw [hk, hfrom]
        rfl
      · rfl
    · change i ∈ s.opened ↔ _
      rw [hstep.opened]
      simp [openedOf, hnet]
  | some from_ =>
    obtain ⟨infos, hnet⟩ := Option.isSome_iff_exists.1 (h.symm.trans (by rw [hfrom]; rfl))
    refine ⟨_, rfl, fun k => ?_, fun k => ?_, fun i => ?_, rfl⟩
    · split_ifs with hk
      · rw [hk, hnet]
        rfl
      · rfl
    · change (d.uuidFrom.insert aInfo.uuid _).find k = _
      rw [SortedMap.find_insert]
      split_ifs with hk
      · rw [hk, hfrom]
        rfl
      · rfl
    · simp [hnet]

theorem process_opened {aMe : Id} {d : InfoData} (h : Known aMe.uuid d) (aFrom : Descriptor)
    (aInfo : DescriptorInfo) : ∃ d' diff, process aMe (.opened aFrom aInfo) d = .ok (d', diff) ∧
      Opened aMe aFrom aInfo d d' diff := by
  obtain ⟨my, hmy⟩ := h.own_find
  have hput := putConsumerToMyInfo_eq hmy aFrom aInfo []
  obtain ⟨g, hg, hadded⟩ := RouteGraph.addNode_spec aMe.uuid d.graph
    (SortedMap.empty.insert aInfo.uuid (aInfo.link.latency : ℤ)) fun e he => by
      obtain rfl : e = (aInfo.uuid, (aInfo.link.latency : ℤ)) := List.mem_singleton.1 he
      exact Int.natCast_nonneg _
  have hadded' : RouteGraph.Added aMe.uuid
      (SortedMap.empty.insert aInfo.uuid (aInfo.link.latency : ℤ)) d.graph g.resetCache :=
    ⟨hadded.edge, hadded.isVertex, rfl⟩
  set d₁ : InfoData := { d with
    fnet := KernelInfosArray.wasChanged { d.fnet with
      net := d.fnet.net.insert aMe.uuid
        (relinked my (my.customerInfo.insertNew aInfo.uuid aInfo.link)) }
    allDescriptors := d.allDescriptors ++ [aFrom] } with hd₁
  have hnet₁ : ∀ k, d₁.fnet.net.find k = if k = aMe.uuid then
      some (relinked my (my.customerInfo.insertNew aInfo.uuid aInfo.link))
      else d.fnet.net.find k := fun k => SortedMap.find_insert ..
  cases htype : aInfo.link.type with
  | consumer =>
    refine ⟨{ d₁ with graph := g }.resetCache, ⟨[myLink aMe aInfo], []⟩, ?_, fun k => ?_,
      fun k => ?_, fun i => ?_, rfl, hadded'⟩
    · change (handleOpen aMe aFrom aInfo d >>= _) = _
      unfold handleOpen
      simp only [hput, htype, bind, Except.bind]
      rw [show d₁.graph = d.graph from rfl, hg]
      rfl
    · refine (hnet₁ k).trans ?_
      split_ifs with hk
      · rw [hk, hmy]
        rfl
      · simp_all
      · rfl
    · simp only [htype, reduceCtorEq, false_and, if_false]
      rfl
    · simp [htype]
  | kernel =>
    have hkeys₁ : (d₁.uuidFrom.find aInfo.uuid).isSome = (d₁.fnet.net.find aInfo.uuid).isSome := by
      rw [hnet₁]
      split_ifs with hk
      · change (d.uuidFrom.find aInfo.uuid).isSome = _
        rw [h.keys, hk, hmy]
        rfl
      · exact h.keys _
    obtain ⟨r, hr, hnet, hfrom, hopened, hgraph⟩ := addKernel_spec hkeys₁ aFrom [myLink aMe aInfo]
    refine ⟨{ r.2.1 with graph := g }.resetCache, ⟨r.2.2, []⟩, ?_, fun k => ?_, fun k => ?_,
      fun i => ?_, rfl, hadded'⟩
    · change (handleOpen aMe aFrom aInfo d >>= _) = _
      unfold handleOpen
      simp only [hput, htype, bind, Except.bind, List.nil_append, hr, pure, Except.pure]
      rw [hgraph, show d₁.graph = d.graph from rfl, hg]
    · refine (hnet k).trans ?_
      rw [hnet₁]
      by_cases hme : k = aMe.uuid
      · rw [if_pos hme, if_pos hme, hme, hmy]
        split_ifs <;> rfl
      · simp [hme, htype]
    · refine (hfrom k).trans ?_
      simp only [htype, true_and]
      rfl
    · rw [hopened, hnet₁, List.mem_singleton]
      simp only [htype, true_and]
      split_ifs with hme
      · rw [hme, hmy]
        simp
      · rfl

structure Closed (aMe : Id) (aFrom : Descriptor) (aInfo : DescriptorInfo) (d d' : InfoData)
    (diff : KernelInfosDiff) : Prop where
  net : ∀ k, d'.fnet.net.find k =
    if k = aMe.uuid then (d.fnet.net.find k).map fun my =>
      relinked my (my.customerInfo.erase aInfo.uuid)
    else if aInfo.link.type = .kernel ∧ d.uuidFrom.find k = some {aFrom} then none
    else d.fnet.net.find k
  from_ : ∀ k, d'.uuidFrom.find k =
    if aInfo.link.type = .kernel then dropFrom aFrom (d.uuidFrom.find k) else d.uuidFrom.find k
  opened : diff.opened = []
  closed : ∀ i, i ∈ diff.closed ↔ i = myLink aMe aInfo ∨ aInfo.link.type = .kernel ∧
    ∃ k infos, d.uuidFrom.find k = some {aFrom} ∧ d.fnet.net.find k = some infos ∧
      i = ⟨k, infos, true⟩
  consumer : aInfo.link.type = .consumer →
    d'.graph.vertices = (d.graph.removeNode aInfo.uuid).vertices
  kernel : aInfo.link.type = .kernel → IsGraphOf d'.fnet.net d'.graph

theorem process_closed {aMe : Id} {d : InfoData} (h : Known aMe.uuid d) {aFrom : Descriptor}
    (hvalid : aFrom ≠ invalidDescriptor) (aInfo : DescriptorInfo) :
    ∃ d' diff, process aMe (.closed aFrom aInfo) d = .ok (d', diff) ∧
      Closed aMe aFrom aInfo d d' diff := by
  obtain ⟨my, hmy⟩ := h.own_find
  have hpop := popConsumerFromMyInfo_eq hmy aFrom aInfo []
  set d₁ : InfoData := { d with
    fnet := KernelInfosArray.wasChanged { d.fnet with
      net := d.fnet.net.insert aMe.uuid (relinked my (my.customerInfo.erase aInfo.uuid)) }
    allDescriptors := d.allDescriptors.filter (· ≠ aFrom) } with hd₁
  have hnet₁ : ∀ k, d₁.fnet.net.find k = if k = aMe.uuid then
      some (relinked my (my.customerInfo.erase aInfo.uuid)) else d.fnet.net.find k :=
    fun k => SortedMap.find_insert ..
  have hown : ∀ k, d.uuidFrom.find k = some {aFrom} → k ≠ aMe.uuid := fun k hk hme =>
    h.not_last hvalid (hme ▸ hk)
  cases htype : aInfo.link.type with
  | consumer =>
    refine ⟨{ d₁ with graph := d.graph.removeNode aInfo.uuid }.resetCache,
      ⟨[], [myLink aMe aInfo]⟩, ?_, fun k => ?_, fun k => ?_, rfl, fun i => ?_, fun _ => rfl,
      fun hk => absurd (htype.symm.trans hk) (by decide)⟩
    · change (handleClose aMe aFrom aInfo d >>= _) = _
      unfold handleClose
      simp only [hpop, htype]
      rfl
    · refine (hnet₁ k).trans ?_
      split_ifs with hk
      · rw [hk, hmy]
        rfl
      · simp_all
      · rfl
    · simp only [htype, reduceCtorEq, if_false]
      rfl
    · simp [htype]
  | kernel =>
    have hsome : ∀ p ∈ d₁.fnet.net.entries, (d₁.uuidFrom.find p.1).isSome = true := by
      rintro ⟨k, infos⟩ hp
      rw [SortedMap.mem_entries_iff, hnet₁] at hp
      refine (h.keys k).trans ?_
      split_ifs at hp with hk
      · rw [hk, hmy]
        rfl
      · rw [hp]
        rfl
    obtain ⟨s, hs, hdropped⟩ := removeAll_spec aFrom (s := (d₁, [myLink aMe aInfo]))
      d₁.fnet.net.sorted hsome
    obtain ⟨g, hg, hgraph⟩ := rebuildGraph_spec s.1
    have hkey : ∀ k, k ∈ d₁.fnet.net.entries.map Prod.fst ↔ (d.fnet.net.find k).isSome = true := by
      intro k
      refine (SortedMap.mem_keys_iff ..).trans ?_
      rw [← Option.isSome_iff_exists, hnet₁]
      split_ifs with hk
      · rw [hk, hmy]
        exact iff_of_true rfl rfl
      · exact Iff.rfl
    have hne : aInfo.link.type ≠ .consumer := by
      rw [htype]
      decide
    refine ⟨{ s.1 with graph := g }.resetCache, ⟨[], s.2⟩, ?_, fun k => ?_, fun k => ?_, rfl,
      fun i => ?_, fun hk => absurd hk hne, fun _ => ⟨hgraph.edge, hgraph.isVertex⟩⟩
    · change (handleClose aMe aFrom aInfo d >>= _) = _
      have hremove : removeKernel aFrom d₁ [myLink aMe aInfo] = .ok s := hs
      unfold handleClose
      simp only [hpop, htype, bind, Except.bind, List.nil_append, hremove, hg, pure, Except.pure]
    · refine (hdropped.net k).trans ?_
      rw [hnet₁]
      by_cases hme : k = aMe.uuid
      · have hnot : ¬ (k ∈ d₁.fnet.net.entries.map Prod.fst ∧
            d₁.uuidFrom.find k = some {aFrom}) := fun hand => hown k hand.2 hme
        rw [if_neg hnot, if_pos hme, if_pos hme, hme, hmy]
        rfl
      · simp only [hme, if_false, htype, true_and, hkey]
        change (if _ ∧ d.uuidFrom.find k = _ then _ else _) = _
        by_cases hlast : d.uuidFrom.find k = some {aFrom}
        · have hk : (d.fnet.net.find k).isSome = true := (h.keys k).symm.trans (by rw [hlast]; rfl)
          rw [if_pos ⟨hk, hlast⟩, if_pos hlast]
        · rw [if_neg fun hand => hlast hand.2, if_neg hlast]
    · refine (hdropped.from_ k).trans ?_
      simp only [htype, if_true, hkey]
      change (if _ then dropFrom aFrom (d.uuidFrom.find k) else d.uuidFrom.find k) = _
      split_ifs with hk
      · rfl
      · have hnone : d.uuidFrom.find k = none := by
          rw [← h.keys, Option.not_isSome_iff_eq_none] at hk
          exact hk
        rw [hnone]
        rfl
    · rw [hdropped.closed, List.mem_singleton]
      simp only [htype, true_and]
      refine or_congr_right ⟨?_, ?_⟩
      · rintro ⟨⟨k, infos⟩, hp, hlast, hi⟩
        rw [SortedMap.mem_entries_iff, hnet₁, if_neg (hown k hlast)] at hp
        exact ⟨k, infos, hlast, hp, hi⟩
      · rintro ⟨k, infos, hlast, hk, hi⟩
        refine ⟨(k, infos), ?_, hlast, hi⟩
        rw [SortedMap.mem_entries_iff, hnet₁, if_neg (hown k hlast)]
        exact hk

structure Redrawn (d d' : InfoData) (diff : KernelInfosDiff) : Prop where
  changed : diff.isValid = true → IsGraphOf d'.fnet.net d'.graph
  same : diff.isValid = false → d'.graph = d.graph

theorem process_netInfo {aMe : Id} {d : InfoData} (h : Known aMe.uuid d) (aFrom : Descriptor)
    (aNet : KernelInfosArray) : ∃ d' diff, process aMe (.netInfo aFrom aNet) d = .ok (d', diff) ∧
      Synced aFrom aNet.net d d' diff ∧ Redrawn d d' diff := by
  obtain ⟨d₁, diff, hsync, hsynced, hgraph⟩ := synchronizeNetInfo_spec h aNet aFrom
  cases hvalid : diff.isValid with
  | true =>
    obtain ⟨g, hg, hrebuilt⟩ := rebuildGraph_spec d₁.resetCache
    refine ⟨{ d₁.resetCache with graph := g }, diff, ?_,
      ⟨hsynced.from_, hsynced.opened, hsynced.closed, hsynced.changed, hsynced.same⟩,
      ⟨fun _ => hrebuilt, fun hfalse => absurd (hvalid.symm.trans hfalse) (by decide)⟩⟩
    change (handle aNet aFrom d >>= _) = _
    unfold handle
    simp only [hsync, bind, Except.bind, hvalid, if_true, hg, pure, Except.pure]
    rfl
  | false =>
    have hempty : diff = .empty := by
      obtain ⟨opened, closed⟩ := diff
      unfold KernelInfosDiff.isValid at hvalid
      simp_all [KernelInfosDiff.empty]
    refine ⟨d₁, diff, ?_, hsynced,
      ⟨fun htrue => absurd (hvalid.symm.trans htrue) (by decide), fun _ => hgraph⟩⟩
    change (handle aNet aFrom d >>= _) = _
    unfold handle
    simp only [hsync, bind, Except.bind, hvalid, Bool.false_eq_true, if_false, pure, Except.pure]
    rw [hempty]
    rfl

end UdtKernel.InfoData
