import UdtKernel.Info.NextHop

set_option autoImplicit false

/-! The next descriptors that are kept are those that would be computed anew. -/

namespace UdtKernel
open UdtKernel.Lib

/-- The latencies of a net are of sixteen bits. -/
def NetFits (net : SortedMap Uuid KernelInfos) : Prop :=
  ∀ e ∈ net.entries, ∀ l ∈ e.2.customerInfo.entries, l.2.latency < 2 ^ 16

instance (net : SortedMap Uuid KernelInfos) : Decidable (NetFits net) :=
  inferInstanceAs (Decidable (∀ e ∈ _, ∀ l ∈ _, _))

theorem netFits_iff {net : SortedMap Uuid KernelInfos} : NetFits net ↔
    ∀ k infos, net.find k = some infos → ∀ v link, infos.customerInfo.find v = some link →
      link.latency < 2 ^ 16 := by
  unfold NetFits
  constructor
  · intro h k infos hk v link hv
    exact h (k, infos) ((SortedMap.mem_entries_iff ..).2 hk) (v, link)
      ((SortedMap.mem_entries_iff ..).2 hv)
  · rintro h ⟨k, infos⟩ hk ⟨v, link⟩ hv
    exact h k infos ((SortedMap.mem_entries_iff ..).1 hk) v link
      ((SortedMap.mem_entries_iff ..).1 hv)

/-- The latencies that an event tells are of sixteen bits. -/
def Event.Fits : Event → Prop
  | .opened _ aInfo => aInfo.link.latency < 2 ^ 16
  | .closed _ _ => True
  | .netInfo _ aNet => NetFits aNet.net

namespace RouteGraph

theorem isLatency_of_lt {n : ℕ} (h : n < 2 ^ 16) : IsLatency (n : ℤ) := by
  unfold IsLatency
  omega

theorem WellFormed.congr {g g' : RouteGraph} (h : g.WellFormed) (hv : g'.vertices = g.vertices) :
    g'.WellFormed := by
  have hedge : ∀ u v, g'.edge u v = g.edge u v := fun u v => by rw [edge, edge, hv]
  have hvertex : ∀ u, g'.isVertex u = g.isVertex u := fun u => by rw [isVertex, isVertex, hv]
  refine ⟨fun {u v w} huv => ?_, fun {u v w} huv => ?_⟩
  · rw [hvertex]
    exact h.vertex ((hedge u v).symm.trans huv)
  · exact h.latency ((hedge u v).symm.trans huv)

theorem WellFormed.removeNode {g : RouteGraph} (h : g.WellFormed) (name : Uuid) :
    (g.removeNode name).WellFormed := by
  cases hv : g.isVertex name with
  | true => exact (removeNode_spec hv).wellFormed h
  | false =>
    rw [removeNode_of_not_isVertex hv]
    exact h

end RouteGraph

namespace InfoData

theorem IsGraphOf.wellFormed {net : SortedMap Uuid KernelInfos} {g : RouteGraph}
    (h : IsGraphOf net g) (hnet : NetFits net) : g.WellFormed := by
  refine ⟨fun {u v w} huv => ?_, fun {u v w} huv => ?_⟩
  · rw [h.edge] at huv
    exact (h.isVertex v).2 (.inr ⟨u, by rw [huv]; rfl⟩)
  · rw [h.edge] at huv
    obtain ⟨infos, hu, hv⟩ := Option.bind_eq_some_iff.1 huv
    obtain ⟨link, hlink, rfl⟩ := Option.map_eq_some_iff.1 hv
    exact RouteGraph.isLatency_of_lt (netFits_iff.1 hnet u infos hu v link hlink)

theorem Opened.netFits {aMe : Id} {aFrom : Descriptor} {aInfo : DescriptorInfo} {d d' : InfoData}
    {diff : KernelInfosDiff} (ho : Opened aMe aFrom aInfo d d' diff) (hnet : NetFits d.fnet.net)
    (hfits : aInfo.link.latency < 2 ^ 16) : NetFits d'.fnet.net := by
  rw [netFits_iff] at hnet ⊢
  intro k infos hk v link hv
  rw [ho.net] at hk
  split_ifs at hk
  · obtain ⟨my, hmy, rfl⟩ := Option.map_eq_some_iff.1 hk
    change (my.customerInfo.insertNew aInfo.uuid aInfo.link).find v = some link at hv
    rw [SortedMap.find_insertNew] at hv
    split_ifs at hv
    · cases hfind : my.customerInfo.find aInfo.uuid with
      | some old =>
        rw [hfind] at hv
        have hsame : old = link := Option.some.inj hv
        exact hsame ▸ hnet k my hmy aInfo.uuid old hfind
      | none =>
        rw [hfind] at hv
        cases hv
        exact hfits
    · exact hnet k my hmy v link hv
  · cases hold : d.fnet.net.find k with
    | some old =>
      rw [hold] at hk
      have hsame : old = infos := Option.some.inj hk
      exact hnet k infos (hsame ▸ hold) v link hv
    | none =>
      rw [hold] at hk
      cases hk
      exact nomatch hv
  · exact hnet k infos hk v link hv

theorem Closed.netFits {aMe : Id} {aFrom : Descriptor} {aInfo : DescriptorInfo} {d d' : InfoData}
    {diff : KernelInfosDiff} (hc : Closed aMe aFrom aInfo d d' diff) (hnet : NetFits d.fnet.net) :
    NetFits d'.fnet.net := by
  rw [netFits_iff] at hnet ⊢
  intro k infos hk v link hv
  rw [hc.net] at hk
  split_ifs at hk
  · obtain ⟨my, hmy, rfl⟩ := Option.map_eq_some_iff.1 hk
    change (my.customerInfo.erase aInfo.uuid).find v = some link at hv
    rw [SortedMap.find_erase] at hv
    split_ifs at hv
    exact hnet k my hmy v link hv
  · exact hnet k infos hk v link hv

theorem Synced.netFits {aFrom : Descriptor} {new : SortedMap Uuid KernelInfos} {d d' : InfoData}
    {diff : KernelInfosDiff} (hs : Synced aFrom new d d' diff) (hnet : NetFits d.fnet.net)
    (hnew : NetFits new) : NetFits d'.fnet.net := by
  cases hvalid : diff.isValid with
  | false =>
    rw [hs.same hvalid]
    exact hnet
  | true =>
    rw [netFits_iff] at hnet hnew ⊢
    intro k infos hk v link hv
    rw [hs.changed hvalid] at hk
    have hfrom : new.find k = some infos ∨ d.fnet.net.find k = some infos := by
      revert hk
      cases new.find k with
      | none =>
        cases d.fnet.net.find k with
        | none => exact fun hk => nomatch hk
        | some old =>
          change (if d.uuidFrom.find k = some {aFrom} then none else some old) = some infos → _
          split_ifs
          · exact fun hk => nomatch hk
          · exact fun hk => .inr hk
      | some n =>
        cases d.fnet.net.find k with
        | none => exact fun hk => .inl hk
        | some old =>
          change some (if old.indexNumber < n.indexNumber then n else old) = some infos → _
          split_ifs
          · exact fun hk => .inl hk
          · exact fun hk => .inr hk
    rcases hfrom with hk | hk
    · exact hnew k infos hk v link hv
    · exact hnet k infos hk v link hv

/-- An event keeps the net and the graph well-formed. -/
theorem step_fits {aMe : Id} {d : InfoData} (h : Known aMe.uuid d) (hg : d.graph.WellFormed)
    (hnet : NetFits d.fnet.net) {e : Event} (hvalid : e.Valid) (hfits : e.Fits) :
    ∃ d', step aMe e d = .ok d' ∧ Known aMe.uuid d' ∧ d'.graph.WellFormed ∧
      NetFits d'.fnet.net := by
  cases e with
  | opened aFrom aInfo =>
    obtain ⟨d', diff, hok, ho⟩ := process_opened h aFrom aInfo
    refine ⟨d', step_of_process hok, ho.known h, ho.graph.wellFormed (fun e he => ?_) hg,
      ho.netFits hnet hfits⟩
    obtain rfl : e = (aInfo.uuid, (aInfo.link.latency : ℤ)) := List.mem_singleton.1 he
    exact RouteGraph.isLatency_of_lt hfits
  | closed aFrom aInfo =>
    have hne : aFrom ≠ invalidDescriptor := ne_invalid hvalid
    obtain ⟨d', diff, hok, hc⟩ := process_closed h hne aInfo
    refine ⟨d', step_of_process hok, hc.known h hne, ?_, hc.netFits hnet⟩
    cases htype : aInfo.link.type with
    | consumer => exact (hg.removeNode aInfo.uuid).congr (hc.consumer htype)
    | kernel => exact (hc.kernel htype).wellFormed (hc.netFits hnet)
  | netInfo aFrom aNet =>
    have hne : aFrom ≠ invalidDescriptor := ne_invalid hvalid
    obtain ⟨d', diff, hok, hs, hr⟩ := process_netInfo h aFrom aNet
    refine ⟨d', step_of_process hok, hs.known h hne, ?_, hs.netFits hnet hfits⟩
    cases hchanged : diff.isValid with
    | true => exact (hr.changed hchanged).wellFormed (hs.netFits hnet hfits)
    | false =>
      rw [hr.same hchanged]
      exact hg

end InfoData

namespace NextHop

/-- The latency of an info that is opened is of sixteen bits. -/
def InfoFits : Core.Descriptors.Op → Prop
  | .open_ _ aInfo => aInfo.latency < 2 ^ 16
  | _ => True

instance : (op : Core.Descriptors.Op) → Decidable (InfoFits op)
  | .open_ _ _ => inferInstanceAs (Decidable (_ < _))
  | .create | .close _ => isTrue trivial

def TableOk (t : Core.Descriptors) (op : Core.Descriptors.Op) : Prop :=
  t.OpensOnce op ∧ t.KeepsOthers op ∧ InfoFits op

instance (t : Core.Descriptors) (op : Core.Descriptors.Op) : Decidable (TableOk t op) :=
  inferInstanceAs (Decidable (_ ∧ _ ∧ _))

/-- The search for ways neither overflows nor comes to a vertex again by a shorter way. -/
structure Asks (aMe : Id) (g : RouteGraph) : Prop where
  isVertex : g.isVertex aMe.uuid = true
  noOverflow : RouteGraph.NoOverflow g aMe.uuid
  neverShorter : RouteGraph.NeverShorter g aMe.uuid

def StepOk (aMe : Id) (s : NextHop) : Op → Prop
  | .table op => TableOk s.table op
  | .handle _ => True
  | .netInfo aFrom aNet => isValidDescriptor aFrom = true ∧ NetFits aNet.net
  | .query _ => Asks aMe s.data.graph

/-- The open descriptor of the first vertex of a shortest way, or nothing. -/
def IsNext (aMe : Id) (aTo : Uuid) (s : NextHop) (next : List Descriptor) : Prop :=
  ∃ path, RouteGraph.IsShortest s.data.graph aMe.uuid aTo path ∧ match path with
    | [] => next = []
    | u :: _ => (∃ d i, s.table.IsOpen d i ∧ i.program.id.uuid = u ∧ next = [d]) ∨
      next = [] ∧ ∀ d i, s.table.IsOpen d i → i.program.id.uuid ≠ u

/-- A table of which every descriptor is found, with latencies that fit. -/
structure TableInv (t : Core.Descriptors) : Prop where
  inv : t.Inv
  fits : ∀ d i, t.IsOpen d i → i.latency < 2 ^ 16

theorem TableInv.indexed {t : Core.Descriptors} (h : TableInv t) : Indexed t := by
  refine ⟨fun d hd => (h.inv.valid d hd).2, fun u d hu => ?_⟩
  obtain ⟨i, hi, -⟩ := h.inv.known u d hu
  have hfind : t.descriptors.find d = some (some i) := hi
  rw [hfind]
  exact ⟨(h.inv.valid d (by rw [hfind]; rfl)).2, fun heq => nomatch heq⟩

theorem tableInv_new : TableInv Core.Descriptors.new :=
  ⟨Core.Descriptors.new_inv, fun _ _ h => (nomatch h)⟩

theorem TableInv.step {t : Core.Descriptors} (h : TableInv t) {op : Core.Descriptors.Op}
    (hop : TableOk t op) : ∃ t', Core.Descriptors.step op t = .ok t' ∧ TableInv t' := by
  obtain ⟨honce, hothers, hfits⟩ := hop
  have hinv := h.inv.step honce hothers
  cases op with
  | create =>
    refine ⟨_, rfl, hinv, fun d i hi => h.fits d i ?_⟩
    exact (Core.Descriptors.isOpen_mCreate h.inv.find_last).1 hi
  | open_ aVal aInfo =>
    refine ⟨_, rfl, hinv, fun d i hi => ?_⟩
    change (t.mOpen aVal aInfo).IsOpen d i at hi
    unfold Core.Descriptors.mOpen at hi
    split at hi
    · exact h.fits d i hi
    · rcases Core.Descriptors.isOpen_mOpenInfo.1 hi with ⟨-, rfl⟩ | ⟨-, hi⟩
      · exact hfits
      · exact h.fits d i hi
  | close aVal =>
    refine ⟨_, rfl, hinv, fun d i hi => ?_⟩
    change (t.mClose aVal).IsOpen d i at hi
    unfold Core.Descriptors.mClose at hi
    split at hi
    · exact h.fits d i hi
    · exact h.fits d i (Core.Descriptors.isOpen_erase.1 hi).2
    · exact h.fits d i (Core.Descriptors.isOpen_erase.1 hi).2

/-- What the table publishes is told with a valid descriptor. -/
theorem TableInv.publishedBy {t : Core.Descriptors} (h : TableInv t)
    {op : Core.Descriptors.Op} (hop : TableOk t op) :
    ∀ e ∈ publishedBy t op, e.Valid ∧ e.Fits := by
  have hvalid : ∀ d, (t.descriptors.find d).isSome = true → isValidDescriptor d = true :=
    fun d hd => decide_eq_true (Int.le_of_lt (Int.lt_trans Int.zero_lt_one (h.inv.valid d hd).1))
  intro e he
  cases op with
  | create => exact absurd he List.not_mem_nil
  | open_ aVal aInfo =>
    unfold UdtKernel.publishedBy at he
    cases hfind : t.descriptors.find aVal with
    | none =>
      simp only [hfind] at he
      exact absurd he List.not_mem_nil
    | some o =>
      simp only [hfind] at he
      rw [List.mem_singleton.1 he]
      exact ⟨hvalid aVal (by rw [hfind]; rfl), hop.2.2⟩
  | close aVal =>
    unfold UdtKernel.publishedBy at he
    cases hfind : t.descriptors.find aVal with
    | none =>
      simp only [hfind] at he
      exact absurd he List.not_mem_nil
    | some o =>
      cases o with
      | none =>
        simp only [hfind] at he
        exact absurd he List.not_mem_nil
      | some i =>
        simp only [hfind] at he
        rw [List.mem_singleton.1 he]
        exact ⟨hvalid aVal (by rw [hfind]; rfl), trivial⟩

/-- What every step preserves of the service, the table and the events between them. -/
structure Healthy (aMe : Id) (s : NextHop) : Prop where
  kept : Kept aMe s
  ofTable : OfTable s.published
  known : InfoData.Known aMe.uuid s.data
  wellFormed : s.data.graph.WellFormed
  net : NetFits s.data.fnet.net
  table : TableInv s.table
  events : ∀ e ∈ s.published, e.Valid ∧ e.Fits

variable {aMe : Id} {s : NextHop} {op : Op}

theorem Healthy.sound (h : Healthy aMe s) : s.data.graph.Sound := ⟨h.wellFormed, h.kept.fresh⟩

/-- The open descriptor of the first vertex of a way is found. -/
theorem TableInv.firstOf {t : Core.Descriptors} (h : TableInv t) (path : List Uuid) :
    ∃ next, NextHop.firstOf t path = .ok next ∧ match path with
      | [] => next = []
      | u :: _ => (∃ d i, t.IsOpen d i ∧ i.program.id.uuid = u ∧ next = [d]) ∨
        next = [] ∧ ∀ d i, t.IsOpen d i → i.program.id.uuid ≠ u := by
  cases path with
  | nil => exact ⟨[], rfl, rfl⟩
  | cons u rest =>
    obtain ⟨-, d, hd, hfound⟩ := h.inv.findsUuid u
    refine ⟨if d = invalidDescriptor then [] else [d], ?_, ?_⟩
    · rw [NextHop.firstOf, hd]
    · rcases hfound with ⟨i, hi, hu⟩ | ⟨rfl, hnone⟩
      · have hfind : t.descriptors.find d = some (some i) := hi
        have hlt := (h.inv.valid d (by rw [hfind]; rfl)).1
        have hne : d ≠ invalidDescriptor := by
          rintro rfl
          exact absurd hlt (by decide)
        exact .inl ⟨d, i, hi, hu, by rw [if_neg hne]⟩
      · exact .inr ⟨if_pos rfl, hnone⟩

/-- What is computed anew is the next descriptor on a shortest way. -/
theorem Healthy.isNext (h : Healthy aMe s) (hasks : Asks aMe s.data.graph) (aTo : Uuid) :
    ∃ next, s.uncached.answer aMe aTo = .ok next ∧ IsNext aMe aTo s next := by
  obtain ⟨path, g', hpath, hshort⟩ :=
    h.sound.isShortest hasks.isVertex hasks.noOverflow hasks.neverShorter aTo
  obtain ⟨next, hnext, hspec⟩ := h.table.firstOf path
  have hfresh : s.data.graph.resetCache.Fresh := RouteGraph.fresh_of_empty rfl
  refine ⟨next, ?_, path, hshort, hspec⟩
  rw [answer_uncached, RouteGraph.shortestPath_congr h.kept.fresh hfresh rfl, hpath]
  exact hnext

theorem nextDestinations_ok (h : Healthy aMe s) (hasks : Asks aMe s.data.graph) (aTo : Uuid) :
    ∃ r, s.nextDestinations aMe aTo = .ok r ∧ r.2.table = s.table ∧
      r.2.published = s.published ∧ r.2.data.graph.vertices = s.data.graph.vertices ∧
      r.2.data.fnet = s.data.fnet ∧ r.2.data.uuidFrom = s.data.uuidFrom := by
  unfold nextDestinations
  cases hfind : s.data.destinationCache.find aTo with
  | some next => exact ⟨_, rfl, rfl, rfl, rfl, rfl, rfl⟩
  | none =>
    obtain ⟨path, g', hpath, -⟩ :=
      h.sound.isShortest hasks.isVertex hasks.noOverflow hasks.neverShorter aTo
    obtain ⟨next, hnext, -⟩ := h.table.firstOf path
    have hvertices := (RouteGraph.shortestPath_fresh h.kept.fresh hpath).2
    refine ⟨(next, { s with data := { s.data with
      graph := g'
      destinationCache := s.data.destinationCache.insert aTo next } }), ?_, rfl, rfl, hvertices,
      rfl, rfl⟩
    simp only [hpath, bind, Except.bind, hnext]
    rfl

theorem Healthy.step (h : Healthy aMe s) (hop : StepOk aMe s op) :
    ∃ s', NextHop.step aMe op s = .ok s' ∧ Healthy aMe s' := by
  cases op with
  | table op =>
    obtain ⟨t, ht, htable⟩ := h.table.step hop
    have hstep : NextHop.step aMe (.table op) s =
        .ok { s with table := t, published := s.published ++ publishedBy s.table op } := by
      change s.changeTable op = _
      unfold changeTable
      rw [ht]
    obtain ⟨hkept, htab⟩ := step_kept h.kept h.ofTable hstep
    refine ⟨_, hstep, hkept, htab, h.known, h.wellFormed, h.net, htable, fun e he => ?_⟩
    rcases List.mem_append.1 he with he | he
    · exact h.events e he
    · exact h.table.publishedBy hop e he
  | handle n =>
    cases hget : s.published[n]? with
    | none =>
      refine ⟨s, ?_, h⟩
      change s.handleEvent aMe n = _
      unfold handleEvent
      rw [hget]
    | some e =>
      obtain ⟨hvalid, hfits⟩ := h.events e (List.mem_of_getElem? hget)
      obtain ⟨d, hd, hknown, hgraph, hnet⟩ :=
        InfoData.step_fits h.known h.wellFormed h.net hvalid hfits
      have hstep : NextHop.step aMe (.handle n) s =
          .ok { s with published := s.published.eraseIdx n, data := d } := by
        change s.handleEvent aMe n = _
        unfold handleEvent
        rw [hget]
        dsimp only
        rw [hd]
        rfl
      obtain ⟨hkept, htab⟩ := step_kept h.kept h.ofTable hstep
      exact ⟨_, hstep, hkept, htab, hknown, hgraph, hnet, h.table,
        fun e he => h.events e (List.mem_of_mem_eraseIdx he)⟩
  | netInfo aFrom aNet =>
    obtain ⟨hvalid, hfits⟩ := hop
    obtain ⟨d, hd, hknown, hgraph, hnet⟩ := InfoData.step_fits h.known h.wellFormed h.net
      (e := .netInfo aFrom aNet) hvalid hfits
    have hstep : NextHop.step aMe (.netInfo aFrom aNet) s = .ok { s with data := d } := by
      change (s.data.step aMe (.netInfo aFrom aNet) >>= _) = _
      rw [hd]
      rfl
    obtain ⟨hkept, htab⟩ := step_kept h.kept h.ofTable hstep
    exact ⟨_, hstep, hkept, htab, hknown, hgraph, hnet, h.table, h.events⟩
  | query aTo =>
    obtain ⟨r, hr, htable, hpublished, hvertices, hfnet, hfrom⟩ := nextDestinations_ok h hop aTo
    have hstep : NextHop.step aMe (.query aTo) s = .ok r.2 := by
      change (s.nextDestinations aMe aTo >>= _) = _
      rw [hr]
      rfl
    obtain ⟨hkept, htab⟩ := step_kept h.kept h.ofTable hstep
    refine ⟨_, hstep, hkept, htab, ?_, h.wellFormed.congr hvertices, ?_, ?_, ?_⟩
    · refine ⟨fun k => ?_, fun {k from_} hk => ?_, ?_⟩
      · rw [hfnet, hfrom]
        exact h.known.keys k
      · rw [hfrom] at hk
        exact h.known.nonempty hk
      · rw [hfrom]
        exact h.known.own
    · rw [hfnet]
      exact h.net
    · rw [htable]
      exact h.table
    · rw [hpublished]
      exact h.events

/-- `MStart` keeps nothing. -/
theorem start_kept {t : Core.Descriptors} (ht : Indexed t) (aMe : Id) :
    ∃ s, start aMe t = .ok s ∧ Kept aMe s ∧ OfTable s.published ∧ s.published = [] ∧
      s.table = t ∧ InfoData.Started aMe (linksOfTable t).entries s.data := by
  obtain ⟨d, hd, hstarted⟩ := InfoData.start_spec aMe (linksOfTable t)
  have hcache : Outcome (fun _ => True) (fun d : InfoData => d.destinationCache = .empty)
      (InfoData.start aMe (linksOfTable t)) := by
    unfold InfoData.start
    refine Outcome.bind (P := fun d : InfoData => d.destinationCache = .empty) ?_ fun d₀ hd₀ => ?_
    · unfold InfoData.init
      refine (Outcome.trivial _).bind fun _ _ => ?_
      exact Outcome.ok rfl
    · refine Outcome.foldlM hd₀ fun d hd e _ => ?_
      unfold InfoData.putConsumerToMyInfo
      cases InfoData.changeMyInfo aMe.uuid d fun links => links.insertNew e.2.uuid e.2.link with
      | error _ => trivial
      | ok net => exact hd
  rw [hd] at hcache
  refine ⟨⟨t, [], d⟩, ?_, ⟨ht, ?_, fun _ aTo next hfind => ?_⟩, fun e he => ?_, rfl, rfl, hstarted⟩
  · unfold start
    rw [hd]
    rfl
  · refine RouteGraph.fresh_of_empty ?_
    change d.graph.pathes = .empty
    rw [hstarted.graph]
    rfl
  · have hnone : d.destinationCache.find aTo = none := by
      rw [show d.destinationCache = .empty from hcache]
      rfl
    exact nomatch hnone.symm.trans hfind
  · exact absurd he List.not_mem_nil

theorem start_healthy {t : Core.Descriptors} (ht : TableInv t) (aMe : Id) :
    ∃ s, start aMe t = .ok s ∧ Healthy aMe s := by
  obtain ⟨s, hs, hkept, hof, hnil, htable, hstarted⟩ := start_kept ht.indexed aMe
  refine ⟨s, hs, hkept, hof, hstarted.known, ?_, ?_, htable ▸ ht, fun e he => ?_⟩
  · rw [hstarted.graph]
    exact RouteGraph.wellFormed_empty
  · rw [netFits_iff]
    intro k infos hk v link hv
    obtain ⟨my, hmy, hlinks⟩ := hstarted.own
    have hme : k = aMe.uuid := by
      by_contra hne
      exact nomatch (hstarted.others k hne).symm.trans hk
    subst hme
    cases hmy.symm.trans hk
    rw [hlinks] at hv
    obtain ⟨e, he, rfl⟩ := Option.map_eq_some_iff.1 hv
    have hfind := (SortedMap.mem_entries_iff ..).1 (List.mem_of_find?_eq_some he)
    unfold linksOfTable at hfind
    rw [SortedMap.find_mapVal, SortedMap.find_filter] at hfind
    obtain ⟨o, ho, heq⟩ := Option.map_eq_some_iff.1 hfind
    obtain ⟨ho, hsome⟩ := Option.filter_eq_some_iff.1 ho
    obtain ⟨i, rfl⟩ := Option.isSome_iff_exists.1 hsome
    rw [← heq]
    exact ht.fits e.1 i ho
  · rw [hnil] at he
    exact absurd he List.not_mem_nil

/-- The answers are those that are computed anew once the published events have been handled; and
    they are the next descriptors on shortest ways, if no program has another descriptor when one
    of it is closed and no search comes to a vertex again by a shorter way. -/
theorem runAll_nextDestinations (aMe : Id) (before : List Core.Descriptors.Op) (ops : List Op) :
    (∀ t s₀ s, runAll Core.Descriptors.step before .new = .ok t → start aMe t = .ok s₀ →
      runAll (step aMe) ops s₀ = .ok s → s.published = [] →
      ∀ aTo, s.answer aMe aTo = s.uncached.answer aMe aTo) ∧
    (EveryStep Core.Descriptors.step TableOk before .new →
      (∀ t ∈ (runAll Core.Descriptors.step before .new).toOption,
        ∀ s₀ ∈ (start aMe t).toOption, EveryStep (step aMe) (StepOk aMe) ops s₀) →
      ∃ t s₀ s, runAll Core.Descriptors.step before .new = .ok t ∧ start aMe t = .ok s₀ ∧
        runAll (step aMe) ops s₀ = .ok s ∧ (s.published = [] → Asks aMe s.data.graph →
          ∀ aTo, ∃ next, s.answer aMe aTo = .ok next ∧ IsNext aMe aTo s next)) := by
  constructor
  · intro t s₀ s ht hs₀ hs hnil aTo
    have htable : Outcome (fun _ => True) Indexed (runAll Core.Descriptors.step before .new) := by
      refine runAll_outcome (P := fun _ _ => True) (fun t op h _ => ?_) Indexed.new
        (everyStep_of_forall (fun _ _ => trivial) before _)
      cases hop : Core.Descriptors.step op t with
      | error e => exact nomatch e
      | ok t' => exact (h.step hop).1
    rw [ht] at htable
    obtain ⟨s₁, hs₁, hkept, hof, -⟩ := start_kept htable aMe
    cases hs₀.symm.trans hs₁
    have hrun : Outcome (fun _ => True) (fun s => Kept aMe s ∧ OfTable s.published)
        (runAll (step aMe) ops s₀) := by
      refine runAll_outcome (P := fun _ _ => True) (fun s op h _ => ?_) ⟨hkept, hof⟩
        (everyStep_of_forall (fun _ _ => trivial) ops _)
      cases hop : step aMe op s with
      | error e => trivial
      | ok s' => exact step_kept h.1 h.2 hop
    rw [hs] at hrun
    exact hrun.1.answer_eq hnil aTo
  · intro hbefore hops
    obtain ⟨t, ht, htable⟩ := runAll_of_step (fun t op h hop => h.step hop) tableInv_new hbefore
    obtain ⟨s₀, hs₀, hhealthy₀⟩ := start_healthy htable aMe
    obtain ⟨s, hs, hhealthy⟩ := runAll_of_step (fun s op h hop => h.step hop) hhealthy₀
      (hops t (by rw [ht]; rfl) s₀ (by rw [hs₀]; rfl))
    refine ⟨t, s₀, s, ht, hs₀, hs, fun hnil hasks aTo => ?_⟩
    rw [hhealthy.kept.answer_eq hnil]
    exact hhealthy.isNext hasks aTo

def kernelOf (uuid : Uuid) (latency : ℕ) : Core.DescriptorInfo :=
  { Core.DescriptorInfo.default with
    program := { Core.DescriptorInfo.default.program with id := ⟨uuid, []⟩, type := 1 }
    latency := latency }

def linkOps : List Op :=
  [.table .create, .table (.open_ 2 (kernelOf 7 1)), .handle 0, .query 7, .query 7]

theorem asks_of_label {g : RouteGraph} (hvertex : g.isVertex 1 = true)
    (hlabel : ∀ e ∈ g.vertices.entries, ∀ e' ∈ e.2.entries,
      e'.2 + ((40 - 5 * e'.1 : ℕ) : ℤ) ≤ (40 - 5 * e.1 : ℕ))
    (hnever : RouteGraph.NeverShorter g 1) : Asks ⟨1, ['k']⟩ g :=
  ⟨hvertex, RouteGraph.noOverflow_of_label (fun v => ((40 - 5 * v : ℕ) : ℤ)) hlabel
    (fun v => Int.natCast_nonneg _) (by decide), hnever⟩

theorem runAll_nextDestinations_link : ∃ t s₀ s,
    runAll Core.Descriptors.step [] .new = .ok t ∧ start ⟨1, ['k']⟩ t = .ok s₀ ∧
      runAll (step ⟨1, ['k']⟩) linkOps s₀ = .ok s ∧
      ∀ aTo, ∃ next, s.answer ⟨1, ['k']⟩ aTo = .ok next ∧ IsNext ⟨1, ['k']⟩ aTo s next := by
  obtain ⟨t, s₀, s, ht, hs₀, hs, h⟩ := (runAll_nextDestinations ⟨1, ['k']⟩ [] linkOps).2
    trivial (by
      intro t ht s₀ hs₀
      cases ht
      cases hs₀
      refine ⟨?_, fun s₁ hs₁ => ?_⟩
      · change TableOk _ _
        decide +kernel
      cases hs₁
      refine ⟨?_, fun s₂ hs₂ => ?_⟩
      · change TableOk _ _
        decide +kernel
      cases hs₂
      refine ⟨trivial, fun s₃ hs₃ => ?_⟩
      cases hs₃
      refine ⟨asks_of_label rfl (by decide +kernel) (by decide +kernel), fun s₄ hs₄ => ?_⟩
      cases hs₄
      exact ⟨asks_of_label rfl (by decide +kernel) (by decide +kernel), fun _ _ => trivial⟩)
  cases ht
  cases hs₀
  cases hs
  exact ⟨_, _, _, rfl, rfl, rfl,
    h rfl (asks_of_label rfl (by decide +kernel) (by decide +kernel))⟩

/-- Three kernels, of which the last has a way of 9 from here, of 7 by the first and of 2 by the
    second. -/
def threeWaysOps : List Op :=
  [.table .create, .table (.open_ 2 (kernelOf 2 2)), .table .create,
    .table (.open_ 3 (kernelOf 3 1)), .table .create, .table (.open_ 4 (kernelOf 4 9)),
    .handle 0, .handle 0, .handle 0,
    .netInfo 2 ⟨SortedMap.empty.insert 2 ⟨[], SortedMap.empty.insert 4 ⟨[], .kernel, 5⟩, 1⟩, 1⟩,
    .netInfo 3 ⟨SortedMap.empty.insert 3 ⟨[], SortedMap.empty.insert 4 ⟨[], .kernel, 1⟩, 1⟩, 1⟩]

def fromFirst (v : Uuid) : Option ℤ := if v = 2 then some 0 else if v = 4 then some 5 else none

theorem five_le_of_walk {g : RouteGraph}
    (hg : ∀ e ∈ g.vertices.entries, ∀ d ∈ fromFirst e.1, ∀ e' ∈ e.2.entries,
      ∃ d' ∈ fromFirst e'.1, d' ≤ d + e'.2) {p : List Uuid} {total : ℤ}
    (h : Walk g.edge 2 p 4 total) : 5 ≤ total := by
  have hlabel : ∀ u d, fromFirst u = some d → ∀ v c, g.edge u v = some c →
      ∃ d', fromFirst v = some d' ∧ d' ≤ d + c := by
    intro u d hu v c huv
    obtain ⟨edges, hedges, hmem⟩ := RouteGraph.mem_of_edge huv
    exact hg (u, edges) ((SortedMap.mem_entries_iff ..).2 hedges) d hu (v, c) hmem
  obtain ⟨d, hd, hle⟩ := h.label_le hlabel rfl
  cases hd
  omega

/-- The ways to the last kernel go from the first one with the way of 7 instead of 2. -/
theorem isNext_false_of_decrease : ∃ t s₀ s,
    runAll Core.Descriptors.step [] .new = .ok t ∧ start ⟨1, ['k']⟩ t = .ok s₀ ∧
      runAll (step ⟨1, ['k']⟩) threeWaysOps s₀ = .ok s ∧ s.published = [] ∧
      s.answer ⟨1, ['k']⟩ 4 = .ok [2] ∧ ¬IsNext ⟨1, ['k']⟩ 4 s [2] := by
  refine ⟨_, _, _, rfl, rfl, rfl, rfl, rfl, ?_⟩
  rintro ⟨path, hshort, hnext⟩
  cases path with
  | nil => exact nomatch hnext
  | cons u rest =>
    rcases hnext with ⟨d, i, hi, rfl, hd⟩ | ⟨hnil, -⟩
    swap
    · exact nomatch hnil
    cases hd
    cases hi
    obtain ⟨total, hwalk, -, hleast⟩ := hshort.shortest (List.cons_ne_nil _ _)
    have hle : total ≤ 2 :=
      hleast ⟨[3, 4], .cons (v := 3) (c := 1) rfl (.cons (v := 4) (c := 1) rfl (.nil 4))⟩
    cases hwalk with
    | @cons _ _ _ _ c d hedge hwalk =>
      have hc : some c = some 2 := hedge.symm.trans rfl
      have hfive := five_le_of_walk (by decide +kernel) hwalk
      cases hc
      omega

end NextHop

end UdtKernel
