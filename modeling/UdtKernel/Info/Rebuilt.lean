import UdtKernel.Info.Newer
import UdtKernel.Info.Reports

set_option autoImplicit false

/-! The graph is always the one that would be built from the net anew. -/

namespace UdtKernel.InfoData
open UdtKernel.Lib

/-- The graph is the one that `MRebuildGraph` would make. -/
def Rebuilt (d : InfoData) : Prop :=
  ∃ r, rebuildGraph d = .ok r ∧ r.graph.vertices = d.graph.vertices

/-- The graph has been changed since the start. -/
def Built (d : InfoData) : Prop := d.graph.vertices.entries ≠ []

/-- A graph that has not been built yet is built by a kernel that leaves, a snapshot that is
    noticed, or by an opened descriptor when none that was open before leads elsewhere or with
    another latency. A consumer that leaves is no kernel, and no other kernel links it. -/
def GraphFits (aMe : Id) (d : InfoData) : Event → Prop
  | .opened _ aInfo => Built d ∨ ∀ e ∈ d.fnet.net.entries, e.1 = aMe.uuid ∧
      ∀ l ∈ e.2.customerInfo.entries, l.1 = aInfo.uuid ∧ l.2.latency = aInfo.link.latency
  | .closed _ aInfo => aInfo.link.type = .kernel ∨ Built d ∧ aInfo.uuid ≠ aMe.uuid ∧
      ∀ e ∈ d.fnet.net.entries, e.1 ≠ aInfo.uuid ∧
        (e.1 ≠ aMe.uuid → e.2.customerInfo.find aInfo.uuid = none)
  | .netInfo aFrom aNet => Built d ∨ Noticed aNet.net aFrom d

theorem IsGraphOf.rebuilt {d : InfoData} (h : IsGraphOf d.fnet.net d.graph) : Rebuilt d := by
  obtain ⟨g, hg, hgraph⟩ := rebuildGraph_spec d
  exact ⟨_, hg, hgraph.unique h⟩

theorem latencyOf_eq {net : SortedMap Uuid KernelInfos} {k v : Uuid} {infos : KernelInfos}
    (h : net.find k = some infos) :
    latencyOf net k v = (infos.customerInfo.find v).map fun link => (link.latency : ℤ) := by
  unfold latencyOf
  rw [h, Option.bind_some]

theorem latencyOf_none {net : SortedMap Uuid KernelInfos} {k v : Uuid} (h : net.find k = none) :
    latencyOf net k v = none := by
  unfold latencyOf
  rw [h, Option.bind_none]

theorem Opened.latencyOf_net {aMe : Id} {aFrom : Descriptor} {aInfo : DescriptorInfo}
    {d d' : InfoData} {diff : KernelInfosDiff} (ho : Opened aMe aFrom aInfo d d' diff)
    (h : Known aMe.uuid d) (k v : Uuid) : latencyOf d'.fnet.net k v =
      if k = aMe.uuid ∧ v = aInfo.uuid then
        some ((latencyOf d.fnet.net k v).getD aInfo.link.latency)
      else latencyOf d.fnet.net k v := by
  obtain ⟨my, hmy⟩ := h.own_find
  by_cases hme : k = aMe.uuid
  · subst hme
    have hown : d'.fnet.net.find aMe.uuid =
        some (relinked my (my.customerInfo.insertNew aInfo.uuid aInfo.link)) := by
      rw [ho.net, if_pos rfl, hmy]
      rfl
    rw [latencyOf_eq hown, latencyOf_eq hmy]
    change ((my.customerInfo.insertNew aInfo.uuid aInfo.link).find v).map _ = _
    rw [SortedMap.find_insertNew]
    by_cases hv : v = aInfo.uuid
    · subst hv
      rw [if_pos rfl, if_pos ⟨rfl, rfl⟩]
      cases my.customerInfo.find aInfo.uuid <;> rfl
    · simp [hv]
  · rw [if_neg fun hand => hme hand.1]
    have hnet := ho.net k
    rw [if_neg hme] at hnet
    split_ifs at hnet with hk
    · cases hold : d.fnet.net.find k with
      | some infos =>
        rw [hold] at hnet
        rw [latencyOf_eq hnet, latencyOf_eq hold]
        rfl
      | none =>
        rw [hold] at hnet
        rw [latencyOf_eq hnet, latencyOf_none hold]
        rfl
    · unfold InfoData.latencyOf
      rw [hnet]

theorem Opened.inNet {aMe : Id} {aFrom : Descriptor} {aInfo : DescriptorInfo} {d d' : InfoData}
    {diff : KernelInfosDiff} (ho : Opened aMe aFrom aInfo d d' diff) (h : Known aMe.uuid d)
    (u : Uuid) : InNet d'.fnet.net u ↔
      InNet d.fnet.net u ∨ u = aMe.uuid ∨ u = aInfo.uuid := by
  obtain ⟨my, hmy⟩ := h.own_find
  have hnet : (d'.fnet.net.find u).isSome = true ↔ (d.fnet.net.find u).isSome = true ∨
      aInfo.link.type = .kernel ∧ u = aInfo.uuid := by
    rw [ho.net]
    by_cases hme : u = aMe.uuid
    · rw [if_pos hme, hme, hmy]
      simp
    · rw [if_neg hme]
      split_ifs with hk <;> simp [hk]
  unfold InNet
  simp only [hnet, ho.latencyOf_net h]
  constructor
  · rintro ((hu | ⟨-, hu⟩) | ⟨k, hk⟩)
    · exact .inl (.inl hu)
    · exact .inr (.inr hu)
    · split_ifs at hk with hand
      · exact .inr (.inr hand.2)
      · exact .inl (.inr ⟨k, hk⟩)
  · rintro ((hu | ⟨k, hk⟩) | rfl | rfl)
    · exact .inl (.inl hu)
    · refine .inr ⟨k, ?_⟩
      split_ifs
      · rfl
      · exact hk
    · exact .inl (.inl (by rw [hmy]; rfl))
    · exact .inr ⟨aMe.uuid, by rw [if_pos ⟨rfl, rfl⟩]; rfl⟩

/-- A descriptor that is opened adds its edge to the graph. -/
theorem Opened.isGraphOf {aMe : Id} {aFrom : Descriptor} {aInfo : DescriptorInfo}
    {d d' : InfoData} {diff : KernelInfosDiff} (ho : Opened aMe aFrom aInfo d d' diff)
    (h : Known aMe.uuid d) (hg : IsGraphOf d.fnet.net d.graph ∨ ¬ Built d)
    (hfits : GraphFits aMe d (.opened aFrom aInfo)) : IsGraphOf d'.fnet.net d'.graph := by
  have hsingle : ∀ v, (SortedMap.empty.insert aInfo.uuid (aInfo.link.latency : ℤ)).find v =
      if v = aInfo.uuid then some (aInfo.link.latency : ℤ) else none := fun v =>
    SortedMap.find_insert ..
  have hadded : ∀ u, d'.graph.isVertex u = true ↔
      d.graph.isVertex u = true ∨ u = aMe.uuid ∨ u = aInfo.uuid := fun u => by
    rw [ho.graph.isVertex, hsingle]
    split_ifs with hu <;> simp [hu]
  rcases hg with hg | hnot
  · refine ⟨fun u v => ?_, fun u => ?_⟩
    · rw [ho.graph.edge, ho.latencyOf_net h, hsingle, hg.edge, hg.edge]
      by_cases hu : u = aMe.uuid
      · subst hu
        by_cases hv : v = aInfo.uuid
        · subst hv
          cases latencyOf d.fnet.net aMe.uuid aInfo.uuid <;> simp
        · simp [hv]
      · simp [hu]
    · rw [hadded, ho.inNet h, hg.isVertex]
  · have halone := hfits.resolve_left hnot
    unfold Built at hnot
    push Not at hnot
    have hempty : ∀ u, d.graph.vertices.find u = none := fun u => by
      unfold SortedMap.find
      rw [hnot]
      rfl
    have honly : ∀ {k infos}, d.fnet.net.find k = some infos → k = aMe.uuid ∧
        ∀ {v link}, infos.customerInfo.find v = some link →
          v = aInfo.uuid ∧ link.latency = aInfo.link.latency := by
      intro k infos hk
      obtain ⟨hme, hlinks⟩ := halone (k, infos) ((SortedMap.mem_entries_iff ..).2 hk)
      exact ⟨hme, fun {v link} hv => hlinks (v, link) ((SortedMap.mem_entries_iff ..).2 hv)⟩
    have hlatency : ∀ {u v w}, latencyOf d.fnet.net u v = some w →
        u = aMe.uuid ∧ v = aInfo.uuid ∧ w = aInfo.link.latency := by
      intro u v w huv
      obtain ⟨infos, hu, hv⟩ := Option.bind_eq_some_iff.1 huv
      obtain ⟨link, hlink, rfl⟩ := Option.map_eq_some_iff.1 hv
      obtain ⟨hme, hlinks⟩ := honly hu
      obtain ⟨hv, hl⟩ := hlinks hlink
      exact ⟨hme, hv, congrArg _ hl⟩
    refine ⟨fun u v => ?_, fun u => ?_⟩
    · rw [ho.graph.edge, ho.latencyOf_net h, hsingle]
      have hnone : ∀ u, d.graph.edge u v = none := fun u => by
        rw [RouteGraph.edge, hempty]
        rfl
      rw [hnone, hnone, Option.none_or]
      cases hold : latencyOf d.fnet.net u v with
      | none => by_cases hu : u = aMe.uuid <;> by_cases hv : v = aInfo.uuid <;> simp [hu, hv]
      | some w =>
        obtain ⟨hu, hv, hw⟩ := hlatency hold
        simp [hu, hv, hw]
    · have hvertex : ¬ d.graph.isVertex u = true := by
        rw [RouteGraph.isVertex, hempty]
        simp
      rw [hadded, ho.inNet h]
      refine ⟨fun hor => .inr (hor.resolve_left hvertex), fun hor => .inr ?_⟩
      rcases hor with (hu | ⟨k, hk⟩) | hor
      · obtain ⟨infos, hu⟩ := Option.isSome_iff_exists.1 hu
        exact .inl (honly hu).1
      · obtain ⟨w, hw⟩ := Option.isSome_iff_exists.1 hk
        exact .inr (hlatency hw).2.1
      · exact hor

/-- When a consumer is closed of which only the own kernel knows, its links are no longer known. -/
theorem Closed.latencyOf_consumer {aMe : Id} {aFrom : Descriptor} {aInfo : DescriptorInfo}
    {d d' : InfoData} {diff : KernelInfosDiff} (hc : Closed aMe aFrom aInfo d d' diff)
    (h : Known aMe.uuid d) (htype : aInfo.link.type = .consumer) (hne : aInfo.uuid ≠ aMe.uuid)
    (hothers : ∀ e ∈ d.fnet.net.entries, e.1 ≠ aInfo.uuid ∧
      (e.1 ≠ aMe.uuid → e.2.customerInfo.find aInfo.uuid = none)) (k v : Uuid) :
    latencyOf d'.fnet.net k v =
      if k = aInfo.uuid ∨ v = aInfo.uuid then none else latencyOf d.fnet.net k v := by
  obtain ⟨my, hmy⟩ := h.own_find
  by_cases hk : k = aMe.uuid
  · have hown : d'.fnet.net.find aMe.uuid =
        some (relinked my (my.customerInfo.erase aInfo.uuid)) := by
      rw [hc.net, if_pos rfl, hmy]
      rfl
    subst hk
    rw [latencyOf_eq hown, latencyOf_eq hmy]
    change ((my.customerInfo.erase aInfo.uuid).find v).map _ = _
    rw [SortedMap.find_erase]
    by_cases hv : v = aInfo.uuid
    · simp [hv]
    · simp [hv, Ne.symm hne]
  · have hnet : d'.fnet.net.find k = d.fnet.net.find k := by
      rw [hc.net, if_neg hk]
      simp [htype]
    have hsame : latencyOf d'.fnet.net k v = latencyOf d.fnet.net k v := by
      unfold latencyOf
      rw [hnet]
    rw [hsame]
    cases hfind : d.fnet.net.find k with
    | none => rw [latencyOf_none hfind, ite_self]
    | some infos =>
      obtain ⟨hkne, hunlinked⟩ := hothers _ ((SortedMap.mem_entries_iff ..).2 hfind)
      split_ifs with hor
      · rw [hor.resolve_left hkne, latencyOf_eq hfind, hunlinked hk]
        rfl
      · rfl

/-- And it is no longer in the net. -/
theorem Closed.inNet_consumer {aMe : Id} {aFrom : Descriptor} {aInfo : DescriptorInfo}
    {d d' : InfoData} {diff : KernelInfosDiff} (hc : Closed aMe aFrom aInfo d d' diff)
    (h : Known aMe.uuid d) (htype : aInfo.link.type = .consumer)
    (hnone : d.fnet.net.find aInfo.uuid = none)
    (hlatency : ∀ k v, latencyOf d'.fnet.net k v =
      if k = aInfo.uuid ∨ v = aInfo.uuid then none else latencyOf d.fnet.net k v) (u : Uuid) :
    InNet d'.fnet.net u ↔ InNet d.fnet.net u ∧ u ≠ aInfo.uuid := by
  obtain ⟨my, hmy⟩ := h.own_find
  have hfound : ∀ u, (d'.fnet.net.find u).isSome = (d.fnet.net.find u).isSome := by
    intro u
    rw [hc.net]
    by_cases hu : u = aMe.uuid
    · rw [if_pos hu, hu, hmy]
      rfl
    · rw [if_neg hu]
      simp [htype]
  unfold InNet
  simp only [hfound, hlatency]
  constructor
  · rintro (hu | ⟨k, hk⟩)
    · refine ⟨.inl hu, fun heq => ?_⟩
      rw [heq, hnone] at hu
      cases hu
    · split_ifs at hk with hor
      · cases hk
      · exact ⟨.inr ⟨k, hk⟩, fun heq => hor (.inr heq)⟩
  · rintro ⟨hu | ⟨k, hk⟩, hneq⟩
    · exact .inl hu
    · refine .inr ⟨k, ?_⟩
      rw [if_neg]
      · exact hk
      · rintro (rfl | heq)
        · rw [latencyOf_none hnone] at hk
          cases hk
        · exact hneq heq

/-- A consumer that is closed takes its vertex with it. -/
theorem Closed.isGraphOf {aMe : Id} {aFrom : Descriptor} {aInfo : DescriptorInfo}
    {d d' : InfoData} {diff : KernelInfosDiff} (hc : Closed aMe aFrom aInfo d d' diff)
    (h : Known aMe.uuid d) (hg : IsGraphOf d.fnet.net d.graph ∨ ¬ Built d)
    (hfits : GraphFits aMe d (.closed aFrom aInfo)) : IsGraphOf d'.fnet.net d'.graph := by
  rcases hfits with hkernel | ⟨hbuilt, hne, hothers⟩
  · exact hc.kernel hkernel
  cases htype : aInfo.link.type with
  | kernel => exact hc.kernel htype
  | consumer =>
    replace hg := hg.resolve_right (not_not_intro hbuilt)
    have hnone : d.fnet.net.find aInfo.uuid = none := by
      cases hk : d.fnet.net.find aInfo.uuid with
      | none => rfl
      | some infos => exact absurd rfl (hothers _ ((SortedMap.mem_entries_iff ..).2 hk)).1
    have hlatency := hc.latencyOf_consumer h htype hne hothers
    have hin := hc.inNet_consumer h htype hnone hlatency
    have hvertices := hc.consumer htype
    cases hv : d.graph.isVertex aInfo.uuid with
    | true =>
      have hremoved := RouteGraph.removeNode_spec hv
      refine ⟨fun u v => ?_, fun u => ?_⟩
      · rw [hlatency, ← hg.edge, ← hremoved.edge, RouteGraph.edge, RouteGraph.edge, hvertices]
      · rw [hin, ← hg.isVertex, ← hremoved.isVertex, RouteGraph.isVertex, RouteGraph.isVertex,
          hvertices]
    | false =>
      rw [RouteGraph.removeNode_of_not_isVertex hv] at hvertices
      have hout : ¬ InNet d.fnet.net aInfo.uuid := by
        rw [← hg.isVertex, hv]
        exact Bool.false_ne_true
      refine ⟨fun u v => ?_, fun u => ?_⟩
      · have hedge : d'.graph.edge u v = latencyOf d.fnet.net u v := by
          rw [← hg.edge, RouteGraph.edge, RouteGraph.edge, hvertices]
        rw [hedge, hlatency]
        split_ifs with hor
        · rcases hor with rfl | rfl
          · exact latencyOf_none hnone
          · rw [← Option.not_isSome_iff_eq_none]
            exact fun hsome => hout (.inr ⟨u, hsome⟩)
        · rfl
      · rw [hin, ← hg.isVertex, RouteGraph.isVertex, hvertices]
        refine (and_iff_left_of_imp fun hu => ?_).symm
        rintro rfl
        exact hout ((hg.isVertex _).1 hu)

/-- A snapshot that is noticed makes the graph anew. -/
theorem Synced.isGraphOf {aMe : Uuid} {aFrom : Descriptor} {aNet : KernelInfosArray}
    {d d' : InfoData} {diff : KernelInfosDiff} (hs : Synced aFrom aNet.net d d' diff)
    (hr : Redrawn d d' diff) (h : Known aMe d) (hg : IsGraphOf d.fnet.net d.graph ∨ ¬ Built d)
    (hfits : Built d ∨ Noticed aNet.net aFrom d) : IsGraphOf d'.fnet.net d'.graph := by
  cases hvalid : diff.isValid with
  | true => exact hr.changed hvalid
  | false =>
    have hnot : ¬ Noticed aNet.net aFrom d := by
      rw [← hs.isValid_iff h, hvalid]
      exact Bool.false_ne_true
    rw [hs.same hvalid, hr.same hvalid]
    exact hg.resolve_right (not_not_intro (hfits.resolve_right hnot))

theorem step_isGraphOf {aMe : Id} {d : InfoData} {e : Event} (h : Known aMe.uuid d)
    (hg : IsGraphOf d.fnet.net d.graph ∨ ¬ Built d) (he : e.Valid ∧ GraphFits aMe d e) :
    ∃ d', step aMe e d = .ok d' ∧ Known aMe.uuid d' ∧ IsGraphOf d'.fnet.net d'.graph := by
  obtain ⟨hvalid, hfits⟩ := he
  cases e with
  | opened aFrom aInfo =>
    obtain ⟨d', diff, hok, ho⟩ := process_opened h aFrom aInfo
    exact ⟨d', step_of_process hok, ho.known h, ho.isGraphOf h hg hfits⟩
  | closed aFrom aInfo =>
    have hne : aFrom ≠ invalidDescriptor := ne_invalid hvalid
    obtain ⟨d', diff, hok, hc⟩ := process_closed h hne aInfo
    exact ⟨d', step_of_process hok, hc.known h hne, hc.isGraphOf h hg hfits⟩
  | netInfo aFrom aNet =>
    have hne : aFrom ≠ invalidDescriptor := ne_invalid hvalid
    obtain ⟨d', diff, hok, hs, hr⟩ := process_netInfo h aFrom aNet
    exact ⟨d', step_of_process hok, hs.known h hne, hs.isGraphOf hr h hg hfits⟩

theorem run_rebuilt (aMe : Id) (aDescriptors : SortedMap Descriptor DescriptorInfo)
    (events : List Event) (hne : events ≠ [])
    (hevents : ∀ d ∈ (start aMe aDescriptors).toOption,
      EveryStep (step aMe) (fun d e => e.Valid ∧ GraphFits aMe d e) events d) :
    ∃ d₀ d, start aMe aDescriptors = .ok d₀ ∧ runAll (step aMe) events d₀ = .ok d ∧
      Rebuilt d := by
  obtain ⟨d₀, hstart, hstarted⟩ := start_spec aMe aDescriptors
  have hunbuilt : ¬ Built d₀ := by
    unfold Built
    rw [hstarted.graph]
    exact not_not_intro rfl
  cases events with
  | nil => exact absurd rfl hne
  | cons e events =>
    obtain ⟨he, hrest⟩ := hevents d₀ (by rw [hstart]; rfl)
    obtain ⟨d₁, hok, h₁, hg₁⟩ := step_isGraphOf hstarted.known (.inr hunbuilt) he
    have hrun : Outcome (fun _ => False)
        (fun d => Known aMe.uuid d ∧ IsGraphOf d.fnet.net d.graph)
        (runAll (step aMe) events d₁) := by
      refine runAll_outcome (fun d e hd he => ?_) ⟨h₁, hg₁⟩ (hrest d₁ (by rw [hok]; rfl))
      obtain ⟨d', hok', hd'⟩ := step_isGraphOf hd.1 (.inl hd.2) he
      rw [hok']
      exact hd'
    cases hr : runAll (step aMe) events d₁ with
    | error e =>
      rw [hr] at hrun
      exact absurd hrun id
    | ok d =>
      rw [hr] at hrun
      refine ⟨d₀, d, hstart, ?_, hrun.2.rebuilt⟩
      rw [runAll_cons_of_ok hok]
      exact hr

theorem run_rebuilt_opened : ∃ d₀ d, start ⟨1, ['k']⟩ someDescriptors = .ok d₀ ∧
    runAll (step ⟨1, ['k']⟩) someEvents d₀ = .ok d ∧ Rebuilt d := by
  refine run_rebuilt ⟨1, ['k']⟩ someDescriptors someEvents (by decide) ?_
  intro d hd
  cases hd
  refine ⟨⟨by decide, .inr ⟨5, .inl ⟨rfl, rfl⟩⟩⟩, fun d hd => ?_⟩
  cases hd
  refine ⟨⟨by decide, .inl (List.cons_ne_nil _ _)⟩, fun d hd => ?_⟩
  cases hd
  refine ⟨⟨by decide, .inl (List.cons_ne_nil _ _)⟩, fun d hd => ?_⟩
  cases hd
  refine ⟨⟨by decide, .inr ⟨List.cons_ne_nil _ _, by decide, by decide⟩⟩, fun d hd => ?_⟩
  cases hd
  exact ⟨⟨by decide, .inl rfl⟩, fun _ _ => trivial⟩

/-- The link of a descriptor that was open at the start is not in the graph; and a consumer that
    leaves is taken out of it although another kernel links it as well. -/
theorem rebuilt_false_of_start :
    (∃ d₀ d, start ⟨1, ['k']⟩ (SortedMap.empty.insert 2 (programInfo 7 .consumer 1)) = .ok d₀ ∧
      runAll (step ⟨1, ['k']⟩) [.opened 3 (programInfo 8 .consumer 1)] d₀ = .ok d ∧
      ¬ Rebuilt d) ∧
    ∃ d₀ d, start ⟨1, ['k']⟩ .empty = .ok d₀ ∧
      runAll (step ⟨1, ['k']⟩) [.opened 2 (programInfo 7 .consumer 1), .netInfo 3 (kernelNet 1 1),
        .closed 2 (programInfo 7 .consumer 1)] d₀ = .ok d ∧
      ¬ Rebuilt d := by
  constructor
  · refine ⟨_, _, rfl, rfl, ?_⟩
    rintro ⟨r, hr, hvertices⟩
    cases hr
    revert hvertices
    decide
  · refine ⟨_, _, rfl, rfl, ?_⟩
    rintro ⟨r, hr, hvertices⟩
    cases hr
    revert hvertices
    decide

end UdtKernel.InfoData
