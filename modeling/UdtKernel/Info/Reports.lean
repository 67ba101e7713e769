import Mathlib.Data.Set.BooleanAlgebra
import Mathlib.Data.Set.Basic
import UdtKernel.Info.Known

set_option autoImplicit false

/-! The differences that are published tell exactly what has changed. -/

namespace UdtKernel.InfoData
open UdtKernel.Lib

def linkOf (net : SortedMap Uuid KernelInfos) (k u : Uuid) : Option KernelLink :=
  (net.find k).bind fun infos => infos.customerInfo.find u

/-- What a net can tell of a kernel: that it is there, or that it links a program. -/
inductive Fact where
  | kernel
  | link (u : Uuid)
  deriving DecidableEq

/-- What the net tells of a kernel whose infos are these. -/
def Tells : Option KernelInfos → Fact → Prop
  | none, _ => False
  | some _, .kernel => True
  | some infos, .link u => (infos.customerInfo.find u).isSome = true

def Reports (i : DiffItem) : Fact → Prop
  | .kernel => i.isKernel = true
  | .link u => (i.infos.customerInfo.find u).isSome = true

def facts (net : SortedMap Uuid KernelInfos) : Set (Uuid × Fact) :=
  {p | Tells (net.find p.1) p.2}

def reported (items : List DiffItem) : Set (Uuid × Fact) :=
  {p | ∃ i ∈ items, i.kernel = p.1 ∧ Reports i p.2}

/-- A difference is exact: it leads from one net to the other, and tells nothing twice. -/
structure ExactDiff (net net' : SortedMap Uuid KernelInfos) (diff : KernelInfosDiff) : Prop where
  leads : facts net \ reported diff.closed ∪ reported diff.opened = facts net'
  opened : Disjoint (reported diff.opened) (facts net)
  closed : reported diff.closed ⊆ facts net \ facts net'

/-- A descriptor is opened to a program that is not linked yet, and closed to one that is. -/
def LinkFits (aMe : Id) (d : InfoData) : Event → Prop
  | .opened _ aInfo => linkOf d.fnet.net aMe.uuid aInfo.uuid = none
  | .closed _ aInfo => (linkOf d.fnet.net aMe.uuid aInfo.uuid).isSome = true
  | .netInfo _ _ => True

instance (aMe : Id) (d : InfoData) (e : Event) : Decidable (LinkFits aMe d e) := by
  cases e <;> unfold LinkFits <;> infer_instance

/-- A difference is exact when it is so for every kernel and link. -/
theorem exactDiff_iff {net net' : SortedMap Uuid KernelInfos} {diff : KernelInfosDiff} :
    ExactDiff net net' diff ↔ ∀ p,
      (p ∈ reported diff.opened → p ∉ facts net ∧ p ∈ facts net') ∧
      (p ∈ reported diff.closed → p ∈ facts net ∧ p ∉ facts net') ∧
      (p ∉ reported diff.opened → p ∉ reported diff.closed → (p ∈ facts net ↔ p ∈ facts net')) := by
  constructor
  · intro h p
    have hleads : p ∈ facts net \ reported diff.closed ∪ reported diff.opened ↔ p ∈ facts net' := by
      rw [h.leads]
    rw [Set.mem_union, Set.mem_sdiff] at hleads
    refine ⟨fun ho => ⟨Set.disjoint_left.1 h.opened ho, hleads.1 (.inr ho)⟩,
      fun hc => h.closed hc, fun ho hc => ?_⟩
    rw [← hleads]
    simp [ho, hc]
  · intro h
    refine ⟨Set.ext fun p => ?_, Set.disjoint_left.2 fun p ho => ((h p).1 ho).1,
      fun p hc => (h p).2.1 hc⟩
    obtain ⟨hopened, hclosed, hsame⟩ := h p
    rw [Set.mem_union, Set.mem_sdiff]
    by_cases ho : p ∈ reported diff.opened
    · exact iff_of_true (.inr ho) (hopened ho).2
    · by_cases hc : p ∈ reported diff.closed
      · simp [ho, hc, (hclosed hc).2]
      · simp [ho, hc, hsame ho hc]

theorem without_find (links others : KernLinks) (u : Uuid) :
    (without links others).find u = if (others.find u).isNone then links.find u else none := by
  unfold without
  rw [SortedMap.find_filter]
  cases links.find u with
  | none => simp
  | some link => rw [Option.filter_some]

theorem reports_ite {k : Uuid} {infos : KernelInfos} {newer : Prop} [Decidable newer]
    (h : newer) (links : KernLinks) (f : Fact) :
    (∃ i ∈ if newer ∧ links.entries ≠ [] then [⟨k, { infos with customerInfo := links }, false⟩]
      else [], Reports i f) ↔ Reports ⟨k, { infos with customerInfo := links }, false⟩ f := by
  by_cases hlinks : links.entries = []
  · have hnone : ∀ u, links.find u = none := fun u => by
      unfold SortedMap.find
      rw [hlinks]
      rfl
    cases f <;> simp [h, hlinks, Reports, hnone]
  · simp [h, hlinks]

/-- The items about one kernel that a snapshot makes are exact. -/
theorem items_exact {aFrom : Descriptor} {k : Uuid} (new old : Option KernelInfos)
    (from_ : Option (Finset Descriptor)) (f : Fact) :
    ((∃ i ∈ openedOf k new old, Reports i f) →
      ¬ Tells old f ∧ Tells (newNet aFrom new old from_) f) ∧
    ((∃ i ∈ closedOf aFrom k new old from_, Reports i f) →
      Tells old f ∧ ¬ Tells (newNet aFrom new old from_) f) ∧
    ((¬ ∃ i ∈ openedOf k new old, Reports i f) →
      (¬ ∃ i ∈ closedOf aFrom k new old from_, Reports i f) →
      (Tells old f ↔ Tells (newNet aFrom new old from_) f)) := by
  cases new with
  | none =>
    cases old with
    | none => simp [openedOf, closedOf, newNet]
    | some old =>
      by_cases hlast : from_ = some {aFrom}
      · cases f <;> simp [openedOf, closedOf, newNet, hlast, Reports, Tells]
      · simp [openedOf, closedOf, newNet, hlast]
  | some new =>
    cases old with
    | none => cases f <;> simp [openedOf, closedOf, newNet, Reports, Tells]
    | some old =>
      by_cases hnewer : old.indexNumber < new.indexNumber
      · have hnet : newNet aFrom (some new) (some old) from_ = some new := by
          simp [newNet, hnewer]
        have hopened : (∃ i ∈ openedOf k (some new) (some old), Reports i f) ↔
            Reports ⟨k, { old with customerInfo := without new.customerInfo old.customerInfo },
              false⟩ f := reports_ite hnewer _ f
        have hclosed : (∃ i ∈ closedOf aFrom k (some new) (some old) from_, Reports i f) ↔
            Reports ⟨k, { new with customerInfo := without old.customerInfo new.customerInfo },
              false⟩ f := reports_ite hnewer _ f
        rw [hnet, hopened, hclosed]
        cases f with
        | kernel => simp [Reports, Tells]
        | link u =>
          simp only [Reports, Tells, without_find]
          cases old.customerInfo.find u <;> cases new.customerInfo.find u <;> simp
      · simp [openedOf, closedOf, newNet, hnewer]

theorem openedOf_kernel {k : Uuid} {new old : Option KernelInfos} {i : DiffItem}
    (h : i ∈ openedOf k new old) : i.kernel = k := by
  cases new with
  | none => cases h
  | some new =>
    cases old with
    | none => rw [List.mem_singleton.1 h]
    | some old =>
      simp only [openedOf] at h
      split_ifs at h
      · rw [List.mem_singleton.1 h]
      · cases h

theorem closedOf_kernel {aFrom : Descriptor} {k : Uuid} {new old : Option KernelInfos}
    {from_ : Option (Finset Descriptor)} {i : DiffItem}
    (h : i ∈ closedOf aFrom k new old from_) : i.kernel = k := by
  cases old with
  | none => cases new <;> cases h
  | some old =>
    cases new with
    | none =>
      simp only [closedOf] at h
      split_ifs at h
      · rw [List.mem_singleton.1 h]
      · cases h
    | some new =>
      simp only [closedOf] at h
      split_ifs at h
      · rw [List.mem_singleton.1 h]
      · cases h

theorem Synced.exactDiff {aFrom : Descriptor} {new : SortedMap Uuid KernelInfos}
    {d d' : InfoData} {diff : KernelInfosDiff} (hs : Synced aFrom new d d' diff) :
    ExactDiff d.fnet.net d'.fnet.net diff := by
  rw [exactDiff_iff]
  rintro ⟨k, f⟩
  have hopened : (k, f) ∈ reported diff.opened ↔
      ∃ i ∈ openedOf k (new.find k) (d.fnet.net.find k), Reports i f := by
    constructor
    · rintro ⟨i, hi, hk, hf⟩
      obtain ⟨k', hi⟩ := (hs.opened i).1 hi
      obtain rfl : k' = k := (openedOf_kernel hi).symm.trans hk
      exact ⟨i, hi, hf⟩
    · rintro ⟨i, hi, hf⟩
      exact ⟨i, (hs.opened i).2 ⟨k, hi⟩, openedOf_kernel hi, hf⟩
  have hclosed : (k, f) ∈ reported diff.closed ↔
      ∃ i ∈ closedOf aFrom k (new.find k) (d.fnet.net.find k) (d.uuidFrom.find k),
        Reports i f := by
    constructor
    · rintro ⟨i, hi, hk, hf⟩
      obtain ⟨k', hi⟩ := (hs.closed i).1 hi
      obtain rfl : k' = k := (closedOf_kernel hi).symm.trans hk
      exact ⟨i, hi, hf⟩
    · rintro ⟨i, hi, hf⟩
      exact ⟨i, (hs.closed i).2 ⟨k, hi⟩, closedOf_kernel hi, hf⟩
  rw [hopened, hclosed]
  cases hvalid : diff.isValid with
  | true =>
    have hnet := hs.changed hvalid k
    unfold facts
    simp only [Set.mem_ofPred_eq, hnet]
    exact items_exact _ _ _ f
  | false =>
    obtain ⟨ho, hc⟩ := hs.opened_eq hvalid k
    rw [ho, hc, hs.same hvalid]
    simp

theorem tells_link {net : SortedMap Uuid KernelInfos} {k u : Uuid} :
    Tells (net.find k) (.link u) ↔ (linkOf net k u).isSome = true := by
  unfold linkOf
  cases net.find k <;> simp [Tells]

theorem reports_myLink {aMe : Id} {aInfo : DescriptorInfo} {p : Uuid × Fact} :
    ((myLink aMe aInfo).kernel = p.1 ∧ Reports (myLink aMe aInfo) p.2) ↔
      p = (aMe.uuid, .link aInfo.uuid) := by
  obtain ⟨k, f⟩ := p
  cases f with
  | kernel => simp [myLink, Reports]
  | link v =>
    simp only [myLink, Reports, SortedMap.find_insert, Prod.mk.injEq, Fact.link.injEq]
    refine and_congr eq_comm ?_
    split_ifs with hv <;> simp [hv]

/-- The facts about the own kernel after one of its links has changed. -/
theorem tells_relinked {my : KernelInfos} {links : KernLinks} {u : Uuid}
    (hlinks : ∀ v, v ≠ u → links.find v = my.customerInfo.find v) {f : Fact} (hf : f ≠ .link u) :
    Tells (some (relinked my links)) f ↔ Tells (some my) f := by
  cases f with
  | kernel => exact Iff.rfl
  | link v =>
    change (links.find v).isSome = true ↔ _
    rw [hlinks v fun hv => hf (congrArg Fact.link hv)]
    rfl

theorem Opened.exactDiff_iff {aMe : Id} {aFrom : Descriptor} {aInfo : DescriptorInfo}
    {d d' : InfoData} {diff : KernelInfosDiff} (ho : Opened aMe aFrom aInfo d d' diff)
    (h : Known aMe.uuid d) : ExactDiff d.fnet.net d'.fnet.net diff ↔
      linkOf d.fnet.net aMe.uuid aInfo.uuid = none := by
  obtain ⟨my, hmy⟩ := h.own_find
  have hopened : ∀ p, p ∈ reported diff.opened ↔ p = (aMe.uuid, .link aInfo.uuid) ∨
      (aInfo.link.type = .kernel ∧ d.fnet.net.find aInfo.uuid = none) ∧
        p = (aInfo.uuid, .kernel) := by
    intro p
    constructor
    · rintro ⟨i, hi, hp⟩
      rcases (ho.opened i).1 hi with rfl | ⟨hkernel, hnone, rfl⟩
      · exact .inl (reports_myLink.1 hp)
      · obtain ⟨k, f⟩ := p
        obtain ⟨rfl, hf⟩ := hp
        cases f with
        | kernel => exact .inr ⟨⟨hkernel, hnone⟩, rfl⟩
        | link u => simp [Reports] at hf
    · rintro (rfl | ⟨⟨hkernel, hnone⟩, rfl⟩)
      · exact ⟨_, (ho.opened _).2 (.inl rfl), reports_myLink.2 rfl⟩
      · exact ⟨_, (ho.opened _).2 (.inr ⟨hkernel, hnone, rfl⟩), rfl, rfl⟩
  have hclosed : reported diff.closed = ∅ := by
    unfold reported
    rw [ho.closed]
    simp
  constructor
  · intro hexact
    have hnot := Set.disjoint_left.1 hexact.opened ((hopened _).2 (.inl rfl))
    rw [← Option.not_isSome_iff_eq_none, ← tells_link]
    exact hnot
  · intro hnone
    rw [InfoData.exactDiff_iff]
    rintro ⟨k, f⟩
    rw [hopened, hclosed]
    refine ⟨?_, fun hc => absurd hc (Set.notMem_empty _), fun hnot _ => ?_⟩
    · rintro (heq | ⟨⟨hkernel, hnew⟩, heq⟩)
      · cases heq
        constructor
        · change ¬ Tells _ _
          rw [tells_link, hnone]
          simp
        · change Tells _ _
          rw [ho.net, if_pos rfl, hmy]
          change ((my.customerInfo.insertNew aInfo.uuid aInfo.link).find aInfo.uuid).isSome = true
          rw [SortedMap.find_insertNew, if_pos rfl]
          rfl
      · cases heq
        have hne : aInfo.uuid ≠ aMe.uuid := fun heq => by
          rw [heq, hmy] at hnew
          cases hnew
        constructor
        · change ¬ Tells _ _
          rw [hnew]
          exact id
        · change Tells _ _
          rw [ho.net, if_neg hne, if_pos ⟨hkernel, rfl⟩]
          trivial
    · simp only [not_or, not_and] at hnot
      change Tells _ _ ↔ Tells _ _
      rw [ho.net]
      by_cases hme : k = aMe.uuid
      · subst hme
        rw [if_pos rfl, hmy]
        refine (tells_relinked (u := aInfo.uuid) (fun v hv => ?_) fun hf => ?_).symm
        · rw [SortedMap.find_insertNew, if_neg hv]
        · exact hnot.1 (congrArg (Prod.mk aMe.uuid) hf)
      · rw [if_neg hme]
        split_ifs with hk
        · obtain ⟨hkernel, rfl⟩ := hk
          cases hfind : d.fnet.net.find aInfo.uuid with
          | some infos => rfl
          | none =>
            cases f with
            | kernel => exact absurd rfl (hnot.2 ⟨hkernel, hfind⟩)
            | link u => simp [Tells]
        · rfl

theorem Closed.exactDiff_iff {aMe : Id} {aFrom : Descriptor} {aInfo : DescriptorInfo}
    {d d' : InfoData} {diff : KernelInfosDiff} (hc : Closed aMe aFrom aInfo d d' diff)
    (h : Known aMe.uuid d) (hvalid : aFrom ≠ invalidDescriptor) :
    ExactDiff d.fnet.net d'.fnet.net diff ↔
      (linkOf d.fnet.net aMe.uuid aInfo.uuid).isSome = true := by
  obtain ⟨my, hmy⟩ := h.own_find
  have hopened : reported diff.opened = ∅ := by
    unfold reported
    rw [hc.opened]
    simp
  have hclosed : ∀ p, p ∈ reported diff.closed ↔ p = (aMe.uuid, .link aInfo.uuid) ∨
      aInfo.link.type = .kernel ∧ d.uuidFrom.find p.1 = some {aFrom} ∧
        Tells (d.fnet.net.find p.1) p.2 := by
    intro p
    constructor
    · rintro ⟨i, hi, hp⟩
      rcases (hc.closed i).1 hi with rfl | ⟨hkernel, k, infos, hlast, hk, rfl⟩
      · exact .inl (reports_myLink.1 hp)
      · obtain ⟨k', f⟩ := p
        obtain ⟨rfl, hf⟩ := hp
        refine .inr ⟨hkernel, hlast, ?_⟩
        change Tells (d.fnet.net.find k) f
        rw [hk]
        cases f with
        | kernel => trivial
        | link u => exact hf
    · obtain ⟨k, f⟩ := p
      rintro (heq | ⟨hkernel, hlast, htells⟩)
      · rw [heq]
        exact ⟨_, (hc.closed _).2 (.inl rfl), reports_myLink.2 rfl⟩
      · change Tells (d.fnet.net.find k) f at htells
        cases hk : d.fnet.net.find k with
        | none =>
          rw [hk] at htells
          exact absurd htells id
        | some infos =>
          rw [hk] at htells
          refine ⟨_, (hc.closed _).2 (.inr ⟨hkernel, k, infos, hlast, hk, rfl⟩), rfl, ?_⟩
          cases f with
          | kernel => rfl
          | link u => exact htells
  constructor
  · intro hexact
    have hmem := hexact.closed ((hclosed _).2 (.inl rfl))
    exact tells_link.1 hmem.1
  · intro hsome
    rw [InfoData.exactDiff_iff]
    rintro ⟨k, f⟩
    rw [hopened, hclosed]
    have hnet : k ≠ aMe.uuid → (Tells (d'.fnet.net.find k) f ↔
        ¬ (aInfo.link.type = .kernel ∧ d.uuidFrom.find k = some {aFrom}) ∧
          Tells (d.fnet.net.find k) f) := by
      intro hne
      rw [hc.net, if_neg hne]
      split_ifs with hlast
      · exact iff_of_false id fun hand => hand.1 hlast
      · exact (and_iff_right hlast).symm
    refine ⟨fun ho => absurd ho (Set.notMem_empty _), ?_, fun _ hnot => ?_⟩
    · rintro (heq | ⟨hkernel, hlast, htells⟩)
      · cases heq
        refine ⟨tells_link.2 hsome, ?_⟩
        change ¬ Tells _ _
        rw [hc.net, if_pos rfl, hmy]
        change ¬ ((my.customerInfo.erase aInfo.uuid).find aInfo.uuid).isSome = true
        simp
      · have hne : k ≠ aMe.uuid := fun hme => h.not_last hvalid (hme ▸ hlast)
        refine ⟨htells, fun htells' => ((hnet hne).1 htells').1 ⟨hkernel, hlast⟩⟩
    · simp only [not_or, not_and] at hnot
      change Tells _ _ ↔ Tells _ _
      by_cases hme : k = aMe.uuid
      · subst hme
        rw [hc.net, if_pos rfl, hmy]
        refine (tells_relinked (u := aInfo.uuid) (fun v hv => ?_) fun hf => ?_).symm
        · rw [SortedMap.find_erase, if_neg hv]
        · exact hnot.1 (congrArg (Prod.mk aMe.uuid) hf)
      · rw [hnet hme]
        constructor
        · exact fun htells => ⟨fun hlast => hnot.2 hlast.1 hlast.2 htells, htells⟩
        · exact fun hand => hand.2

theorem process_exactDiff {aMe : Id} {d : InfoData} (h : Known aMe.uuid d) {e : Event}
    (he : e.Valid) : ∃ d' diff, process aMe e d = .ok (d', diff) ∧
      (ExactDiff d.fnet.net d'.fnet.net diff ↔ LinkFits aMe d e) := by
  cases e with
  | opened aFrom aInfo =>
    obtain ⟨d', diff, hok, ho⟩ := process_opened h aFrom aInfo
    exact ⟨d', diff, hok, ho.exactDiff_iff h⟩
  | closed aFrom aInfo =>
    obtain ⟨d', diff, hok, hc⟩ := process_closed h (ne_invalid he) aInfo
    exact ⟨d', diff, hok, hc.exactDiff_iff h (ne_invalid he)⟩
  | netInfo aFrom aNet =>
    obtain ⟨d', diff, hok, hs, -⟩ := process_netInfo h aFrom aNet
    exact ⟨d', diff, hok, iff_of_true hs.exactDiff trivial⟩

theorem run_exactDiff (aMe : Id) (aDescriptors : SortedMap Descriptor DescriptorInfo)
    (events : List Event) (hevents : ∀ e ∈ events, e.Valid) (e : Event) (he : e.Valid) :
    ∃ d₀ d d' diff, start aMe aDescriptors = .ok d₀ ∧
      runAll (step aMe) events d₀ = .ok d ∧ process aMe e d = .ok (d', diff) ∧
      (ExactDiff d.fnet.net d'.fnet.net diff ↔ LinkFits aMe d e) := by
  obtain ⟨d₀, hstart, hstarted⟩ := start_spec aMe aDescriptors
  obtain ⟨d, hrun, hknown⟩ := run_known hstarted.known hevents
  obtain ⟨d', diff, hok, hexact⟩ := process_exactDiff hknown he
  exact ⟨d₀, d, d', diff, hstart, hrun, hok, hexact⟩

/-- A kernel of this name, with one program. -/
def programInfo (uuid : Uuid) (type : ProgramType) (latency : ℕ) : DescriptorInfo :=
  ⟨uuid, ⟨['p'], type, latency⟩⟩

theorem run_exactDiff_close : ∃ d₀ d d' diff, start ⟨1, ['k']⟩ .empty = .ok d₀ ∧
    runAll (step ⟨1, ['k']⟩) [.opened 2 (programInfo 7 .consumer 1)] d₀ = .ok d ∧
    process ⟨1, ['k']⟩ (.closed 2 (programInfo 7 .consumer 1)) d = .ok (d', diff) ∧
    (ExactDiff d.fnet.net d'.fnet.net diff ↔
      LinkFits ⟨1, ['k']⟩ d (.closed 2 (programInfo 7 .consumer 1))) :=
  run_exactDiff ⟨1, ['k']⟩ .empty [.opened 2 (programInfo 7 .consumer 1)] (by decide)
    (.closed 2 (programInfo 7 .consumer 1)) (by decide)

/-- A second descriptor to a program reports the link once more. -/
theorem exactDiff_false_of_second_descriptor : ∃ d₀ d d' diff,
    start ⟨1, ['k']⟩ .empty = .ok d₀ ∧
    runAll (step ⟨1, ['k']⟩) [.opened 2 (programInfo 7 .kernel 1)] d₀ = .ok d ∧
    process ⟨1, ['k']⟩ (.opened 3 (programInfo 7 .kernel 1)) d = .ok (d', diff) ∧
    ¬ ExactDiff d.fnet.net d'.fnet.net diff := by
  refine ⟨_, _, _, _, rfl, rfl, rfl, fun h => ?_⟩
  exact Set.disjoint_left.1 h.opened (show ((1, .link 7) : Uuid × Fact) ∈ _ from
    ⟨myLink ⟨1, ['k']⟩ (programInfo 7 .kernel 1), .head _, rfl, rfl⟩) rfl

end UdtKernel.InfoData
