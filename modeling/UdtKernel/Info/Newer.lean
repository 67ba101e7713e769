import UdtKernel.Info.Known

set_option autoImplicit false

/-! A snapshot replaces the infos that are older than those it has. -/

namespace UdtKernel.InfoData
open UdtKernel.Lib

/-- A snapshot has a kernel that the net has not, omits one that no other descriptor knows, or
    has a newer entry that links other programs. -/
def Noticed (aNet : SortedMap Uuid KernelInfos) (aFrom : Descriptor) (d : InfoData) : Prop :=
  ∃ k, (aNet.find k).isSome = true ∧ d.fnet.net.find k = none ∨
    aNet.find k = none ∧ d.uuidFrom.find k = some {aFrom} ∨
    ∃ new old, aNet.find k = some new ∧ d.fnet.net.find k = some old ∧
      old.indexNumber < new.indexNumber ∧
      ∃ u, (new.customerInfo.find u).isSome ≠ (old.customerInfo.find u).isSome

/-- A snapshot has an entry that is newer than that of the net. -/
def HasNewer (aNet : SortedMap Uuid KernelInfos) (d : InfoData) : Prop :=
  ∃ k new old, aNet.find k = some new ∧ d.fnet.net.find k = some old ∧
    old.indexNumber < new.indexNumber

def Replaces (aNet : SortedMap Uuid KernelInfos) (d d' : InfoData) : Prop :=
  ∀ k new old, aNet.find k = some new → d.fnet.net.find k = some old →
    old.indexNumber < new.indexNumber → d'.fnet.net.find k = some new

def NotOlder (d d' : InfoData) : Prop :=
  ∀ k old new, d.fnet.net.find k = some old → d'.fnet.net.find k = some new →
    old.indexNumber ≤ new.indexNumber

/-- The number of the own kernel can be increased. -/
def NoWrap (aMe : Id) (d : InfoData) : Event → Prop
  | .opened _ _ | .closed _ _ => ∀ my ∈ d.fnet.net.find aMe.uuid, my.indexNumber + 1 < 2 ^ 32
  | .netInfo _ _ => True

theorem without_entries {links others : KernLinks} : (without links others).entries = [] ↔
    ∀ u, (links.find u).isSome = true → (others.find u).isSome = true := by
  have hfind : ∀ u, (without links others).find u =
      (links.find u).filter fun _ => (others.find u).isNone := fun u => SortedMap.find_filter ..
  constructor
  · intro hnil u hu
    by_contra hnone
    obtain ⟨link, hlink⟩ := Option.isSome_iff_exists.1 hu
    rw [Option.not_isSome_iff_eq_none] at hnone
    have hmem : (u, link) ∈ (without links others).entries := by
      rw [SortedMap.mem_entries_iff, hfind, hlink, hnone]
      rfl
    rw [hnil] at hmem
    cases hmem
  · intro hsub
    refine List.eq_nil_iff_forall_not_mem.2 ?_
    rintro ⟨u, link⟩ hmem
    rw [SortedMap.mem_entries_iff, hfind, Option.filter_eq_some_iff] at hmem
    obtain ⟨hlink, hnone⟩ := hmem
    have hsome := hsub u (by rw [hlink]; rfl)
    rw [Option.isNone_iff_eq_none] at hnone
    rw [hnone] at hsome
    cases hsome

/-- When something is reported about a kernel. -/
theorem items_ne_nil {aFrom : Descriptor} {k : Uuid} {new old : Option KernelInfos}
    {from_ : Option (Finset Descriptor)} (h : from_.isSome = old.isSome) :
    (openedOf k new old ≠ [] ∨ closedOf aFrom k new old from_ ≠ []) ↔
      new.isSome = true ∧ old = none ∨ new = none ∧ from_ = some {aFrom} ∨
      ∃ n o, new = some n ∧ old = some o ∧ o.indexNumber < n.indexNumber ∧
        ∃ u, (n.customerInfo.find u).isSome ≠ (o.customerInfo.find u).isSome := by
  cases new with
  | none =>
    cases old with
    | none =>
      have hfrom : from_ = none := by simpa using h
      simp [openedOf, closedOf, hfrom]
    | some o => simp [openedOf, closedOf]
  | some n =>
    cases old with
    | none => simp [openedOf]
    | some o =>
      by_cases hnewer : o.indexNumber < n.indexNumber
      · have hdiff : (∃ u, (n.customerInfo.find u).isSome ≠ (o.customerInfo.find u).isSome) ↔
            (without n.customerInfo o.customerInfo).entries ≠ [] ∨
            (without o.customerInfo n.customerInfo).entries ≠ [] := by
          rw [ne_eq, ne_eq, without_entries, without_entries]
          push Not
          rw [← exists_or]
          refine exists_congr fun u => ?_
          cases n.customerInfo.find u <;> cases o.customerInfo.find u <;> simp
        simp only [openedOf, closedOf, hnewer, true_and, Option.some.injEq, reduceCtorEq,
          and_false, false_or, false_and, exists_eq_left', exists_and_left, hdiff]
        split_ifs <;> simp_all
      · simp only [openedOf, closedOf, hnewer, false_and, if_false]
        simp [hnewer]

theorem Synced.isValid_iff {aMe : Uuid} {aFrom : Descriptor} {new : SortedMap Uuid KernelInfos}
    {d d' : InfoData} {diff : KernelInfosDiff} (hs : Synced aFrom new d d' diff)
    (h : Known aMe d) : diff.isValid = true ↔ Noticed new aFrom d := by
  have hitems : diff.isValid = true ↔ ∃ k, openedOf k (new.find k) (d.fnet.net.find k) ≠ [] ∨
      closedOf aFrom k (new.find k) (d.fnet.net.find k) (d.uuidFrom.find k) ≠ [] := by
    constructor
    · intro hvalid
      by_contra hnone
      push Not at hnone
      obtain ⟨opened, closed⟩ := diff
      have hopened : opened = [] := List.eq_nil_iff_forall_not_mem.2 fun i hi => by
        obtain ⟨k, hk⟩ := (hs.opened i).1 hi
        rw [(hnone k).1] at hk
        cases hk
      have hclosed : closed = [] := List.eq_nil_iff_forall_not_mem.2 fun i hi => by
        obtain ⟨k, hk⟩ := (hs.closed i).1 hi
        rw [(hnone k).2] at hk
        cases hk
      rw [hopened, hclosed] at hvalid
      cases hvalid
    · rintro ⟨k, hk⟩
      by_contra hvalid
      rw [Bool.not_eq_true] at hvalid
      obtain ⟨hopened, hclosed⟩ := hs.opened_eq hvalid k
      rcases hk with hk | hk
      · exact hk hopened
      · exact hk hclosed
  rw [hitems]
  exact exists_congr fun k => items_ne_nil (h.keys k)

theorem Synced.replaces_iff {aMe : Uuid} {aFrom : Descriptor}
    {new : SortedMap Uuid KernelInfos} {d d' : InfoData} {diff : KernelInfosDiff}
    (hs : Synced aFrom new d d' diff) (h : Known aMe d) :
    Replaces new d d' ↔ (HasNewer new d → Noticed new aFrom d) := by
  rw [← hs.isValid_iff h]
  cases hvalid : diff.isValid with
  | true =>
    refine iff_of_true (fun k n o hn ho hlt => ?_) fun _ => rfl
    rw [hs.changed hvalid, hn, ho]
    simp [newNet, hlt]
  | false =>
    constructor
    · rintro hreplaces ⟨k, n, o, hn, ho, hlt⟩
      have hk := hreplaces k n o hn ho hlt
      rw [hs.same hvalid, ho] at hk
      cases hk
      omega
    · intro himp k n o hn ho hlt
      cases himp ⟨k, n, o, hn, ho, hlt⟩

/-- A snapshot that has been merged changes nothing. -/
theorem merged_again (aFrom : Descriptor) (k : Uuid) (new : Option KernelInfos)
    {old old' : Option KernelInfos} {from_ : Option (Finset Descriptor)}
    (h : from_.isSome = old.isSome)
    (hold : old' = newNet aFrom new old from_ ∨
      old' = old ∧ openedOf k new old = [] ∧ closedOf aFrom k new old from_ = []) :
    openedOf k new old' = [] ∧ closedOf aFrom k new old' (newFrom aFrom new old from_) = [] ∧
      newFrom aFrom new old' (newFrom aFrom new old from_) = newFrom aFrom new old from_ := by
  cases new with
  | none =>
    cases old with
    | none =>
      have hnone : old' = none := by simpa [newNet, openedOf, closedOf] using hold
      simp [hnone, openedOf, closedOf, newFrom]
    | some o =>
      obtain ⟨f, rfl⟩ := Option.isSome_iff_exists.1 h
      by_cases hlast : f = {aFrom}
      · have hnone : old' = none := by simpa [newNet, closedOf, hlast] using hold
        simp [hnone, openedOf, closedOf, newFrom, hlast]
      · have hsome : old' = some o := by simpa [newNet, openedOf, closedOf, hlast] using hold
        have hne : f.erase aFrom ≠ {aFrom} := fun heq =>
          Finset.notMem_erase aFrom f (heq ▸ Finset.mem_singleton_self aFrom)
        simp [hsome, openedOf, closedOf, newFrom, hlast, hne]
  | some n =>
    cases old with
    | none =>
      have hsome : old' = some n := by simpa [newNet, openedOf] using hold
      simp [hsome, openedOf, closedOf, newFrom]
    | some o =>
      rcases hold with rfl | ⟨rfl, hopened, hclosed⟩
      · have hnot : ¬ (if o.indexNumber < n.indexNumber then n else o).indexNumber <
            n.indexNumber := by
          split_ifs with hlt
          · exact lt_irrefl _
          · exact hlt
        simp only [newNet, openedOf, closedOf, newFrom, hnot, false_and, if_false]
        exact ⟨trivial, trivial, trivial⟩
      · exact ⟨hopened, hclosed, rfl⟩

theorem Synced.again {aMe : Uuid} {aFrom : Descriptor} {new : SortedMap Uuid KernelInfos}
    {d d₁ d₂ : InfoData} {diff₁ diff₂ : KernelInfosDiff} (h : Known aMe d)
    (h₁ : Synced aFrom new d d₁ diff₁) (h₂ : Synced aFrom new d₁ d₂ diff₂) :
    d₂.fnet = d₁.fnet ∧ d₂.uuidFrom = d₁.uuidFrom ∧ diff₂ = .empty := by
  have hagain := fun k => by
    refine merged_again aFrom k (new.find k) (h.keys k) (?_ : d₁.fnet.net.find k = _ ∨ _)
    cases hvalid : diff₁.isValid with
    | true => exact .inl (h₁.changed hvalid k)
    | false => exact .inr ⟨by rw [h₁.same hvalid], h₁.opened_eq hvalid k⟩
  have hempty : diff₂ = .empty := by
    obtain ⟨opened, closed⟩ := diff₂
    have hopened : opened = [] := List.eq_nil_iff_forall_not_mem.2 fun i hi => by
      obtain ⟨k, hk⟩ := (h₂.opened i).1 hi
      rw [(hagain k).1] at hk
      cases hk
    have hclosed : closed = [] := List.eq_nil_iff_forall_not_mem.2 fun i hi => by
      obtain ⟨k, hk⟩ := (h₂.closed i).1 hi
      rw [h₁.from_, (hagain k).2.1] at hk
      cases hk
    rw [hopened, hclosed]
    rfl
  refine ⟨h₂.same (by rw [hempty]; rfl), SortedMap.ext_find fun k => ?_, hempty⟩
  rw [h₂.from_, h₁.from_, (hagain k).2.2]

/-- The number of the own kernel wraps around when it is the greatest. -/
theorem relinked_le {my : KernelInfos} (links : KernLinks) :
    my.indexNumber ≤ (relinked my links).indexNumber ↔ my.indexNumber + 1 < 2 ^ 32 := by
  change my.indexNumber ≤ (my.indexNumber + 1) % 2 ^ 32 ↔ _
  omega

theorem Opened.notOlder_iff {aMe : Id} {aFrom : Descriptor} {aInfo : DescriptorInfo}
    {d d' : InfoData} {diff : KernelInfosDiff} (ho : Opened aMe aFrom aInfo d d' diff)
    (h : Known aMe.uuid d) : NotOlder d d' ↔ NoWrap aMe d (.opened aFrom aInfo) := by
  obtain ⟨my, hmy⟩ := h.own_find
  have hown : d'.fnet.net.find aMe.uuid =
      some (relinked my (my.customerInfo.insertNew aInfo.uuid aInfo.link)) := by
    rw [ho.net, if_pos rfl, hmy]
    rfl
  constructor
  · intro hle my' hmy'
    obtain rfl : my = my' := Option.some.inj (hmy.symm.trans hmy')
    exact (relinked_le _).1 (hle _ _ _ hmy hown)
  · intro hwrap k old new hold hnew
    by_cases hme : k = aMe.uuid
    · subst hme
      obtain rfl : my = old := Option.some.inj (hmy.symm.trans hold)
      obtain rfl := Option.some.inj (hown.symm.trans hnew)
      exact (relinked_le _).2 (hwrap _ hmy)
    · rw [ho.net, if_neg hme, hold] at hnew
      split_ifs at hnew <;> cases hnew <;> exact le_refl _

theorem Closed.notOlder_iff {aMe : Id} {aFrom : Descriptor} {aInfo : DescriptorInfo}
    {d d' : InfoData} {diff : KernelInfosDiff} (hc : Closed aMe aFrom aInfo d d' diff)
    (h : Known aMe.uuid d) : NotOlder d d' ↔ NoWrap aMe d (.closed aFrom aInfo) := by
  obtain ⟨my, hmy⟩ := h.own_find
  have hown : d'.fnet.net.find aMe.uuid =
      some (relinked my (my.customerInfo.erase aInfo.uuid)) := by
    rw [hc.net, if_pos rfl, hmy]
    rfl
  constructor
  · intro hle my' hmy'
    obtain rfl : my = my' := Option.some.inj (hmy.symm.trans hmy')
    exact (relinked_le _).1 (hle _ _ _ hmy hown)
  · intro hwrap k old new hold hnew
    by_cases hme : k = aMe.uuid
    · subst hme
      obtain rfl : my = old := Option.some.inj (hmy.symm.trans hold)
      obtain rfl := Option.some.inj (hown.symm.trans hnew)
      exact (relinked_le _).2 (hwrap _ hmy)
    · rw [hc.net, if_neg hme, hold] at hnew
      split_ifs at hnew
      cases hnew
      exact le_refl _

theorem Synced.notOlder {aFrom : Descriptor} {new : SortedMap Uuid KernelInfos}
    {d d' : InfoData} {diff : KernelInfosDiff} (hs : Synced aFrom new d d' diff) :
    NotOlder d d' := by
  intro k o n ho hn
  cases hvalid : diff.isValid with
  | false =>
    rw [hs.same hvalid, ho] at hn
    cases hn
    exact le_refl _
  | true =>
    rw [hs.changed hvalid, ho] at hn
    cases hnew : new.find k with
    | none =>
      rw [hnew] at hn
      simp only [newNet] at hn
      split_ifs at hn
      cases hn
      exact le_refl _
    | some new =>
      rw [hnew] at hn
      simp only [newNet, Option.some.injEq] at hn
      split_ifs at hn with hlt
      · exact hn ▸ le_of_lt hlt
      · exact hn ▸ le_refl _

theorem process_notOlder {aMe : Id} {d : InfoData} (h : Known aMe.uuid d) {e : Event}
    (he : e.Valid) : ∃ d' diff, process aMe e d = .ok (d', diff) ∧
      (NotOlder d d' ↔ NoWrap aMe d e) := by
  cases e with
  | opened aFrom aInfo =>
    obtain ⟨d', diff, hok, ho⟩ := process_opened h aFrom aInfo
    exact ⟨d', diff, hok, ho.notOlder_iff h⟩
  | closed aFrom aInfo =>
    obtain ⟨d', diff, hok, hc⟩ := process_closed h (ne_invalid he) aInfo
    exact ⟨d', diff, hok, hc.notOlder_iff h⟩
  | netInfo aFrom aNet =>
    obtain ⟨d', diff, hok, hs, -⟩ := process_netInfo h aFrom aNet
    exact ⟨d', diff, hok, iff_of_true hs.notOlder trivial⟩

/-- In every state, merging a snapshot again changes and reports nothing; its newer entries
    replace those of the net exactly when it has none or is noticed; and the number of a kernel
    is never smaller after an event unless that of the own kernel wraps around. -/
theorem run_newer (aMe : Id) (aDescriptors : SortedMap Descriptor DescriptorInfo)
    (events : List Event) (hevents : ∀ e ∈ events, e.Valid) :
    ∃ d₀ d, start aMe aDescriptors = .ok d₀ ∧ runAll (step aMe) events d₀ = .ok d ∧
      (∀ aFrom, isValidDescriptor aFrom = true → ∀ aNet, ∃ d₁ diff₁ d₂ diff₂,
        synchronizeNetInfo aNet aFrom d = .ok (d₁, diff₁) ∧
        synchronizeNetInfo aNet aFrom d₁ = .ok (d₂, diff₂) ∧
        d₂.fnet = d₁.fnet ∧ d₂.uuidFrom = d₁.uuidFrom ∧ diff₂ = .empty ∧
        (Replaces aNet.net d d₁ ↔ (HasNewer aNet.net d → Noticed aNet.net aFrom d))) ∧
      ∀ e, e.Valid → ∃ d' diff, process aMe e d = .ok (d', diff) ∧
        (NotOlder d d' ↔ NoWrap aMe d e) := by
  obtain ⟨d₀, hstart, hstarted⟩ := start_spec aMe aDescriptors
  obtain ⟨d, hrun, h⟩ := run_known hstarted.known hevents
  refine ⟨d₀, d, hstart, hrun, fun aFrom hvalid aNet => ?_, fun e he => process_notOlder h he⟩
  obtain ⟨d₁, diff₁, hok₁, hs₁, -⟩ := synchronizeNetInfo_spec h aNet aFrom
  have h₁ := hs₁.known h (ne_invalid hvalid)
  obtain ⟨d₂, diff₂, hok₂, hs₂, -⟩ := synchronizeNetInfo_spec h₁ aNet aFrom
  obtain ⟨hnet, hfrom, hempty⟩ := hs₁.again h hs₂
  exact ⟨d₁, diff₁, d₂, diff₂, hok₁, hok₂, hnet, hfrom, hempty, hs₁.replaces_iff h⟩

def kernelNet (latency indexNumber : ℕ) : KernelInfosArray :=
  ⟨SortedMap.empty.insert 5
    ⟨['k'], SortedMap.empty.insert 7 ⟨['p'], .consumer, latency⟩, indexNumber⟩, 1⟩

/-- A consumer is linked when the kernel starts. -/
def someDescriptors : SortedMap Descriptor DescriptorInfo :=
  SortedMap.empty.insert 2 ⟨7, ⟨['p'], .consumer, 1⟩⟩

def someEvents : List Event :=
  [.netInfo 4 (kernelNet 1 1), .opened 3 ⟨8, ⟨['q'], .consumer, 1⟩⟩,
    .opened 6 ⟨9, ⟨['l'], .kernel, 2⟩⟩, .closed 3 ⟨8, ⟨['q'], .consumer, 1⟩⟩,
    .closed 6 ⟨9, ⟨['l'], .kernel, 2⟩⟩]

theorem run_newer_kernelNet : ∃ d₀ d, start ⟨1, ['k']⟩ someDescriptors = .ok d₀ ∧
    runAll (step ⟨1, ['k']⟩) someEvents d₀ = .ok d ∧
    (∀ aFrom, isValidDescriptor aFrom = true → ∀ aNet, ∃ d₁ diff₁ d₂ diff₂,
      synchronizeNetInfo aNet aFrom d = .ok (d₁, diff₁) ∧
      synchronizeNetInfo aNet aFrom d₁ = .ok (d₂, diff₂) ∧
      d₂.fnet = d₁.fnet ∧ d₂.uuidFrom = d₁.uuidFrom ∧ diff₂ = .empty ∧
      (Replaces aNet.net d d₁ ↔ (HasNewer aNet.net d → Noticed aNet.net aFrom d))) ∧
    ∀ e, e.Valid → ∃ d' diff, process ⟨1, ['k']⟩ e d = .ok (d', diff) ∧
      (NotOlder d d' ↔ NoWrap ⟨1, ['k']⟩ d e) :=
  run_newer ⟨1, ['k']⟩ someDescriptors someEvents (by decide)

/-- A newer entry in which only a latency is different is dropped. -/
theorem newer_false_of_latency : ∃ d₀ d d' diff, start ⟨1, ['k']⟩ .empty = .ok d₀ ∧
    runAll (step ⟨1, ['k']⟩) [.netInfo 2 (kernelNet 1 1)] d₀ = .ok d ∧
    synchronizeNetInfo (kernelNet 9 2) 2 d = .ok (d', diff) ∧
    ¬ Replaces (kernelNet 9 2).net d d' := by
  refine ⟨_, _, _, _, rfl, rfl, rfl, fun h => ?_⟩
  have hfind := h 5 _ _ rfl rfl (by decide)
  revert hfind
  decide

end UdtKernel.InfoData
