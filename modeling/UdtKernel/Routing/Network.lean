import UdtKernel.Info.Links
import UdtKernel.Routing.Follow

set_option autoImplicit false

/-! The consumers of the net and the differences that tell of them. -/

namespace UdtKernel
open UdtKernel.Lib UdtKernel.InfoData UdtKernel.RoutingService

def clients (net : SortedMap Uuid KernelInfos) : List (Uuid × Uuid) :=
  net.entries.flatMap fun e => (consumersOf e.2.customerInfo).map fun u => (e.1, u)

theorem mem_clients {net : SortedMap Uuid KernelInfos} {k u : Uuid} :
    (k, u) ∈ clients net ↔ ∃ link, linkOf net k u = some link ∧ link.type = .consumer := by
  unfold clients linkOf
  simp only [List.mem_flatMap, List.mem_map, Prod.mk.injEq, mem_consumersOf]
  constructor
  · rintro ⟨⟨k', infos⟩, hk, u', ⟨link, hlink, htype⟩, rfl, rfl⟩
    rw [SortedMap.mem_entries_iff] at hk
    exact ⟨link, by rw [hk]; exact hlink, htype⟩
  · rintro ⟨link, hlink, htype⟩
    obtain ⟨infos, hk, hlink⟩ := Option.bind_eq_some_iff.1 hlink
    exact ⟨(k, infos), (SortedMap.mem_entries_iff ..).2 hk, u, ⟨link, hlink, htype⟩, rfl, rfl⟩

def KeepTypes (net net' : SortedMap Uuid KernelInfos) : Prop :=
  ∀ e ∈ net.entries, ∀ l ∈ e.2.customerInfo.entries, ∀ link ∈ linkOf net' e.1 l.1,
    link.type = l.2.type

/-- No consumer is linked by two kernels, be it in one net or in both. -/
def OneKernel (net net' : SortedMap Uuid KernelInfos) : Prop :=
  ∀ p ∈ clients net ++ clients net', ∀ q ∈ clients net ++ clients net', p.2 = q.2 → p.1 = q.1

def ValidClients (aMe : Id) (net : SortedMap Uuid KernelInfos) : Prop :=
  ∀ p ∈ clients net, p.2 ≠ 0 ∧ p.2 ≠ aMe.uuid

/-- A consumer has one descriptor, and a program is closed as what it has been opened. -/
def ClientFits (aMe : Id) (net : SortedMap Uuid KernelInfos) : Event → Prop
  | .opened _ aInfo => aInfo.link.type = .consumer → linkOf net aMe.uuid aInfo.uuid = none
  | .closed _ aInfo =>
    ((linkOf net aMe.uuid aInfo.uuid).map KernelLink.type).getD .kernel = aInfo.link.type
  | .netInfo _ _ => True

instance (net net' : SortedMap Uuid KernelInfos) : Decidable (KeepTypes net net') :=
  inferInstanceAs (Decidable (∀ e ∈ _, _))

instance (net net' : SortedMap Uuid KernelInfos) : Decidable (OneKernel net net') :=
  inferInstanceAs (Decidable (∀ p ∈ _, _))

instance (aMe : Id) (net : SortedMap Uuid KernelInfos) : Decidable (ValidClients aMe net) :=
  inferInstanceAs (Decidable (∀ p ∈ _, _))

instance (aMe : Id) (net : SortedMap Uuid KernelInfos) :
    (e : Event) → Decidable (ClientFits aMe net e)
  | .opened _ _ => inferInstanceAs (Decidable (_ → _))
  | .closed _ _ => inferInstanceAs (Decidable (_ = _))
  | .netInfo _ _ => isTrue trivial

theorem KeepTypes.type_eq {net net' : SortedMap Uuid KernelInfos} (h : KeepTypes net net')
    {k u : Uuid} {link link' : KernelLink} (hlink : linkOf net k u = some link)
    (hlink' : linkOf net' k u = some link') : link'.type = link.type := by
  obtain ⟨infos, hk, hu⟩ := Option.bind_eq_some_iff.1 hlink
  exact h (k, infos) ((SortedMap.mem_entries_iff ..).2 hk) (u, link)
    ((SortedMap.mem_entries_iff ..).2 hu) link' hlink'

/-- A consumer of a kernel is among the differences. -/
def ClientIn (items : List DiffItem) (k u : Uuid) : Prop :=
  ∃ i ∈ items, i.kernel = k ∧ u ∈ consumersOf i.infos.customerInfo

theorem mem_clientsOf {items : List DiffItem} {u : Uuid} :
    u ∈ clientsOf items ↔ ∃ k, ClientIn items k u := by
  unfold clientsOf ClientIn
  rw [List.mem_flatMap]
  constructor
  · rintro ⟨i, hi, hu⟩
    exact ⟨i.kernel, i, hi, rfl, hu⟩
  · rintro ⟨k, i, hi, -, hu⟩
    exact ⟨i, hi, hu⟩

/-- A difference tells which consumers a net has more and less than another. -/
structure ClientDiff (net net' : SortedMap Uuid KernelInfos) (diff : KernelInfosDiff) : Prop where
  opened : ∀ {k u}, ClientIn diff.opened k u → (k, u) ∉ clients net ∧ (k, u) ∈ clients net'
  closed : ∀ {k u}, ClientIn diff.closed k u → (k, u) ∈ clients net ∧ (k, u) ∉ clients net'
  same : ∀ {k u}, ¬ClientIn diff.opened k u → ¬ClientIn diff.closed k u →
    ((k, u) ∈ clients net ↔ (k, u) ∈ clients net')
  kernels : (diff.opened.map DiffItem.kernel).Nodup

/-- The consumers of different kernels are different. -/
theorem clientsOf_nodup {items : List DiffItem} (h : (items.map DiffItem.kernel).Nodup)
    (hone : ∀ {k k' u}, ClientIn items k u → ClientIn items k' u → k = k') :
    (clientsOf items).Nodup := by
  unfold clientsOf
  rw [List.nodup_flatMap]
  refine ⟨fun i _ => consumersOf_nodup _, ?_⟩
  refine (List.pairwise_map.1 h).imp_of_mem fun {i j} hi hj hne => ?_
  refine List.disjoint_left.2 fun u hu hu' => hne ?_
  exact hone ⟨i, hi, rfl, hu⟩ ⟨j, hj, rfl, hu'⟩

section Identifiers
variable {aMe : Id} {net net' : SortedMap Uuid KernelInfos} {diff : KernelInfosDiff}

/-- The own kernel and the consumers of the net. -/
def IsProgram (aMe : Id) (net : SortedMap Uuid KernelInfos) (u : Uuid) : Prop :=
  u = aMe.uuid ∨ ∃ k, (k, u) ∈ clients net

theorem ClientDiff.opened_nodup (h : ClientDiff net net' diff) (hone : OneKernel net net') :
    (clientsOf diff.opened).Nodup :=
  clientsOf_nodup h.kernels fun hu hu' =>
    hone _ (List.mem_append_right _ (h.opened hu).2) _
      (List.mem_append_right _ (h.opened hu').2) rfl

theorem ClientDiff.opened_new (h : ClientDiff net net' diff) (hone : OneKernel net net')
    (hvalid : ValidClients aMe net') {u : Uuid} (hu : u ∈ clientsOf diff.opened) :
    ¬IsProgram aMe net u := by
  obtain ⟨k, hu⟩ := mem_clientsOf.1 hu
  obtain ⟨hnot, hmem⟩ := h.opened hu
  rintro (hme | ⟨k', hmem'⟩)
  · exact (hvalid _ hmem).2 hme
  · obtain rfl : k' = k :=
      hone _ (List.mem_append_left _ hmem') _ (List.mem_append_right _ hmem) rfl
    exact hnot hmem'

theorem ClientDiff.closed_valid (h : ClientDiff net net' diff) (hvalid : ValidClients aMe net)
    {u : Uuid} (hu : u ∈ clientsOf diff.closed) : u ≠ 0 ∧ u ≠ aMe.uuid := by
  obtain ⟨k, hu⟩ := mem_clientsOf.1 hu
  exact hvalid _ (h.closed hu).1

theorem ClientDiff.isProgram_iff (h : ClientDiff net net' diff) (hone : OneKernel net net')
    (hvalid : ValidClients aMe net) (u : Uuid) :
    IsProgram aMe net' u ↔
      (IsProgram aMe net u ∨ u ∈ clientsOf diff.opened) ∧ u ∉ clientsOf diff.closed := by
  have hclosed : ∀ {k}, (k, u) ∈ clients net' → u ∉ clientsOf diff.closed := by
    intro k hmem hu
    obtain ⟨k', hu⟩ := mem_clientsOf.1 hu
    obtain ⟨hmem', hnot⟩ := h.closed hu
    obtain rfl : k' = k :=
      hone _ (List.mem_append_left _ hmem') _ (List.mem_append_right _ hmem) rfl
    exact hnot hmem
  constructor
  · rintro (rfl | ⟨k, hmem⟩)
    · exact ⟨.inl (.inl rfl), fun hu => (h.closed_valid hvalid hu).2 rfl⟩
    · refine ⟨?_, hclosed hmem⟩
      by_cases hopened : ClientIn diff.opened k u
      · exact .inr (mem_clientsOf.2 ⟨k, hopened⟩)
      · have hnot : ¬ClientIn diff.closed k u := fun hu => (h.closed hu).2 hmem
        exact .inl (.inr ⟨k, (h.same hopened hnot).2 hmem⟩)
  · rintro ⟨(rfl | ⟨k, hmem⟩) | hopened, hnot⟩
    · exact .inl rfl
    · have hsame : ¬ClientIn diff.opened k u := fun hu => (h.opened hu).1 hmem
      have hstill : ¬ClientIn diff.closed k u := fun hu => hnot (mem_clientsOf.2 ⟨k, hu⟩)
      exact .inr ⟨k, (h.same hsame hstill).1 hmem⟩
    · obtain ⟨k, hu⟩ := mem_clientsOf.1 hopened
      exact .inr ⟨k, (h.opened hu).2⟩

end Identifiers

theorem mem_consumersOf_myLink {aMe : Id} {aInfo : DescriptorInfo} {u : Uuid} :
    u ∈ consumersOf (myLink aMe aInfo).infos.customerInfo ↔
      u = aInfo.uuid ∧ aInfo.link.type = .consumer := by
  simp only [mem_consumersOf, myLink, SortedMap.find_insert]
  split_ifs with hu <;> simp [hu]

theorem InfoData.Opened.clientIn_iff {aMe : Id} {aFrom : Descriptor} {aInfo : DescriptorInfo}
    {d d' : InfoData} {diff : KernelInfosDiff} (ho : Opened aMe aFrom aInfo d d' diff)
    {k u : Uuid} : ClientIn diff.opened k u ↔
      k = aMe.uuid ∧ u = aInfo.uuid ∧ aInfo.link.type = .consumer := by
  constructor
  · rintro ⟨i, hi, rfl, hu⟩
    rcases (ho.opened i).1 hi with rfl | ⟨-, -, rfl⟩
    · exact ⟨rfl, mem_consumersOf_myLink.1 hu⟩
    · cases hu
  · rintro ⟨rfl, hu⟩
    exact ⟨_, (ho.opened _).2 (.inl rfl), rfl, mem_consumersOf_myLink.2 hu⟩

theorem InfoData.Opened.clients_iff {aMe : Id} {aFrom : Descriptor} {aInfo : DescriptorInfo}
    {d d' : InfoData} {diff : KernelInfosDiff} (ho : Opened aMe aFrom aInfo d d' diff)
    (h : Known aMe.uuid d) {k u : Uuid} : (k, u) ∈ clients d'.fnet.net ↔
      (k, u) ∈ clients d.fnet.net ∨ (k = aMe.uuid ∧ u = aInfo.uuid ∧
        aInfo.link.type = .consumer) ∧ linkOf d.fnet.net k u = none := by
  have hlink : linkOf d'.fnet.net k u = if k = aMe.uuid ∧ u = aInfo.uuid then
      some ((linkOf d.fnet.net k u).getD aInfo.link) else linkOf d.fnet.net k u := by
    unfold linkOf
    rw [ho.net]
    by_cases hme : k = aMe.uuid
    · obtain ⟨my, hmy⟩ := h.own_find
      subst hme
      rw [if_pos rfl, hmy]
      change (my.customerInfo.insertNew aInfo.uuid aInfo.link).find u = _
      rw [SortedMap.find_insertNew]
      by_cases hu : u = aInfo.uuid
      · subst hu
        simp
      · simp [hu]
    · simp only [hme, false_and, if_false]
      split_ifs with hk
      · cases d.fnet.net.find k <;> rfl
      · rfl
  rw [mem_clients, mem_clients, hlink]
  split_ifs with hown
  · cases linkOf d.fnet.net k u <;> simp [hown]
  · simp only [← and_assoc, hown, false_and, or_false]

theorem putConsumerToMyInfo_items (aMe : Id) (aFrom : Descriptor) (aNew : DescriptorInfo)
    (d : InfoData) (aAdded : List DiffItem) : Outcome (fun _ => True)
      (fun r => r.2 = aAdded ++ [myLink aMe aNew])
      (putConsumerToMyInfo aMe aFrom aNew d aAdded) :=
  (Outcome.trivial _).bind fun _ _ => rfl

theorem addKernel_items (aInfo : DescriptorInfo) (aFrom : Descriptor) (d : InfoData)
    (aOpened : List DiffItem) : Outcome (fun _ => True)
      (fun r => r.2.2 = aOpened ∨
        r.2.2 = aOpened ++ [⟨aInfo.uuid, ⟨aInfo.link.name, .empty, 0⟩, true⟩])
      (addKernel aInfo aFrom d aOpened) := by
  unfold addKernel
  split
  · unfold putKernel
    split
    · trivial
    · exact .inr rfl
  · exact .inl rfl

/-- The own link is reported first, and then at most the new kernel. -/
theorem process_opened_items (aMe : Id) (aFrom : Descriptor) (aInfo : DescriptorInfo)
    (d : InfoData) : Outcome (fun _ => True)
      (fun r => r.2.opened = [myLink aMe aInfo] ∨ r.2.opened = [myLink aMe aInfo,
        ⟨aInfo.uuid, ⟨aInfo.link.name, .empty, 0⟩, true⟩])
      (process aMe (.opened aFrom aInfo) d) := by
  have hopen : Outcome (fun _ => True) (fun r => r.2.diff.opened = [myLink aMe aInfo] ∨
      r.2.diff.opened = [myLink aMe aInfo, ⟨aInfo.uuid, ⟨aInfo.link.name, .empty, 0⟩, true⟩])
      (handleOpen aMe aFrom aInfo d) := by
    refine (putConsumerToMyInfo_items aMe aFrom aInfo d []).bind fun ⟨d₁, items⟩ hitems => ?_
    obtain rfl : items = [myLink aMe aInfo] := hitems
    let items := fun r : List Descriptor × InfoData × List DiffItem =>
      r.2.2 = [myLink aMe aInfo] ∨
        r.2.2 = [myLink aMe aInfo, ⟨aInfo.uuid, ⟨aInfo.link.name, .empty, 0⟩, true⟩]
    cases aInfo.link.type with
    | consumer =>
      simp only
      refine Outcome.bind (P := items) (.inl rfl) fun r hr => ?_
      exact (Outcome.trivial _).bind fun _ _ => hr
    | kernel =>
      simp only
      refine (addKernel_items aInfo aFrom d₁ [myLink aMe aInfo]).bind fun r hr => ?_
      refine Outcome.bind (P := items) hr fun r hr => ?_
      exact (Outcome.trivial _).bind fun _ _ => hr
  exact hopen.bind fun r hr => hr

theorem mergeStep_items (aFrom : Descriptor) (s : Merge)
    (p : Uuid × Option KernelInfos × Option KernelInfos) : Outcome (fun _ => True)
      (fun s' => s'.opened = s.opened ++ openedOf p.1 p.2.1 p.2.2) (mergeStep aFrom s p) := by
  obtain ⟨k, new, old⟩ := p
  cases new with
  | none =>
    cases old with
    | none => exact (List.append_nil _).symm
    | some old =>
      change Outcome _ _ (popKernel aFrom k old s)
      unfold popKernel
      split
      · trivial
      · split <;> exact (List.append_nil _).symm
  | some new =>
    cases old with
    | none =>
      change Outcome _ _ (putKernel aFrom k new s)
      unfold putKernel
      split
      · trivial
      · rfl
    | some old =>
      change (updateKernel k new old s).opened = s.opened ++ openedOf k (some new) (some old)
      unfold updateKernel getCustomerDiff
      by_cases hnewer : old.indexNumber < new.indexNumber
      · by_cases hadded : (without new.customerInfo old.customerInfo).entries = []
        · simp [openedOf, hnewer, hadded]
        · simp [openedOf, hnewer, hadded]
      · simp [openedOf, hnewer]

theorem mergeAll_items (aFrom : Descriptor)
    (l : List (Uuid × Option KernelInfos × Option KernelInfos)) (s : Merge) :
    Outcome (fun _ => True)
      (fun s' => s'.opened = s.opened ++ l.flatMap fun p => openedOf p.1 p.2.1 p.2.2)
      (l.foldlM (mergeStep aFrom) s) := by
  induction l generalizing s with
  | nil => exact (List.append_nil _).symm
  | cons p l ih =>
    rw [List.foldlM_cons]
    refine (mergeStep_items aFrom s p).bind fun s₁ hs₁ => (ih s₁).mono fun s' hs' => ?_
    rw [hs', hs₁, List.flatMap_cons, List.append_assoc]

/-- A snapshot reports at most one item opened of each kernel. -/
theorem process_netInfo_items (aMe : Id) (aFrom : Descriptor) (aNet : KernelInfosArray)
    (d : InfoData) : Outcome (fun _ => True)
      (fun r => (r.2.opened.map DiffItem.kernel).Nodup) (process aMe (.netInfo aFrom aNet) d) := by
  have hsorted := (pairUp_spec aNet.net.sorted d.fnet.net.sorted).1
  have hitems : ∀ l : List (Uuid × Option KernelInfos × Option KernelInfos),
      l.Pairwise (fun p q => p.1 < q.1) →
      ((l.flatMap fun p => openedOf p.1 p.2.1 p.2.2).map DiffItem.kernel).Nodup := by
    intro l hl
    rw [List.map_flatMap, List.nodup_flatMap]
    refine ⟨fun p _ => ?_, hl.imp fun {p q} hlt => List.disjoint_left.2 fun k hp hq => ?_⟩
    · obtain ⟨k, new, old⟩ := p
      cases new with
      | none => exact List.nodup_nil
      | some new =>
        cases old with
        | none => exact List.nodup_singleton k
        | some old =>
          simp only [openedOf]
          split_ifs
          · exact List.nodup_singleton k
          · exact List.nodup_nil
    · obtain ⟨i, hi, rfl⟩ := List.mem_map.1 hp
      obtain ⟨j, hj, hji⟩ := List.mem_map.1 hq
      rw [openedOf_kernel hi, openedOf_kernel hj] at hji
      exact ne_of_gt hlt hji
  have hsync : Outcome (fun _ => True) (fun r => (r.2.opened.map DiffItem.kernel).Nodup)
      (synchronizeNetInfo aNet aFrom d) := by
    unfold synchronizeNetInfo
    rw [synchronizeLoop_eq]
    refine (mergeAll_items ..).bind fun s hs => ?_
    change (s.opened.map DiffItem.kernel).Nodup
    rw [hs]
    exact hitems _ hsorted
  refine Outcome.bind (P := fun r => (((r.2.map Synchronized.diff).getD
    KernelInfosDiff.empty).opened.map DiffItem.kernel).Nodup) ?_ fun r hr => hr
  refine hsync.bind fun r hr => ?_
  obtain ⟨d', diff⟩ := r
  cases hvalid : diff.isValid with
  | true =>
    simp only [hvalid, if_true]
    exact (Outcome.trivial (rebuildGraph d'.resetCache)).bind fun _ _ => hr
  | false =>
    simp only [hvalid, Bool.false_eq_true, if_false]
    exact List.nodup_nil
theorem InfoData.Opened.clientDiff {aMe : Id} {aFrom : Descriptor} {aInfo : DescriptorInfo}
    {d d' : InfoData} {diff : KernelInfosDiff} (ho : Opened aMe aFrom aInfo d d' diff)
    (h : Known aMe.uuid d) (hok : process aMe (.opened aFrom aInfo) d = .ok (d', diff))
    (hfits : ClientFits aMe d.fnet.net (.opened aFrom aInfo)) :
    ClientDiff d.fnet.net d'.fnet.net diff := by
  refine ⟨fun {k u} hu => ?_, fun {k u} hu => ?_, fun {k u} hopened _ => ?_, ?_⟩
  · rw [ho.clients_iff h]
    obtain ⟨rfl, rfl, htype⟩ := ho.clientIn_iff.1 hu
    have hnone : linkOf d.fnet.net aMe.uuid aInfo.uuid = none := hfits htype
    refine ⟨fun hmem => ?_, .inr ⟨⟨rfl, rfl, htype⟩, hnone⟩⟩
    obtain ⟨link, hlink, -⟩ := mem_clients.1 hmem
    rw [hnone] at hlink
    cases hlink
  · rw [ho.closed] at hu
    obtain ⟨i, hi, -⟩ := hu
    cases hi
  · rw [ho.clientIn_iff] at hopened
    simp [ho.clients_iff h, hopened]
  · have hitems := process_opened_items aMe aFrom aInfo d
    rw [hok] at hitems
    rcases hitems with heq | heq
    · change (diff.opened.map DiffItem.kernel).Nodup
      rw [show diff.opened = _ from heq]
      exact List.nodup_singleton _
    · change diff.opened = _ at heq
      have hne : aMe.uuid ≠ aInfo.uuid := by
        intro hme
        have hitem := (ho.opened ⟨aInfo.uuid, ⟨aInfo.link.name, .empty, 0⟩, true⟩).1 (by simp [heq])
        rcases hitem with hitem | ⟨-, hnone, -⟩
        · cases congrArg DiffItem.isKernel hitem
        · obtain ⟨my, hmy⟩ := h.own_find
          rw [hme, hnone] at hmy
          cases hmy
      rw [heq]
      simpa [myLink] using hne

theorem InfoData.Closed.clientDiff {aMe : Id} {aFrom : Descriptor} {aInfo : DescriptorInfo}
    {d d' : InfoData} {diff : KernelInfosDiff} (hc : Closed aMe aFrom aInfo d d' diff)
    (h : Known aMe.uuid d) (hvalid : aFrom ≠ invalidDescriptor)
    (hfits : ClientFits aMe d.fnet.net (.closed aFrom aInfo)) :
    ClientDiff d.fnet.net d'.fnet.net diff := by
  have hlink : ∀ k u, linkOf d'.fnet.net k u =
      if k = aMe.uuid ∧ u = aInfo.uuid ∨
        aInfo.link.type = .kernel ∧ d.uuidFrom.find k = some {aFrom} then none
      else linkOf d.fnet.net k u := by
    intro k u
    unfold linkOf
    rw [hc.net]
    by_cases hme : k = aMe.uuid
    · obtain ⟨my, hmy⟩ := h.own_find
      subst hme
      rw [if_pos rfl, hmy]
      change (my.customerInfo.erase aInfo.uuid).find u = _
      rw [SortedMap.find_erase]
      simp [h.not_last hvalid]
    · simp only [hme, false_and, false_or, if_false]
      split_ifs <;> rfl
  have hclosed : ∀ {k u}, ClientIn diff.closed k u ↔
      k = aMe.uuid ∧ u = aInfo.uuid ∧ aInfo.link.type = .consumer ∨
      (aInfo.link.type = .kernel ∧ d.uuidFrom.find k = some {aFrom}) ∧
        (k, u) ∈ clients d.fnet.net := by
    intro k u
    constructor
    · rintro ⟨i, hi, rfl, hu⟩
      rcases (hc.closed i).1 hi with rfl | ⟨htype, k, infos, hlast, hk, rfl⟩
      · exact .inl ⟨rfl, mem_consumersOf_myLink.1 hu⟩
      · refine .inr ⟨⟨htype, hlast⟩, mem_clients.2 ?_⟩
        obtain ⟨link, hu, hconsumer⟩ := mem_consumersOf.1 hu
        refine ⟨link, ?_, hconsumer⟩
        change (d.fnet.net.find k).bind _ = _
        rw [hk]
        exact hu
    · rintro (⟨rfl, hu⟩ | ⟨⟨htype, hlast⟩, hmem⟩)
      · exact ⟨_, (hc.closed _).2 (.inl rfl), rfl, mem_consumersOf_myLink.2 hu⟩
      · obtain ⟨link, hlink, hconsumer⟩ := mem_clients.1 hmem
        obtain ⟨infos, hk, hu⟩ := Option.bind_eq_some_iff.1 hlink
        exact ⟨_, (hc.closed _).2 (.inr ⟨htype, k, infos, hlast, hk, rfl⟩), rfl,
          mem_consumersOf.2 ⟨link, hu, hconsumer⟩⟩
  have hopened : ∀ {k u}, ¬ClientIn diff.opened k u := by
    rintro k u ⟨i, hi, -⟩
    rw [hc.opened] at hi
    cases hi
  refine ⟨fun hu => absurd hu hopened, fun {k u} hu => ?_, fun {k u} _ hnot => ?_, ?_⟩
  · have hgone : (k, u) ∉ clients d'.fnet.net := by
      rw [mem_clients, hlink, if_pos]
      · rintro ⟨link, hnone, -⟩
        cases hnone
      · rcases hclosed.1 hu with ⟨hk, hu, -⟩ | ⟨hlast, -⟩
        · exact .inl ⟨hk, hu⟩
        · exact .inr hlast
    refine ⟨?_, hgone⟩
    rcases hclosed.1 hu with ⟨rfl, rfl, htype⟩ | ⟨-, hmem⟩
    · change ((linkOf d.fnet.net aMe.uuid aInfo.uuid).map _).getD _ = _ at hfits
      rw [mem_clients]
      cases hown : linkOf d.fnet.net aMe.uuid aInfo.uuid with
      | none =>
        rw [hown, htype] at hfits
        cases hfits
      | some link =>
        rw [hown] at hfits
        exact ⟨link, rfl, hfits.trans htype⟩
    · exact hmem
  · rw [mem_clients, mem_clients, hlink]
    split_ifs with hgone
    · refine iff_of_false ?_ fun ⟨_, hnone, _⟩ => by cases hnone
      rintro ⟨link, hlink', hconsumer⟩
      have hmem : (k, u) ∈ clients d.fnet.net := mem_clients.2 ⟨link, hlink', hconsumer⟩
      rcases hgone with ⟨rfl, rfl⟩ | hlast
      · change ((linkOf d.fnet.net aMe.uuid aInfo.uuid).map _).getD _ = _ at hfits
        rw [hlink'] at hfits
        exact hnot (hclosed.2 (.inl ⟨rfl, rfl, hfits.symm.trans hconsumer⟩))
      · exact hnot (hclosed.2 (.inr ⟨hlast, hmem⟩))
    · exact Iff.rfl
  · rw [hc.opened]
    exact List.nodup_nil
/-- A kernel of these infos, if it is one, links a consumer. -/
def LinksClient (o : Option KernelInfos) (u : Uuid) : Prop :=
  ∃ infos, o = some infos ∧ u ∈ consumersOf infos.customerInfo

theorem mem_clients_iff_linksClient {net : SortedMap Uuid KernelInfos} {k u : Uuid} :
    (k, u) ∈ clients net ↔ LinksClient (net.find k) u := by
  simp only [mem_clients, LinksClient, mem_consumersOf, linkOf, Option.bind_eq_some_iff]
  constructor
  · rintro ⟨link, ⟨infos, hk, hlink⟩, htype⟩
    exact ⟨infos, hk, link, hlink, htype⟩
  · rintro ⟨infos, hk, link, hlink, htype⟩
    exact ⟨link, ⟨infos, hk, hlink⟩, htype⟩

theorem clients_ite {k u : Uuid} {infos : KernelInfos} {newer : Prop} [Decidable newer]
    (h : newer) (links : KernLinks) :
    (∃ i ∈ if newer ∧ links.entries ≠ [] then [⟨k, { infos with customerInfo := links }, false⟩]
      else [], u ∈ consumersOf (DiffItem.infos i).customerInfo) ↔ u ∈ consumersOf links := by
  by_cases hlinks : links.entries = []
  · simp [h, hlinks, consumersOf]
  · simp [h, hlinks]

/-- The items about one kernel that a snapshot makes tell its consumers. -/
theorem items_clients {aFrom : Descriptor} {k : Uuid} (new old : Option KernelInfos)
    (from_ : Option (Finset Descriptor)) {u : Uuid}
    (htypes : ∀ infos infos', old = some infos → newNet aFrom new old from_ = some infos' →
      ∀ link link', infos.customerInfo.find u = some link →
        infos'.customerInfo.find u = some link' → link'.type = link.type) :
    ((∃ i ∈ openedOf k new old, u ∈ consumersOf i.infos.customerInfo) →
      ¬LinksClient old u ∧ LinksClient (newNet aFrom new old from_) u) ∧
    ((∃ i ∈ closedOf aFrom k new old from_, u ∈ consumersOf i.infos.customerInfo) →
      LinksClient old u ∧ ¬LinksClient (newNet aFrom new old from_) u) ∧
    ((¬∃ i ∈ openedOf k new old, u ∈ consumersOf i.infos.customerInfo) →
      (¬∃ i ∈ closedOf aFrom k new old from_, u ∈ consumersOf i.infos.customerInfo) →
      (LinksClient old u ↔ LinksClient (newNet aFrom new old from_) u)) := by
  cases new with
  | none =>
    cases old with
    | none => simp [openedOf, closedOf, newNet]
    | some old =>
      by_cases hlast : from_ = some {aFrom}
      · simp [openedOf, closedOf, newNet, hlast, LinksClient]
      · simp [openedOf, closedOf, newNet, hlast]
  | some new =>
    cases old with
    | none => simp [openedOf, closedOf, newNet, LinksClient]
    | some old =>
      by_cases hnewer : old.indexNumber < new.indexNumber
      · have hnet : newNet aFrom (some new) (some old) from_ = some new := by
          simp [newNet, hnewer]
        have hopened : (∃ i ∈ openedOf k (some new) (some old),
            u ∈ consumersOf i.infos.customerInfo) ↔
              u ∈ consumersOf (without new.customerInfo old.customerInfo) :=
          clients_ite hnewer _
        have hclosed : (∃ i ∈ closedOf aFrom k (some new) (some old) from_,
            u ∈ consumersOf i.infos.customerInfo) ↔
              u ∈ consumersOf (without old.customerInfo new.customerInfo) :=
          clients_ite hnewer _
        have htype := htypes old new rfl hnet
        rw [hnet, hopened, hclosed]
        simp only [LinksClient, Option.some.injEq, exists_eq_left', mem_consumersOf, without_find]
        cases hold : old.customerInfo.find u with
        | none => cases hlink : new.customerInfo.find u <;> simp
        | some link =>
          cases hlink : new.customerInfo.find u with
          | none => simp
          | some link' => simp [htype link link' hold hlink]
      · simp [openedOf, closedOf, newNet, hnewer]

theorem InfoData.Synced.clientDiff {aMe : Id} {aFrom : Descriptor} {aNet : KernelInfosArray}
    {d d' : InfoData} {diff : KernelInfosDiff} (hs : Synced aFrom aNet.net d d' diff)
    (hok : process aMe (.netInfo aFrom aNet) d = .ok (d', diff))
    (htypes : KeepTypes d.fnet.net d'.fnet.net) : ClientDiff d.fnet.net d'.fnet.net diff := by
  have hopened : ∀ {k u}, ClientIn diff.opened k u ↔
      ∃ i ∈ openedOf k (aNet.net.find k) (d.fnet.net.find k),
        u ∈ consumersOf i.infos.customerInfo := by
    intro k u
    constructor
    · rintro ⟨i, hi, hk, hu⟩
      obtain ⟨k', hi⟩ := (hs.opened i).1 hi
      obtain rfl : k' = k := (openedOf_kernel hi).symm.trans hk
      exact ⟨i, hi, hu⟩
    · rintro ⟨i, hi, hu⟩
      exact ⟨i, (hs.opened i).2 ⟨k, hi⟩, openedOf_kernel hi, hu⟩
  have hclosed : ∀ {k u}, ClientIn diff.closed k u ↔
      ∃ i ∈ closedOf aFrom k (aNet.net.find k) (d.fnet.net.find k) (d.uuidFrom.find k),
        u ∈ consumersOf i.infos.customerInfo := by
    intro k u
    constructor
    · rintro ⟨i, hi, hk, hu⟩
      obtain ⟨k', hi⟩ := (hs.closed i).1 hi
      obtain rfl : k' = k := (closedOf_kernel hi).symm.trans hk
      exact ⟨i, hi, hu⟩
    · rintro ⟨i, hi, hu⟩
      exact ⟨i, (hs.closed i).2 ⟨k, hi⟩, closedOf_kernel hi, hu⟩
  have hkernels := process_netInfo_items aMe aFrom aNet d
  rw [hok] at hkernels
  cases hvalid : diff.isValid with
  | true =>
    have hitems := fun k u => @items_clients aFrom k (aNet.net.find k) (d.fnet.net.find k)
      (d.uuidFrom.find k) u fun infos infos' hk hk' link link' hu hu' =>
        htypes.type_eq (k := k) (u := u) (by rw [linkOf, hk]; exact hu)
          (by rw [linkOf, hs.changed hvalid, hk']; exact hu')
    simp only [← hs.changed hvalid, ← hopened, ← hclosed, ← mem_clients_iff_linksClient] at hitems
    exact ⟨(hitems _ _).1, (hitems _ _).2.1, (hitems _ _).2.2, hkernels⟩
  | false =>
    have hno : ∀ {k u}, ¬ClientIn diff.opened k u ∧ ¬ClientIn diff.closed k u := by
      intro k u
      rw [hopened, hclosed, (hs.opened_eq hvalid k).1, (hs.opened_eq hvalid k).2]
      simp
    exact ⟨fun hu => absurd hu hno.1, fun hu => absurd hu hno.2,
      fun _ _ => by rw [hs.same hvalid], hkernels⟩

end UdtKernel
