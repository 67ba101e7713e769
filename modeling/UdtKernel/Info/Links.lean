import UdtKernel.Info.Reports

set_option autoImplicit false

/-! The links of the own kernel are those of its open descriptors. -/

namespace UdtKernel
open UdtKernel.Lib

/-- The service together with the descriptors that are open and those that have been closed. -/
structure Session where
  data : InfoData
  descriptors : SortedMap Descriptor DescriptorInfo
  closed : Finset Descriptor

namespace Session
open InfoData

def step (aMe : Id) (e : Event) (s : Session) : Except Abort Session := do
  let data ← s.data.step aMe e
  return match e with
  | .opened aFrom aInfo => { s with data, descriptors := s.descriptors.insert aFrom aInfo }
  | .closed aFrom _ =>
    { data, descriptors := s.descriptors.erase aFrom, closed := insert aFrom s.closed }
  | .netInfo _ _ => { s with data }

def start (aMe : Id) (aDescriptors : SortedMap Descriptor DescriptorInfo) :
    Except Abort Session := do
  let data ← InfoData.start aMe aDescriptors
  return ⟨data, aDescriptors, ∅⟩

/-- What the descriptors see to: each is opened and closed once, with the same info, and nothing
    is received over it afterwards. -/
def Granted (s : Session) : Event → Prop
  | .opened aFrom _ => s.descriptors.find aFrom = none ∧ aFrom ∉ s.closed
  | .closed aFrom aInfo => s.descriptors.find aFrom = some aInfo
  | .netInfo aFrom _ => aFrom ∉ s.closed

/-- Two descriptors lead to one program only if its link is the same, and neither of them is
    closed before the other; a consumer tells of no kernels; and no snapshot knows more of the own
    kernel than itself. -/
def Safe (aMe : Id) (s : Session) : Event → Prop
  | .opened _ aInfo => ∀ e ∈ s.descriptors.entries, e.2.uuid = aInfo.uuid → e.2.link = aInfo.link
  | .closed aFrom aInfo =>
    (∀ e ∈ s.descriptors.entries, e.2.uuid = aInfo.uuid → e.1 = aFrom) ∧
    (aInfo.link.type = .consumer →
      ∀ e ∈ s.data.uuidFrom.entries, e.1 ≠ aMe.uuid → aFrom ∉ e.2)
  | .netInfo _ aNet => ∀ new ∈ aNet.net.find aMe.uuid, ∀ my ∈ s.data.fnet.net.find aMe.uuid,
    my.indexNumber < new.indexNumber → new.customerInfo = my.customerInfo

def StepOk (aMe : Id) (s : Session) (e : Event) : Prop := e.Valid ∧ s.Granted e ∧ s.Safe aMe e

/-- The state of the net: the kernels have descriptors, those of other kernels are not closed, and
    the own kernel links what the open descriptors lead to. -/
structure NetState (aMe : Id) (s : Session) : Prop where
  keys : ∀ k, (s.data.uuidFrom.find k).isSome = (s.data.fnet.net.find k).isSome
  nonempty : ∀ {k from_}, s.data.uuidFrom.find k = some from_ → from_.Nonempty
  own : ∃ my, s.data.fnet.net.find aMe.uuid = some my ∧ ∀ u link,
    my.customerInfo.find u = some link ↔
      ∃ d info, s.descriptors.find d = some info ∧ info.uuid = u ∧ info.link = link
  foreign : ∀ {k from_}, k ≠ aMe.uuid → s.data.uuidFrom.find k = some from_ →
    ∀ d ∈ from_, d ∉ s.closed

instance (s : Session) (e : Event) : Decidable (s.Granted e) :=
  match e with
  | .opened .. => inferInstanceAs (Decidable (_ ∧ _))
  | .closed .. => inferInstanceAs (Decidable (_ = _))
  | .netInfo .. => inferInstanceAs (Decidable (_ ∉ s.closed))

instance (aMe : Id) (s : Session) (e : Event) : Decidable (s.Safe aMe e) :=
  match e with
  | .opened .. => inferInstanceAs (Decidable (∀ e ∈ s.descriptors.entries, _))
  | .closed .. => inferInstanceAs (Decidable (_ ∧ _))
  | .netInfo _ aNet => inferInstanceAs (Decidable (∀ new ∈ aNet.net.find aMe.uuid, _))

instance (aMe : Id) (s : Session) (e : Event) : Decidable (StepOk aMe s e) :=
  inferInstanceAs (Decidable (_ ∧ _ ∧ _))

theorem mem_entries_of_find {s : Session} {d : Descriptor} {info : DescriptorInfo}
    (h : s.descriptors.find d = some info) : (d, info) ∈ s.descriptors.entries :=
  (SortedMap.mem_entries_iff ..).2 h

theorem mem_newFrom {aFrom d : Descriptor} {new old : Option KernelInfos}
    {from_ : Option (Finset Descriptor)} {from' : Finset Descriptor}
    (h : newFrom aFrom new old from_ = some from') (hd : d ∈ from') :
    d = aFrom ∨ ∃ f, from_ = some f ∧ d ∈ f := by
  cases new with
  | none =>
    cases old with
    | none => exact .inr ⟨from', h, hd⟩
    | some old =>
      cases from_ with
      | none => cases h
      | some f =>
        simp only [newFrom] at h
        split_ifs at h
        cases h
        exact .inr ⟨f, rfl, Finset.mem_of_mem_erase hd⟩
  | some new =>
    cases old with
    | none =>
      cases h
      exact .inl (Finset.mem_singleton.1 hd)
    | some old => exact .inr ⟨from', h, hd⟩

theorem opened_netState {aMe : Id} {s : Session} (h : NetState aMe s) {aFrom : Descriptor}
    {aInfo : DescriptorInfo} {data : InfoData} {diff : KernelInfosDiff}
    (hknown : Known aMe.uuid data) (ho : Opened aMe aFrom aInfo s.data data diff)
    (hgranted : s.Granted (.opened aFrom aInfo)) (hsafe : s.Safe aMe (.opened aFrom aInfo)) :
    NetState aMe { s with data, descriptors := s.descriptors.insert aFrom aInfo } := by
  obtain ⟨my, hmy, hlinks⟩ := h.own
  obtain ⟨hnew, hclosed⟩ := hgranted
  have hfind : ∀ d info, (s.descriptors.insert aFrom aInfo).find d = some info ↔
      d = aFrom ∧ info = aInfo ∨ s.descriptors.find d = some info := by
    intro d info
    rw [SortedMap.find_insert]
    split_ifs with hd
    · subst hd
      simp [hnew, eq_comm]
    · simp [hd]
  refine ⟨hknown.keys, hknown.nonempty, ⟨relinked my (my.customerInfo.insertNew aInfo.uuid
    aInfo.link), ?_, fun u link => ?_⟩, fun {k from_} hk hfrom d hd => ?_⟩
  · change data.fnet.net.find aMe.uuid = _
    rw [ho.net, if_pos rfl, hmy]
    rfl
  · change (my.customerInfo.insertNew aInfo.uuid aInfo.link).find u = some link ↔ _
    rw [SortedMap.find_insertNew]
    simp only [hfind, or_and_right, exists_or]
    by_cases hu : u = aInfo.uuid
    · subst hu
      rw [if_pos rfl]
      cases hold : my.customerInfo.find aInfo.uuid with
      | none =>
        constructor
        · intro hlink
          exact .inl ⟨aFrom, aInfo, ⟨rfl, rfl⟩, rfl, Option.some.inj hlink⟩
        · rintro (⟨d, info, ⟨rfl, rfl⟩, -, hlink⟩ | ⟨d, info, hd, hi, hlink⟩)
          · exact congrArg some hlink
          · have hsome := (hlinks aInfo.uuid link).2 ⟨d, info, hd, hi, hlink⟩
            rw [hold] at hsome
            cases hsome
      | some link' =>
        obtain ⟨d', info', hd', hi', hlink'⟩ := (hlinks aInfo.uuid link').1 hold
        have hsame := hsafe (d', info') (mem_entries_of_find hd') hi'
        constructor
        · intro hlink
          refine .inl ⟨aFrom, aInfo, ⟨rfl, rfl⟩, rfl, ?_⟩
          rw [← Option.some.inj hlink, ← hsame]
          exact hlink'
        · rintro (⟨d, info, ⟨rfl, rfl⟩, -, hlink⟩ | ⟨d, info, hd, hi, hlink⟩)
          · rw [← hlink, ← hsame]
            exact congrArg some hlink'.symm
          · have hsome := (hlinks aInfo.uuid link).2 ⟨d, info, hd, hi, hlink⟩
            rw [hold] at hsome
            exact hsome
    · rw [if_neg hu, hlinks]
      constructor
      · exact .inr
      · rintro (⟨d, info, ⟨rfl, rfl⟩, hi, -⟩ | hold)
        · exact absurd hi.symm hu
        · exact hold
  · change data.uuidFrom.find k = some from_ at hfrom
    rw [ho.from_] at hfrom
    split_ifs at hfrom with hkernel
    · cases hfrom
      rcases Finset.mem_insert.1 hd with rfl | hd
      · exact hclosed
      · cases hold : s.data.uuidFrom.find k with
        | none =>
          rw [hold] at hd
          exact absurd hd (Finset.notMem_empty d)
        | some old =>
          rw [hold] at hd
          exact h.foreign hk hold d hd
    · exact h.foreign hk hfrom d hd

theorem closed_netState {aMe : Id} {s : Session} (h : NetState aMe s) {aFrom : Descriptor}
    {aInfo : DescriptorInfo} {data : InfoData} {diff : KernelInfosDiff}
    (hknown : Known aMe.uuid data) (hc : Closed aMe aFrom aInfo s.data data diff)
    (hgranted : s.Granted (.closed aFrom aInfo)) (hsafe : s.Safe aMe (.closed aFrom aInfo)) :
    NetState aMe
      { data, descriptors := s.descriptors.erase aFrom, closed := insert aFrom s.closed } := by
  obtain ⟨my, hmy, hlinks⟩ := h.own
  obtain ⟨honly, hconsumer⟩ := hsafe
  refine ⟨hknown.keys, hknown.nonempty, ⟨relinked my (my.customerInfo.erase aInfo.uuid), ?_,
    fun u link => ?_⟩, fun {k from_} hk hfrom d hd => ?_⟩
  · change data.fnet.net.find aMe.uuid = _
    rw [hc.net, if_pos rfl, hmy]
    rfl
  · change (my.customerInfo.erase aInfo.uuid).find u = some link ↔
      ∃ d info, (s.descriptors.erase aFrom).find d = some info ∧ _
    rw [SortedMap.find_erase]
    constructor
    · intro hlink
      split_ifs at hlink with hu
      obtain ⟨d, info, hd, hi, hl⟩ := (hlinks u link).1 hlink
      refine ⟨d, info, ?_, hi, hl⟩
      rw [SortedMap.find_erase, if_neg, hd]
      rintro rfl
      rw [hgranted] at hd
      cases hd
      exact hu hi.symm
    · rintro ⟨d, info, hd, hi, hl⟩
      rw [SortedMap.find_erase] at hd
      split_ifs at hd with hne
      have hu : u ≠ aInfo.uuid := fun hu =>
        hne (honly (d, info) (mem_entries_of_find hd) (hi.trans hu))
      rw [if_neg hu]
      exact (hlinks u link).2 ⟨d, info, hd, hi, hl⟩
  · change data.uuidFrom.find k = some from_ at hfrom
    rw [hc.from_] at hfrom
    rw [Finset.mem_insert, not_or]
    cases htype : aInfo.link.type with
    | consumer =>
      simp only [htype, reduceCtorEq, if_false] at hfrom
      refine ⟨?_, h.foreign hk hfrom d hd⟩
      rintro rfl
      exact hconsumer htype (k, from_) ((SortedMap.mem_entries_iff ..).2 hfrom) hk hd
    | kernel =>
      simp only [htype, if_true] at hfrom
      cases hold : s.data.uuidFrom.find k with
      | none =>
        rw [hold] at hfrom
        cases hfrom
      | some old =>
        rw [hold] at hfrom
        simp only [dropFrom] at hfrom
        split_ifs at hfrom
        cases hfrom
        obtain ⟨hne, hd⟩ := Finset.mem_erase.1 hd
        exact ⟨hne, h.foreign hk hold d hd⟩

theorem netInfo_netState {aMe : Id} {s : Session} (h : NetState aMe s) {aFrom : Descriptor}
    {aNet : KernelInfosArray} {data : InfoData} {diff : KernelInfosDiff}
    (hold : Known aMe.uuid s.data) (hvalid : aFrom ≠ invalidDescriptor)
    (hknown : Known aMe.uuid data) (hs : Synced aFrom aNet.net s.data data diff)
    (hgranted : s.Granted (.netInfo aFrom aNet)) (hsafe : s.Safe aMe (.netInfo aFrom aNet)) :
    NetState aMe { s with data } := by
  obtain ⟨my, hmy, hlinks⟩ := h.own
  have hown : ∃ my', data.fnet.net.find aMe.uuid = some my' ∧
      my'.customerInfo = my.customerInfo := by
    cases hdiff : diff.isValid with
    | false => exact ⟨my, by rw [hs.same hdiff, hmy], rfl⟩
    | true =>
      rw [hs.changed hdiff, hmy]
      cases hnew : aNet.net.find aMe.uuid with
      | none => exact ⟨my, by simp [newNet, hold.not_last hvalid], rfl⟩
      | some new =>
        refine ⟨_, rfl, ?_⟩
        split_ifs with hlt
        · exact hsafe new hnew my hmy hlt
        · rfl
  obtain ⟨my', hmy', heq⟩ := hown
  refine ⟨hknown.keys, hknown.nonempty, ⟨my', hmy', heq ▸ hlinks⟩,
    fun {k from_} hk hfrom d hd => ?_⟩
  change data.uuidFrom.find k = some from_ at hfrom
  rw [hs.from_] at hfrom
  rcases mem_newFrom hfrom hd with rfl | ⟨old, hfind, hd⟩
  · exact hgranted
  · exact h.foreign hk hfind d hd

theorem step_netState {aMe : Id} {s : Session} {e : Event}
    (h : Known aMe.uuid s.data ∧ NetState aMe s) (he : StepOk aMe s e) :
    ∃ s', step aMe e s = .ok s' ∧ Known aMe.uuid s'.data ∧ NetState aMe s' := by
  obtain ⟨hknown, hstate⟩ := h
  obtain ⟨hvalid, hgranted, hsafe⟩ := he
  cases e with
  | opened aFrom aInfo =>
    obtain ⟨data, diff, hok, ho⟩ := process_opened hknown aFrom aInfo
    have hknown' := ho.known hknown
    refine ⟨_, ?_, hknown', opened_netState hstate hknown' ho hgranted hsafe⟩
    unfold step InfoData.step
    rw [hok]
    rfl
  | closed aFrom aInfo =>
    have hne : aFrom ≠ invalidDescriptor := ne_invalid hvalid
    obtain ⟨data, diff, hok, hc⟩ := process_closed hknown hne aInfo
    have hknown' := hc.known hknown hne
    refine ⟨_, ?_, hknown', closed_netState hstate hknown' hc hgranted hsafe⟩
    unfold step InfoData.step
    rw [hok]
    rfl
  | netInfo aFrom aNet =>
    have hne : aFrom ≠ invalidDescriptor := ne_invalid hvalid
    obtain ⟨data, diff, hok, hs, -⟩ := process_netInfo hknown aFrom aNet
    have hknown' := hs.known hknown hne
    refine ⟨_, ?_, hknown', netInfo_netState hstate hknown hne hknown' hs hgranted hsafe⟩
    unfold step InfoData.step
    rw [hok]
    rfl

theorem start_netState {aMe : Id} {aDescriptors : SortedMap Descriptor DescriptorInfo}
    {d : InfoData} (h : Started aMe aDescriptors.entries d)
    (hsame : ∀ e ∈ aDescriptors.entries, ∀ e' ∈ aDescriptors.entries,
      e.2.uuid = e'.2.uuid → e.2.link = e'.2.link) : NetState aMe ⟨d, aDescriptors, ∅⟩ := by
  have hknown := h.known
  obtain ⟨my, hmy, hlinks⟩ := h.own
  refine ⟨hknown.keys, hknown.nonempty, ⟨my, hmy, fun u link => ?_⟩, fun _ _ _ _ =>
    Finset.notMem_empty _⟩
  rw [hlinks]
  constructor
  · intro hlink
    obtain ⟨e, he, hl⟩ := Option.map_eq_some_iff.1 hlink
    have hu : e.2.uuid = u := by simpa using List.find?_some he
    exact ⟨e.1, e.2, (SortedMap.mem_entries_iff ..).1 (List.mem_of_find?_eq_some he), hu, hl⟩
  · rintro ⟨d', info, hd, rfl, rfl⟩
    have hmem : (d', info) ∈ aDescriptors.entries := (SortedMap.mem_entries_iff ..).2 hd
    cases hfind : aDescriptors.entries.find? (·.2.uuid = info.uuid) with
    | none =>
      have hnone := List.find?_eq_none.1 hfind (d', info) hmem
      simp at hnone
    | some e =>
      have hu : e.2.uuid = info.uuid := by simpa using List.find?_some hfind
      exact congrArg some (hsame e (List.mem_of_find?_eq_some hfind) (d', info) hmem hu)

theorem run_netState (aMe : Id) (aDescriptors : SortedMap Descriptor DescriptorInfo)
    (events : List Event)
    (hsame : ∀ e ∈ aDescriptors.entries, ∀ e' ∈ aDescriptors.entries,
      e.2.uuid = e'.2.uuid → e.2.link = e'.2.link)
    (hevents : ∀ s ∈ (start aMe aDescriptors).toOption,
      EveryStep (step aMe) (StepOk aMe) events s) :
    ∃ s₀ s, start aMe aDescriptors = .ok s₀ ∧ runAll (step aMe) events s₀ = .ok s ∧
      NetState aMe s ∧ ∀ e : Event, e.Valid → ∃ s', step aMe e s = .ok s' := by
  obtain ⟨d, hstart, hstarted⟩ := start_spec aMe aDescriptors
  have hs₀ : start aMe aDescriptors = .ok ⟨d, aDescriptors, ∅⟩ := by
    unfold start
    rw [hstart]
    rfl
  have hrun : Outcome (fun _ => False) (fun s : Session => Known aMe.uuid s.data ∧ NetState aMe s)
      (runAll (step aMe) events ⟨d, aDescriptors, ∅⟩) := by
    refine runAll_outcome (fun s e hs he => ?_)
      ⟨hstarted.known, start_netState hstarted hsame⟩ (hevents _ (by rw [hs₀]; rfl))
    obtain ⟨s', hok, hs'⟩ := step_netState hs he
    rw [hok]
    exact hs'
  cases hr : runAll (step aMe) events ⟨d, aDescriptors, ∅⟩ with
  | error e =>
    rw [hr] at hrun
    exact absurd hrun id
  | ok s =>
    rw [hr] at hrun
    obtain ⟨hknown, hstate⟩ := hrun
    refine ⟨_, s, hs₀, hr, hstate, fun e he => ?_⟩
    obtain ⟨data, diff, hok, -⟩ := process_known hknown he
    unfold step InfoData.step
    rw [hok]
    exact ⟨_, rfl⟩

def linkEvents : List Event :=
  [.opened 2 (programInfo 7 .consumer 1),
    .netInfo 3 ⟨SortedMap.empty.insert 5 ⟨['k'], .empty, 1⟩, 1⟩,
    .opened 3 (programInfo 5 .kernel 1), .closed 2 (programInfo 7 .consumer 1)]

theorem run_netState_link : ∃ s₀ s, start ⟨1, ['k']⟩ .empty = .ok s₀ ∧
    runAll (step ⟨1, ['k']⟩) linkEvents s₀ = .ok s ∧
    NetState ⟨1, ['k']⟩ s ∧ ∀ e : Event, e.Valid → ∃ s', step ⟨1, ['k']⟩ e s = .ok s' :=
  run_netState ⟨1, ['k']⟩ .empty linkEvents (by decide) (by decide)

def twiceEvents : List Event :=
  [.opened 2 (programInfo 7 .kernel 1), .opened 3 (programInfo 7 .kernel 1),
    .closed 2 (programInfo 7 .kernel 1)]

theorem netState_false_of_second_descriptor : ∃ s₀ s, start ⟨1, ['k']⟩ .empty = .ok s₀ ∧
    EveryStep (step ⟨1, ['k']⟩) (fun s e => e.Valid ∧ s.Granted e) twiceEvents s₀ ∧
    runAll (step ⟨1, ['k']⟩) twiceEvents s₀ = .ok s ∧ ¬ NetState ⟨1, ['k']⟩ s := by
  refine ⟨_, _, rfl, by decide, rfl, fun h => ?_⟩
  obtain ⟨my, hmy, hlinks⟩ := h.own
  have hlink := (hlinks 7 _).2 ⟨3, programInfo 7 .kernel 1, rfl, rfl, rfl⟩
  cases hmy
  cases hlink

end Session

end UdtKernel
