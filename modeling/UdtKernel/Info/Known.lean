import UdtKernel.Info.Events
import UdtKernel.Lib.Run

set_option autoImplicit false

/-! The open descriptors and the infos they came with, over a whole run. -/

namespace UdtKernel
open UdtKernel.Lib

namespace InfoData

theorem Opened.known {aMe : Id} {aFrom : Descriptor} {aInfo : DescriptorInfo} {d d' : InfoData}
    {diff : KernelInfosDiff} (ho : Opened aMe aFrom aInfo d d' diff) (h : Known aMe.uuid d) :
    Known aMe.uuid d' := by
  obtain ⟨my, hmy⟩ := h.own_find
  refine ⟨fun k => ?_, fun {k from_} hk => ?_, ?_⟩
  · rw [ho.from_, ho.net]
    by_cases hme : k = aMe.uuid
    · rw [if_pos hme, Option.isSome_map, ← h.keys]
      split_ifs
      · rw [h.keys, hme, hmy]
        rfl
      · rfl
    · rw [if_neg hme]
      split_ifs
      · rfl
      · exact h.keys k
  · rw [ho.from_] at hk
    split_ifs at hk
    · cases hk
      exact Finset.insert_nonempty _ _
    · exact h.nonempty hk
  · obtain ⟨from_, hfrom, hmem⟩ := h.own
    rw [ho.from_]
    split_ifs
    · exact ⟨_, rfl, by rw [hfrom]; exact Finset.mem_insert_of_mem hmem⟩
    · exact ⟨from_, hfrom, hmem⟩

theorem dropFrom_isSome (aFrom : Descriptor) (from_ : Option (Finset Descriptor)) :
    (dropFrom aFrom from_).isSome = true ↔ from_.isSome = true ∧ from_ ≠ some {aFrom} := by
  cases from_ with
  | none => simp [dropFrom]
  | some from_ =>
    simp only [dropFrom]
    split_ifs with h <;> simp [h]

theorem dropFrom_nonempty {aFrom : Descriptor} {from_ from' : Finset Descriptor}
    (h : dropFrom aFrom (some from_) = some from') (hne : from_.Nonempty) : from'.Nonempty := by
  simp only [dropFrom] at h
  split_ifs at h with hlast
  cases h
  rw [Finset.nonempty_iff_ne_empty]
  intro hempty
  rcases Finset.erase_eq_empty_iff _ _ |>.1 hempty with heq | heq
  · rw [heq] at hne
    exact Finset.not_nonempty_empty hne
  · exact hlast heq

theorem dropFrom_own {aMe : Uuid} {aFrom : Descriptor} {d : InfoData} (h : Known aMe d)
    (hvalid : aFrom ≠ invalidDescriptor) :
    ∃ from_, dropFrom aFrom (d.uuidFrom.find aMe) = some from_ ∧ invalidDescriptor ∈ from_ := by
  obtain ⟨from_, hfrom, hmem⟩ := h.own
  have hlast := h.not_last hvalid
  rw [hfrom] at hlast ⊢
  refine ⟨from_.erase aFrom, ?_, Finset.mem_erase.2 ⟨Ne.symm hvalid, hmem⟩⟩
  simp only [dropFrom]
  rw [if_neg fun heq => hlast (congrArg some heq)]

theorem Closed.known {aMe : Id} {aFrom : Descriptor} {aInfo : DescriptorInfo} {d d' : InfoData}
    {diff : KernelInfosDiff} (hc : Closed aMe aFrom aInfo d d' diff) (h : Known aMe.uuid d)
    (hvalid : aFrom ≠ invalidDescriptor) : Known aMe.uuid d' := by
  refine ⟨fun k => ?_, fun {k from_} hk => ?_, ?_⟩
  · rw [Bool.eq_iff_iff, hc.from_, hc.net]
    by_cases hme : k = aMe.uuid
    · rw [if_pos hme, Option.isSome_map, ← h.keys, hme]
      split_ifs
      · rw [dropFrom_isSome]
        exact and_iff_left (h.not_last hvalid)
      · rfl
    · rw [if_neg hme]
      by_cases hkernel : aInfo.link.type = .kernel
      · simp only [hkernel, true_and, if_true]
        rw [dropFrom_isSome, h.keys]
        by_cases hlast : d.uuidFrom.find k = some {aFrom} <;> simp [hlast]
      · simp only [hkernel, false_and, if_false]
        rw [h.keys]
  · rw [hc.from_] at hk
    split_ifs at hk
    · cases hfrom : d.uuidFrom.find k with
      | none =>
        rw [hfrom] at hk
        cases hk
      | some old =>
        rw [hfrom] at hk
        exact dropFrom_nonempty hk (h.nonempty hfrom)
    · exact h.nonempty hk
  · rw [hc.from_]
    split_ifs
    · exact dropFrom_own h hvalid
    · exact h.own

theorem newFrom_isSome {aFrom : Descriptor} {new old : Option KernelInfos}
    {from_ : Option (Finset Descriptor)} (h : from_.isSome = old.isSome) :
    (newFrom aFrom new old from_).isSome = (newNet aFrom new old from_).isSome := by
  cases new with
  | none =>
    cases old with
    | none => simpa [newFrom, newNet] using h
    | some old =>
      obtain ⟨from_, rfl⟩ := Option.isSome_iff_exists.1 h
      simp only [newFrom, newNet, Option.some.injEq]
      split_ifs <;> rfl
  | some new =>
    cases old with
    | none => rfl
    | some old => simpa [newFrom, newNet] using h

/-- Without a difference no kernel comes or goes. -/
theorem newFrom_isSome_of_empty {aFrom : Descriptor} {k : Uuid} {new old : Option KernelInfos}
    {from_ : Option (Finset Descriptor)} (h : from_.isSome = old.isSome)
    (hopened : openedOf k new old = []) (hclosed : closedOf aFrom k new old from_ = []) :
    (newFrom aFrom new old from_).isSome = old.isSome := by
  rw [newFrom_isSome h]
  cases new with
  | none =>
    cases old with
    | none => rfl
    | some old =>
      simp only [closedOf] at hclosed
      simp only [newNet]
      split_ifs at hclosed ⊢
      rfl
  | some new =>
    cases old with
    | none => cases hopened
    | some old => rfl

theorem Synced.opened_eq {aFrom : Descriptor} {new : SortedMap Uuid KernelInfos}
    {d d' : InfoData} {diff : KernelInfosDiff} (hs : Synced aFrom new d d' diff)
    (hvalid : diff.isValid = false) (k : Uuid) :
    openedOf k (new.find k) (d.fnet.net.find k) = [] ∧
      closedOf aFrom k (new.find k) (d.fnet.net.find k) (d.uuidFrom.find k) = [] := by
  unfold KernelInfosDiff.isValid at hvalid
  simp only [ne_eq, Bool.or_eq_false_iff, decide_eq_false_iff_not, not_not] at hvalid
  constructor
  · refine List.eq_nil_iff_forall_not_mem.2 fun i hi => ?_
    have hmem := (hs.opened i).2 ⟨k, hi⟩
    rw [hvalid.1] at hmem
    cases hmem
  · refine List.eq_nil_iff_forall_not_mem.2 fun i hi => ?_
    have hmem := (hs.closed i).2 ⟨k, hi⟩
    rw [hvalid.2] at hmem
    cases hmem

theorem newFrom_nonempty {aFrom : Descriptor} {new old : Option KernelInfos}
    {from_ : Option (Finset Descriptor)} {from' : Finset Descriptor}
    (h : newFrom aFrom new old from_ = some from') (hne : ∀ f, from_ = some f → f.Nonempty) :
    from'.Nonempty := by
  cases new with
  | none =>
    cases old with
    | none => exact hne _ h
    | some old =>
      cases from_ with
      | none => cases h
      | some from_ => exact dropFrom_nonempty h (hne _ rfl)
  | some new =>
    cases old with
    | none =>
      cases h
      exact Finset.singleton_nonempty _
    | some old => exact hne _ h

theorem Synced.known {aMe : Uuid} {aFrom : Descriptor} {new : SortedMap Uuid KernelInfos}
    {d d' : InfoData} {diff : KernelInfosDiff} (hs : Synced aFrom new d d' diff)
    (h : Known aMe d) (hvalid : aFrom ≠ invalidDescriptor) : Known aMe d' := by
  refine ⟨fun k => ?_, fun {k from_} hk => ?_, ?_⟩
  · rw [hs.from_]
    cases hdiff : diff.isValid with
    | true => rw [hs.changed hdiff, newFrom_isSome (h.keys k)]
    | false =>
      obtain ⟨hopened, hclosed⟩ := hs.opened_eq hdiff k
      rw [hs.same hdiff, newFrom_isSome_of_empty (h.keys k) hopened hclosed]
  · rw [hs.from_] at hk
    exact newFrom_nonempty hk fun f hf => h.nonempty hf
  · rw [hs.from_]
    obtain ⟨my, hmy⟩ := h.own_find
    rw [hmy]
    cases new.find aMe with
    | none =>
      obtain ⟨from_, hfrom, hmem⟩ := h.own
      have hdrop := dropFrom_own h hvalid
      rw [hfrom] at hdrop ⊢
      exact hdrop
    | some new => exact h.own

end InfoData

def Event.descriptor : Event → Descriptor
  | .opened aFrom _ => aFrom
  | .closed aFrom _ => aFrom
  | .netInfo aFrom _ => aFrom

def Event.Valid (e : Event) : Prop := isValidDescriptor e.descriptor = true

instance (e : Event) : Decidable e.Valid := inferInstanceAs (Decidable (_ = true))

namespace InfoData

theorem ne_invalid {aFrom : Descriptor} (h : isValidDescriptor aFrom = true) :
    aFrom ≠ invalidDescriptor := by
  rintro rfl
  cases h

theorem process_known {aMe : Id} {d : InfoData} (h : Known aMe.uuid d) {e : Event}
    (he : e.Valid) : ∃ d' diff, process aMe e d = .ok (d', diff) ∧ Known aMe.uuid d' := by
  cases e with
  | opened aFrom aInfo =>
    obtain ⟨d', diff, hok, ho⟩ := process_opened h aFrom aInfo
    exact ⟨d', diff, hok, ho.known h⟩
  | closed aFrom aInfo =>
    obtain ⟨d', diff, hok, hc⟩ := process_closed h (ne_invalid he) aInfo
    exact ⟨d', diff, hok, hc.known h (ne_invalid he)⟩
  | netInfo aFrom aNet =>
    obtain ⟨d', diff, hok, hs, -⟩ := process_netInfo h aFrom aNet
    exact ⟨d', diff, hok, hs.known h (ne_invalid he)⟩

theorem step_of_process {aMe : Id} {e : Event} {d d' : InfoData} {diff : KernelInfosDiff}
    (h : d.process aMe e = .ok (d', diff)) : step aMe e d = .ok d' := by
  unfold step
  rw [h]
  rfl

theorem run_known {aMe : Id} {d : InfoData} (h : Known aMe.uuid d) {events : List Event}
    (hevents : ∀ e ∈ events, e.Valid) :
    ∃ d', runAll (step aMe) events d = .ok d' ∧ Known aMe.uuid d' := by
  refine runAll_of_step (P := fun _ e => e.Valid) (fun d e h he => ?_) h
    (everyStep_of_mem (fun e he _ => hevents e he) d)
  obtain ⟨d', diff, hok, h'⟩ := process_known h he
  exact ⟨d', step_of_process hok, h'⟩

/-- What `MStart` leaves, from the descriptors that were open already. -/
structure Started (aMe : Id) (l : List (Descriptor × DescriptorInfo)) (d : InfoData) : Prop where
  graph : d.graph = .empty
  from_ : ∀ k, d.uuidFrom.find k = if k = aMe.uuid then some {invalidDescriptor} else none
  others : ∀ k, k ≠ aMe.uuid → d.fnet.net.find k = none
  own : ∃ my, d.fnet.net.find aMe.uuid = some my ∧
    ∀ u, my.customerInfo.find u = (l.find? (·.2.uuid = u)).map (·.2.link)

theorem Started.known {aMe : Id} {l : List (Descriptor × DescriptorInfo)} {d : InfoData}
    (h : Started aMe l d) : Known aMe.uuid d := by
  obtain ⟨my, hmy, -⟩ := h.own
  refine ⟨fun k => ?_, fun {k from_} hk => ?_, ⟨_, (h.from_ _).trans (if_pos rfl), by simp⟩⟩
  · rw [h.from_]
    split_ifs with hk
    · rw [hk, hmy]
      rfl
    · rw [h.others k hk]
      rfl
  · rw [h.from_] at hk
    split_ifs at hk
    cases hk
    exact Finset.singleton_nonempty _

theorem putAll_spec {aMe : Id} {done l : List (Descriptor × DescriptorInfo)} {d : InfoData}
    (h : Started aMe done d) : ∃ d', l.foldlM (fun d e => do
      let r ← putConsumerToMyInfo aMe e.1 e.2 d []
      return r.1) d = .ok d' ∧ Started aMe (done ++ l) d' := by
  induction l generalizing done d with
  | nil => exact ⟨d, rfl, by rwa [List.append_nil]⟩
  | cons e l ih =>
    obtain ⟨my, hmy, hlinks⟩ := h.own
    have hput := putConsumerToMyInfo_eq hmy e.1 e.2 []
    set d₁ : InfoData := { d with
      fnet := KernelInfosArray.wasChanged { d.fnet with
        net := d.fnet.net.insert aMe.uuid
          (relinked my (my.customerInfo.insertNew e.2.uuid e.2.link)) }
      allDescriptors := d.allDescriptors ++ [e.1] } with hd₁
    have hnet₁ : ∀ k, d₁.fnet.net.find k = if k = aMe.uuid then
        some (relinked my (my.customerInfo.insertNew e.2.uuid e.2.link))
        else d.fnet.net.find k := fun k => SortedMap.find_insert ..
    have h₁ : Started aMe (done ++ [e]) d₁ := by
      refine ⟨h.graph, h.from_, fun k hk => ?_, _, (hnet₁ _).trans (if_pos rfl), fun u => ?_⟩
      · rw [hnet₁, if_neg hk]
        exact h.others k hk
      · change (my.customerInfo.insertNew e.2.uuid e.2.link).find u = _
        rw [SortedMap.find_insertNew, List.find?_append, hlinks, hlinks]
        by_cases hu : u = e.2.uuid
        · subst hu
          cases done.find? (·.2.uuid = e.2.uuid) <;> simp
        · have hu' : ¬ e.2.uuid = u := Ne.symm hu
          simp [hu, hu']
    obtain ⟨d', hd', h'⟩ := ih h₁
    refine ⟨d', ?_, by rwa [List.append_assoc] at h'⟩
    rw [List.foldlM_cons, hput]
    exact hd'

theorem start_spec (aMe : Id) (aDescriptors : SortedMap Descriptor DescriptorInfo) :
    ∃ d, start aMe aDescriptors = .ok d ∧ Started aMe aDescriptors.entries d := by
  obtain ⟨s, hs, hstep⟩ := putKernel_spec invalidDescriptor (k := aMe.uuid)
    ⟨aMe.name, .empty, 0⟩ (s := ⟨.empty, .empty, [], []⟩) rfl rfl
  have hinit : init aMe = .ok ⟨⟨s.net, 1⟩, s.from_, .empty, .empty, []⟩ := by
    unfold init
    rw [hs]
    rfl
  have h₀ : Started aMe [] ⟨⟨s.net, 1⟩, s.from_, .empty, .empty, []⟩ := by
    refine ⟨rfl, fun k => ?_, fun k hk => ?_, ⟨aMe.name, .empty, 0⟩, ?_, fun u => rfl⟩
    · refine (hstep.from_ k).trans ?_
      split_ifs <;> rfl
    · exact (hstep.net k).trans (if_neg hk)
    · exact (hstep.net aMe.uuid).trans (if_pos rfl)
  obtain ⟨d, hd, h⟩ := putAll_spec (l := aDescriptors.entries) h₀
  refine ⟨d, ?_, h⟩
  unfold start
  rw [hinit]
  exact hd

end InfoData

end UdtKernel
