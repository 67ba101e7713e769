import UdtKernel.Info.Net
import UdtKernel.Lib.Outcome

set_option autoImplicit false

/-! A snapshot of the net is merged with what is known: `MMergeWithNetInfo`. -/

namespace UdtKernel.InfoData
open UdtKernel.Lib

/-- The descriptors of a kernel after a snapshot, from what the snapshot and the net say. -/
def newFrom (aFrom : Descriptor) :
    Option KernelInfos → Option KernelInfos → Option (Finset Descriptor) →
      Option (Finset Descriptor)
  | some _, none, _ => some {aFrom}
  | none, some _, some from_ => if from_ = {aFrom} then none else some (from_.erase aFrom)
  | _, _, from_ => from_

def newNet (aFrom : Descriptor) :
    Option KernelInfos → Option KernelInfos → Option (Finset Descriptor) → Option KernelInfos
  | some new, none, _ => some new
  | none, some old, from_ => if from_ = some {aFrom} then none else some old
  | some new, some old, _ => some (if old.indexNumber < new.indexNumber then new else old)
  | none, none, _ => none

def openedOf (k : Uuid) : Option KernelInfos → Option KernelInfos → List DiffItem
  | some new, none => [⟨k, new, true⟩]
  | some new, some old =>
    let added := without new.customerInfo old.customerInfo
    if old.indexNumber < new.indexNumber ∧ added.entries ≠ [] then
      [⟨k, { old with customerInfo := added }, false⟩]
    else []
  | none, _ => []

def closedOf (aFrom : Descriptor) (k : Uuid) :
    Option KernelInfos → Option KernelInfos → Option (Finset Descriptor) → List DiffItem
  | none, some old, from_ => if from_ = some {aFrom} then [⟨k, old, true⟩] else []
  | some new, some old, _ =>
    let removed := without old.customerInfo new.customerInfo
    if old.indexNumber < new.indexNumber ∧ removed.entries ≠ [] then
      [⟨k, { new with customerInfo := removed }, false⟩]
    else []
  | _, none, _ => []

def mergeStep (aFrom : Descriptor) (s : Merge)
    (p : Uuid × Option KernelInfos × Option KernelInfos) : Except Abort Merge :=
  match p.2 with
  | (some new, none) => putKernel aFrom p.1 new s
  | (none, some old) => popKernel aFrom p.1 old s
  | (some new, some old) => .ok (updateKernel p.1 new old s)
  | (none, none) => .ok s

theorem synchronizeLoop_eq (aFrom : Descriptor) (news olds : List (Uuid × KernelInfos))
    (s : Merge) : synchronizeLoop aFrom news olds s =
      (pairUp news olds).foldlM (mergeStep aFrom) s := by
  induction news generalizing olds s with
  | nil =>
    change olds.foldlM (fun s old => popKernel aFrom old.1 old.2 s) s = _
    unfold pairUp
    induction olds generalizing s with
    | nil => rfl
    | cons old olds ih =>
      rw [List.foldlM_cons, List.map_cons, List.foldlM_cons]
      exact congrArg _ (funext fun t => ih t)
  | cons new news ih =>
    change synchronizeStep aFrom new (synchronizeLoop aFrom news) olds s =
      (pairStep new (pairUp news) olds).foldlM (mergeStep aFrom) s
    induction olds generalizing s with
    | nil =>
      unfold synchronizeStep pairStep
      rw [List.foldlM_cons]
      exact congrArg _ (funext fun t => ih [] t)
    | cons old olds ih' =>
      unfold synchronizeStep pairStep
      split_ifs with hlt hgt
      · rw [List.foldlM_cons]
        exact congrArg _ (funext fun t => ih (old :: olds) t)
      · rw [List.foldlM_cons]
        exact congrArg _ (funext fun t => ih' t)
      · rw [List.foldlM_cons]
        exact ih olds _

structure Stepped (aFrom : Descriptor) (p : Uuid × Option KernelInfos × Option KernelInfos)
    (s s' : Merge) : Prop where
  from_ : ∀ k, s'.from_.find k =
    if k = p.1 then newFrom aFrom p.2.1 p.2.2 (s.from_.find k) else s.from_.find k
  net : ∀ k, s'.net.find k =
    if k = p.1 then newNet aFrom p.2.1 p.2.2 (s.from_.find k) else s.net.find k
  opened : s'.opened = s.opened ++ openedOf p.1 p.2.1 p.2.2
  closed : s'.closed = s.closed ++ closedOf aFrom p.1 p.2.1 p.2.2 (s.from_.find p.1)

theorem mem_and_erase_iff {d : Descriptor} {from_ : Finset Descriptor} :
    d ∈ from_ ∧ from_.erase d = ∅ ↔ from_ = {d} := by
  constructor
  · rintro ⟨hmem, hempty⟩
    rw [← Finset.insert_erase hmem, hempty]
    rfl
  · rintro rfl
    simp

theorem putKernel_spec (aFrom : Descriptor) {k : Uuid} (new : KernelInfos) {s : Merge}
    (hfrom : s.from_.find k = none) (hnet : s.net.find k = none) :
    ∃ s', putKernel aFrom k new s = .ok s' ∧ Stepped aFrom (k, some new, none) s s' := by
  unfold putKernel
  rw [hfrom]
  refine ⟨_, rfl, fun k' => ?_, fun k' => ?_, rfl, by simp [closedOf]⟩
  · change (s.from_.alter k _).find k' = _
    rw [SortedMap.find_alter, hfrom]
    rfl
  · change (s.net.insertNew k new).find k' = _
    rw [SortedMap.find_insertNew, hnet]
    rfl

theorem popKernel_spec {aFrom : Descriptor} {k : Uuid} {old : KernelInfos} {s : Merge}
    {from_ : Finset Descriptor} (hfrom : s.from_.find k = some from_)
    (hnet : s.net.find k = none) :
    ∃ s', popKernel aFrom k old s = .ok s' ∧ Stepped aFrom (k, none, some old) s s' := by
  unfold popKernel
  rw [hfrom]
  simp only [mem_and_erase_iff]
  by_cases hlast : from_ = {aFrom}
  · rw [if_pos hlast]
    refine ⟨_, rfl, fun k' => ?_, fun k' => ?_, by simp [openedOf], ?_⟩
    · change (s.from_.erase k).find k' = _
      rw [SortedMap.find_erase]
      split_ifs with hk
      · subst hk
        simp [newFrom, hfrom, hlast]
      · rfl
    · split_ifs with hk
      · subst hk
        simp [newNet, hnet, hfrom, hlast]
      · rfl
    · simp [closedOf, hfrom, hlast]
  · rw [if_neg hlast]
    refine ⟨_, rfl, fun k' => ?_, fun k' => ?_, by simp [openedOf], ?_⟩
    · change (s.from_.insert k _).find k' = _
      rw [SortedMap.find_insert]
      split_ifs with hk
      · subst hk
        simp [newFrom, hfrom, hlast]
      · rfl
    · change (s.net.insertNew k old).find k' = _
      rw [SortedMap.find_insertNew, hnet]
      split_ifs with hk
      · subst hk
        simp [newNet, hfrom, hlast]
      · rfl
    · simp [closedOf, hfrom, hlast]

theorem updateKernel_spec {k : Uuid} {new old : KernelInfos} {s : Merge}
    (hnet : s.net.find k = none) (aFrom : Descriptor) :
    Stepped aFrom (k, some new, some old) s (updateKernel k new old s) := by
  unfold updateKernel
  by_cases hlt : old.indexNumber < new.indexNumber
  · rw [if_pos hlt]
    refine ⟨fun k' => ?_, fun k' => ?_, ?_, ?_⟩
    · simp [newFrom, getCustomerDiff]
    · change (s.net.insertNew k new).find k' = _
      rw [SortedMap.find_insertNew, hnet]
      simp [newNet, hlt]
    · simp only [getCustomerDiff, openedOf, hlt, true_and]
      split_ifs <;> simp_all
    · simp only [getCustomerDiff, closedOf, hlt, true_and]
      split_ifs <;> simp_all
  · rw [if_neg hlt]
    refine ⟨fun k' => ?_, fun k' => ?_, ?_, ?_⟩
    · simp [newFrom]
    · change (s.net.insertNew k old).find k' = _
      rw [SortedMap.find_insertNew, hnet]
      simp [newNet, hlt]
    · simp [openedOf, hlt]
    · simp [closedOf, hlt]

/-- What `mergeStep` finds: a kernel that has descriptors is one of the net. -/
def Consistent (s : Merge) (p : Uuid × Option KernelInfos × Option KernelInfos) : Prop :=
  (s.from_.find p.1).isSome = p.2.2.isSome ∧ (p.2.1.isSome = true ∨ p.2.2.isSome = true)

theorem mergeStep_spec (aFrom : Descriptor) {s : Merge}
    {p : Uuid × Option KernelInfos × Option KernelInfos} (hnet : s.net.find p.1 = none)
    (hp : Consistent s p) : ∃ s', mergeStep aFrom s p = .ok s' ∧ Stepped aFrom p s s' := by
  obtain ⟨k, new, old⟩ := p
  obtain ⟨hfrom, hsome⟩ := hp
  cases new with
  | none =>
    cases old with
    | none => simp at hsome
    | some old =>
      obtain ⟨from_, hfrom⟩ := Option.isSome_iff_exists.1 hfrom
      exact popKernel_spec hfrom hnet
  | some new =>
    cases old with
    | none => exact putKernel_spec aFrom new (by simpa using hfrom) hnet
    | some old => exact ⟨_, rfl, updateKernel_spec hnet aFrom⟩

structure Merged (aFrom : Descriptor) (l : List (Uuid × Option KernelInfos × Option KernelInfos))
    (s s' : Merge) : Prop where
  others : ∀ k, (∀ p ∈ l, p.1 ≠ k) →
    s'.from_.find k = s.from_.find k ∧ s'.net.find k = s.net.find k
  at_ : ∀ p ∈ l, s'.from_.find p.1 = newFrom aFrom p.2.1 p.2.2 (s.from_.find p.1) ∧
    s'.net.find p.1 = newNet aFrom p.2.1 p.2.2 (s.from_.find p.1)
  opened : ∀ i, i ∈ s'.opened ↔ i ∈ s.opened ∨ ∃ p ∈ l, i ∈ openedOf p.1 p.2.1 p.2.2
  closed : ∀ i, i ∈ s'.closed ↔
    i ∈ s.closed ∨ ∃ p ∈ l, i ∈ closedOf aFrom p.1 p.2.1 p.2.2 (s.from_.find p.1)

theorem mergeAll_spec (aFrom : Descriptor)
    {l : List (Uuid × Option KernelInfos × Option KernelInfos)} {s : Merge}
    (hl : l.Pairwise fun p q => p.1 < q.1) (hnet : ∀ p ∈ l, s.net.find p.1 = none)
    (hp : ∀ p ∈ l, Consistent s p) :
    ∃ s', l.foldlM (mergeStep aFrom) s = .ok s' ∧ Merged aFrom l s s' := by
  induction l generalizing s with
  | nil => exact ⟨s, rfl, fun _ _ => ⟨rfl, rfl⟩, by simp, by simp, by simp⟩
  | cons p l ih =>
    obtain ⟨hlt, hl⟩ := List.pairwise_cons.1 hl
    obtain ⟨s₁, hs₁, h₁⟩ := mergeStep_spec aFrom (hnet p List.mem_cons_self)
      (hp p List.mem_cons_self)
    have hfrom : ∀ k, k ≠ p.1 → s₁.from_.find k = s.from_.find k := fun k hk => by
      rw [h₁.from_, if_neg hk]
    have hnet₁ : ∀ k, k ≠ p.1 → s₁.net.find k = s.net.find k := fun k hk => by
      rw [h₁.net, if_neg hk]
    have hne : ∀ q ∈ l, q.1 ≠ p.1 := fun q hq => ne_of_gt (hlt q hq)
    obtain ⟨s', hs', h'⟩ := ih hl
      (fun q hq => (hnet₁ _ (hne q hq)).trans (hnet q (List.mem_cons_of_mem p hq)))
      (fun q hq => by
        unfold Consistent
        rw [hfrom _ (hne q hq)]
        exact hp q (List.mem_cons_of_mem p hq))
    refine ⟨s', ?_, fun k hk => ?_, fun q hq => ?_, fun i => ?_, fun i => ?_⟩
    · rw [List.foldlM_cons, hs₁]
      exact hs'
    · have hkp : k ≠ p.1 := Ne.symm (hk p List.mem_cons_self)
      obtain ⟨hf, hn⟩ := h'.others k fun q hq => hk q (List.mem_cons_of_mem p hq)
      exact ⟨hf.trans (hfrom k hkp), hn.trans (hnet₁ k hkp)⟩
    · rcases List.mem_cons.1 hq with rfl | hq
      · obtain ⟨hf, hn⟩ := h'.others q.1 hne
        rw [hf, hn, h₁.from_, h₁.net, if_pos rfl, if_pos rfl]
        exact ⟨rfl, rfl⟩
      · rw [← hfrom _ (hne q hq)]
        exact h'.at_ q hq
    · rw [h'.opened, h₁.opened, List.mem_append, or_assoc]
      simp only [List.mem_cons, exists_eq_or_imp]
    · rw [h'.closed, h₁.closed, List.mem_append, or_assoc]
      simp only [List.mem_cons, exists_eq_or_imp]
      refine or_congr_right (or_congr_right (exists_congr fun q => and_congr_right fun hq => ?_))
      rw [hfrom _ (hne q hq)]

/-- Exactly the kernels of the net have descriptors, each at least one, and the own kernel keeps
    the one it has been given. -/
structure Known (aMe : Uuid) (d : InfoData) : Prop where
  keys : ∀ k, (d.uuidFrom.find k).isSome = (d.fnet.net.find k).isSome
  nonempty : ∀ {k from_}, d.uuidFrom.find k = some from_ → from_.Nonempty
  own : ∃ from_, d.uuidFrom.find aMe = some from_ ∧ invalidDescriptor ∈ from_

structure Synced (aFrom : Descriptor) (new : SortedMap Uuid KernelInfos) (d d' : InfoData)
    (diff : KernelInfosDiff) : Prop where
  from_ : ∀ k, d'.uuidFrom.find k =
    newFrom aFrom (new.find k) (d.fnet.net.find k) (d.uuidFrom.find k)
  opened : ∀ i, i ∈ diff.opened ↔ ∃ k, i ∈ openedOf k (new.find k) (d.fnet.net.find k)
  closed : ∀ i, i ∈ diff.closed ↔
    ∃ k, i ∈ closedOf aFrom k (new.find k) (d.fnet.net.find k) (d.uuidFrom.find k)
  changed : diff.isValid = true → ∀ k, d'.fnet.net.find k =
    newNet aFrom (new.find k) (d.fnet.net.find k) (d.uuidFrom.find k)
  same : diff.isValid = false → d'.fnet = d.fnet

theorem synchronizeNetInfo_spec {aMe : Uuid} {d : InfoData} (h : Known aMe d)
    (aNewNet : KernelInfosArray) (aFrom : Descriptor) :
    ∃ d' diff, synchronizeNetInfo aNewNet aFrom d = .ok (d', diff) ∧
      Synced aFrom aNewNet.net d d' diff ∧ d'.graph = d.graph := by
  obtain ⟨hsorted, hmem⟩ := pairUp_spec aNewNet.net.sorted d.fnet.net.sorted
  have hmem' : ∀ k a b, (k, a, b) ∈ pairUp aNewNet.net.entries d.fnet.net.entries ↔
      a = aNewNet.net.find k ∧ b = d.fnet.net.find k ∧ (a.isSome = true ∨ b.isSome = true) := hmem
  obtain ⟨s, hs, hmerged⟩ := mergeAll_spec aFrom
    (s := ⟨d.uuidFrom, .empty, [], []⟩) hsorted (fun _ _ => rfl) fun p hp => by
      obtain ⟨k, a, b⟩ := p
      obtain ⟨-, hb, hsome⟩ := (hmem' k a b).1 hp
      exact ⟨(h.keys k).trans (congrArg _ hb.symm), hsome⟩
  have hfound : ∀ k, s.from_.find k = newFrom aFrom (aNewNet.net.find k) (d.fnet.net.find k)
        (d.uuidFrom.find k) ∧
      s.net.find k = newNet aFrom (aNewNet.net.find k) (d.fnet.net.find k)
        (d.uuidFrom.find k) := by
    intro k
    by_cases hsome : (aNewNet.net.find k).isSome = true ∨ (d.fnet.net.find k).isSome = true
    · exact hmerged.at_ _ ((hmem' k _ _).2 ⟨rfl, rfl, hsome⟩)
    · simp only [not_or, Option.not_isSome_iff_eq_none] at hsome
      obtain ⟨hf, hn⟩ := hmerged.others k fun p hp heq => by
        obtain ⟨k', a, b⟩ := p
        obtain ⟨rfl, rfl, hor⟩ := (hmem' k' a b).1 hp
        change k' = k at heq
        rw [heq, hsome.1, hsome.2] at hor
        simp at hor
      rw [hf, hn, hsome.1, hsome.2]
      exact ⟨rfl, rfl⟩
  have hlists : ∀ (f : Uuid → Option KernelInfos → Option KernelInfos → List DiffItem) i,
      (∀ k, f k none none = []) →
      ((∃ p ∈ pairUp aNewNet.net.entries d.fnet.net.entries, i ∈ f p.1 p.2.1 p.2.2) ↔
        ∃ k, i ∈ f k (aNewNet.net.find k) (d.fnet.net.find k)) := by
    intro f i hnone
    constructor
    · rintro ⟨⟨k, a, b⟩, hp, hi⟩
      obtain ⟨rfl, rfl, -⟩ := (hmem' k a b).1 hp
      exact ⟨k, hi⟩
    · rintro ⟨k, hi⟩
      refine ⟨(k, _, _), (hmem' k _ _).2 ⟨rfl, rfl, ?_⟩, hi⟩
      by_contra hsome
      simp only [not_or, Option.not_isSome_iff_eq_none] at hsome
      rw [hsome.1, hsome.2, hnone] at hi
      cases hi
  have hloop : synchronizeNetInfo aNewNet aFrom d = .ok
      ({ d with
        fnet := if KernelInfosDiff.isValid ⟨s.opened, s.closed⟩ then
          KernelInfosArray.wasChanged { d.fnet with net := s.net } else d.fnet
        uuidFrom := s.from_ }, ⟨s.opened, s.closed⟩) := by
    unfold synchronizeNetInfo
    rw [synchronizeLoop_eq, hs]
    rfl
  refine ⟨_, _, hloop, ⟨fun k => (hfound k).1, fun i => ?_, fun i => ?_, fun hvalid k => ?_,
    fun hvalid => ?_⟩, rfl⟩
  · rw [hmerged.opened, ← hlists openedOf i fun _ => rfl]
    simp
  · rw [hmerged.closed,
      ← hlists (fun k a b => closedOf aFrom k a b (d.uuidFrom.find k)) i fun _ => rfl]
    simp
  · change (ite _ _ _ : KernelInfosArray).net.find k = _
    rw [if_pos hvalid]
    exact (hfound k).2
  · change (ite _ _ _ : KernelInfosArray) = _
    rw [if_neg (by rw [hvalid]; exact Bool.false_ne_true)]

end UdtKernel.InfoData
