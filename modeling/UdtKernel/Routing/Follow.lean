import UdtKernel.Info.Reports
import UdtKernel.RequiredDG.Run
import UdtKernel.Routing.Inform

set_option autoImplicit false

/-! What the published differences make of the identifiers of the table. -/

namespace UdtKernel.RoutingService
open UdtKernel.Lib UdtKernel.RequiredDG

/-- No demand has been made, so that no table but that of the identifiers can change. -/
structure Undemanded (swap : SwapHeader) (dg : RequiredDG) : Prop where
  kept : Kept swap dg
  dgs : ∀ r, dg.getDemandFor r = []

variable {swap : SwapHeader}

theorem Undemanded.addClient {dg : RequiredDG} (h : Undemanded swap dg) (aId : Id)
    (hnew : dg.ids.find aId.uuid = none) : ∃ s, RequiredDG.addClient swap aId dg = .ok s ∧
      Undemanded swap s.dg ∧ s.dg.ids = dg.ids.insert aId.uuid aId.name := by
  have hno : ∀ r, ∀ d ∈ dg.getDemandFor r, False := by
    intro r d hd
    rw [h.dgs] at hd
    cases hd
  obtain ⟨s, hs, hk, hids, hdgs, -⟩ := addClient_spec h.kept hnew
    (fun r d hd => absurd (hno r d hd) id) (fun r d hd => absurd (hno r d hd) id)
  refine ⟨s, hs, ⟨hk, fun r => ?_⟩, hids⟩
  unfold getDemandFor
  rw [hdgs]
  exact h.dgs r

theorem Undemanded.removeClient {dg : RequiredDG} (h : Undemanded swap dg) {u : Uuid}
    (hu : u ≠ 0) : ∃ s, RequiredDG.removeClient swap u dg = .ok s ∧
      Undemanded swap s.dg ∧ s.dg.ids = dg.ids.erase u := by
  have hno : ∀ r, ∀ d ∈ dg.getDemandFor r, False := by
    intro r d hd
    rw [h.dgs] at hd
    cases hd
  obtain ⟨s, hs, hk, -, hor, -⟩ := removeClient_spec h.kept (u := u)
    fun r _ d hd => absurd (hno r d hd) id
  rcases hor with ⟨hsame, hinvalid⟩ | ⟨hids, hdemands⟩
  · refine ⟨s, hs, ⟨hk, fun r => by rw [hsame]; exact h.dgs r⟩, ?_⟩
    rw [hsame, SortedMap.erase_of_find_none]
    cases hfind : dg.ids.find u with
    | none => rfl
    | some name =>
      have hfalse := hinvalid name hfind
      simp [isValidId, hu] at hfalse
  · refine ⟨s, hs, ⟨hk, fun r => List.eq_nil_iff_forall_not_mem.2 fun d hd => ?_⟩, hids⟩
    exact hno r d (hdemands r d hd).2.1

def IsConsumerOf (l : List (Uuid × KernelLink)) (u : Uuid) : Prop :=
  ∃ e ∈ l, e.1 = u ∧ e.2.type = .consumer

theorem isConsumerOf_entries {links : KernLinks} {u : Uuid} :
    IsConsumerOf links.entries u ↔ u ∈ consumersOf links := by
  unfold IsConsumerOf consumersOf
  simp only [List.mem_map, List.mem_filter, decide_eq_true_eq]
  constructor
  · rintro ⟨e, he, rfl, htype⟩
    exact ⟨e, ⟨he, htype⟩, rfl⟩
  · rintro ⟨e, ⟨he, htype⟩, rfl⟩
    exact ⟨e, he, rfl, htype⟩

theorem isConsumerOf_cons {e : Uuid × KernelLink} {l : List (Uuid × KernelLink)} {u : Uuid} :
    IsConsumerOf (e :: l) u ↔ e.1 = u ∧ e.2.type = .consumer ∨ IsConsumerOf l u := by
  unfold IsConsumerOf
  simp only [List.mem_cons, exists_eq_or_imp]

theorem addAll_spec {l : List (Uuid × KernelLink)} (hl : (l.map Prod.fst).Nodup) {s : Patch}
    (h : Undemanded swap s.dg) (hnew : ∀ u, IsConsumerOf l u → s.dg.ids.find u = none) :
    ∃ s', l.foldlM (fun s e => match e.2.type with
        | .kernel => Except.ok s
        | .consumer => addClient swap ⟨e.1, e.2.name⟩ s.dg) s = .ok s' ∧
      Undemanded swap s'.dg ∧ ∀ u, (s'.dg.ids.find u).isSome ↔
        (s.dg.ids.find u).isSome ∨ IsConsumerOf l u := by
  induction l generalizing s with
  | nil => exact ⟨s, rfl, h, fun u => by simp [IsConsumerOf]⟩
  | cons e l ih =>
    obtain ⟨he, hl⟩ := List.nodup_cons.1 hl
    have hnot : ¬IsConsumerOf l e.1 := fun ⟨e', he', heq, _⟩ =>
      he (heq ▸ List.mem_map_of_mem he')
    cases htype : e.2.type with
    | kernel =>
      obtain ⟨s', hs', h', hids⟩ := ih hl h fun u hu => hnew u (isConsumerOf_cons.2 (.inr hu))
      refine ⟨s', by rw [List.foldlM_cons, htype]; exact hs', h', fun u => ?_⟩
      rw [hids, isConsumerOf_cons, htype]
      simp
    | consumer =>
      obtain ⟨s₁, hs₁, h₁, hids₁⟩ := h.addClient ⟨e.1, e.2.name⟩
        (hnew e.1 (isConsumerOf_cons.2 (.inl ⟨rfl, htype⟩)))
      obtain ⟨s', hs', h', hids⟩ := ih hl h₁ fun u hu => by
        rw [hids₁, SortedMap.find_insert, if_neg]
        · exact hnew u (isConsumerOf_cons.2 (.inr hu))
        · rintro rfl
          exact hnot hu
      refine ⟨s', ?_, h', fun u => ?_⟩
      · rw [List.foldlM_cons, htype]
        change RequiredDG.addClient swap _ s.dg >>= _ = _
        rw [hs₁]
        exact hs'
      · rw [hids, hids₁, SortedMap.find_insert, isConsumerOf_cons, htype]
        by_cases hu : u = e.1
        · simp [hu]
        · simp [hu, Ne.symm hu]

theorem removeAll_spec {l : List (Uuid × KernelLink)} {s : Patch} (h : Undemanded swap s.dg)
    (hvalid : ∀ u, IsConsumerOf l u → u ≠ 0) :
    ∃ s', l.foldlM (fun s e => match e.2.type with
        | .kernel => Except.ok s
        | .consumer => removeClient swap e.1 s.dg) s = .ok s' ∧
      Undemanded swap s'.dg ∧ ∀ u, (s'.dg.ids.find u).isSome ↔
        (s.dg.ids.find u).isSome ∧ ¬IsConsumerOf l u := by
  induction l generalizing s with
  | nil => exact ⟨s, rfl, h, fun u => by simp [IsConsumerOf]⟩
  | cons e l ih =>
    cases htype : e.2.type with
    | kernel =>
      obtain ⟨s', hs', h', hids⟩ := ih h fun u hu => hvalid u (isConsumerOf_cons.2 (.inr hu))
      refine ⟨s', by rw [List.foldlM_cons, htype]; exact hs', h', fun u => ?_⟩
      rw [hids, isConsumerOf_cons, htype]
      simp
    | consumer =>
      obtain ⟨s₁, hs₁, h₁, hids₁⟩ :=
        h.removeClient (hvalid e.1 (isConsumerOf_cons.2 (.inl ⟨rfl, htype⟩)))
      obtain ⟨s', hs', h', hids⟩ := ih h₁ fun u hu => hvalid u (isConsumerOf_cons.2 (.inr hu))
      refine ⟨s', ?_, h', fun u => ?_⟩
      · rw [List.foldlM_cons, htype]
        change RequiredDG.removeClient swap _ s.dg >>= _ = _
        rw [hs₁]
        exact hs'
      · rw [hids, hids₁, SortedMap.find_erase, isConsumerOf_cons, htype]
        by_cases hu : u = e.1
        · simp [hu]
        · simp [hu, Ne.symm hu]

/-- The consumers of a list of differences, as often as they occur. -/
def clientsOf (items : List DiffItem) : List Uuid :=
  items.flatMap fun i => consumersOf i.infos.customerInfo

theorem openAll_spec {items : List DiffItem} (hitems : (clientsOf items).Nodup) {s : Handled}
    (h : Undemanded swap s.dg) (hnew : ∀ u ∈ clientsOf items, s.dg.ids.find u = none) :
    ∃ s', items.foldlM (handleItem (handleNewId swap)) s = .ok s' ∧ Undemanded swap s'.dg ∧
      ∀ u, (s'.dg.ids.find u).isSome ↔ (s.dg.ids.find u).isSome ∨ u ∈ clientsOf items := by
  induction items generalizing s with
  | nil => exact ⟨s, rfl, h, fun u => by simp [clientsOf]⟩
  | cons i items ih =>
    have hcons : clientsOf (i :: items) =
        consumersOf i.infos.customerInfo ++ clientsOf items := List.flatMap_cons
    rw [hcons] at hitems hnew ⊢
    obtain ⟨-, hnodup, hdisjoint⟩ := List.nodup_append.1 hitems
    obtain ⟨p, hp, h₁, hids₁⟩ := addAll_spec (s := ⟨s.dg, .empty, .empty⟩)
      i.infos.customerInfo.keys_nodup h fun u hu =>
        hnew u (List.mem_append_left _ (isConsumerOf_entries.1 hu))
    simp only [isConsumerOf_entries] at hids₁
    obtain ⟨s', hs', h', hids⟩ := ih (s := ⟨p.dg, s.updates ++ [(p.new, p.removed)]⟩) hnodup h₁
      fun u hu => by
        rw [← Option.not_isSome_iff_eq_none, hids₁, not_or, Option.not_isSome_iff_eq_none]
        exact ⟨hnew u (List.mem_append_right _ hu), fun hu' => hdisjoint u hu' u hu rfl⟩
    refine ⟨s', ?_, h', fun u => ?_⟩
    · rw [List.foldlM_cons]
      change (handleNewId swap i.infos.customerInfo s.dg >>= _) >>= _ = _
      rw [show handleNewId swap i.infos.customerInfo s.dg = .ok p from hp]
      exact hs'
    · rw [hids, hids₁, List.mem_append, or_assoc]

theorem closeAll_spec {items : List DiffItem} {s : Handled} (h : Undemanded swap s.dg)
    (hvalid : ∀ u ∈ clientsOf items, u ≠ 0) :
    ∃ s', items.foldlM (handleItem (handleCloseId swap)) s = .ok s' ∧ Undemanded swap s'.dg ∧
      ∀ u, (s'.dg.ids.find u).isSome ↔ (s.dg.ids.find u).isSome ∧ u ∉ clientsOf items := by
  induction items generalizing s with
  | nil => exact ⟨s, rfl, h, fun u => by simp [clientsOf]⟩
  | cons i items ih =>
    have hcons : clientsOf (i :: items) =
        consumersOf i.infos.customerInfo ++ clientsOf items := List.flatMap_cons
    rw [hcons] at hvalid ⊢
    obtain ⟨p, hp, h₁, hids₁⟩ := removeAll_spec (s := ⟨s.dg, .empty, .empty⟩) h fun u hu =>
      hvalid u (List.mem_append_left _ (isConsumerOf_entries.1 hu))
    simp only [isConsumerOf_entries] at hids₁
    obtain ⟨s', hs', h', hids⟩ := ih (s := ⟨p.dg, s.updates ++ [(p.new, p.removed)]⟩) h₁
      fun u hu => hvalid u (List.mem_append_right _ hu)
    refine ⟨s', ?_, h', fun u => ?_⟩
    · rw [List.foldlM_cons]
      change (handleCloseId swap i.infos.customerInfo s.dg >>= _) >>= _ = _
      rw [show handleCloseId swap i.infos.customerInfo s.dg = .ok p from hp]
      exact hs'
    · rw [hids, hids₁, List.mem_append, not_or, and_assoc]

/-- What a difference makes of the identifiers of a table. -/
theorem handleDiff_spec {aDiff : KernelInfosDiff} {dg : RequiredDG} (h : Undemanded swap dg)
    (hopened : (clientsOf aDiff.opened).Nodup)
    (hnew : ∀ u ∈ clientsOf aDiff.opened, dg.ids.find u = none)
    (hvalid : ∀ u ∈ clientsOf aDiff.closed, u ≠ 0) :
    ∃ s, handleDiff swap aDiff dg = .ok s ∧ Undemanded swap s.dg ∧
      ∀ u, (s.dg.ids.find u).isSome ↔
        ((dg.ids.find u).isSome ∨ u ∈ clientsOf aDiff.opened) ∧ u ∉ clientsOf aDiff.closed := by
  obtain ⟨s₁, hs₁, h₁, hids₁⟩ := openAll_spec (s := ⟨dg, []⟩) hopened h hnew
  obtain ⟨s, hs, h', hids⟩ := closeAll_spec h₁ hvalid
  refine ⟨s, ?_, h', fun u => by rw [hids, hids₁]⟩
  unfold handleDiff
  rw [hs₁]
  exact hs

end UdtKernel.RoutingService
