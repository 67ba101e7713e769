import UdtKernel.Genealogy.Descendants

set_option autoImplicit false

/-! What is known of the messages after each circle of the loop over the heirs. -/

namespace UdtKernel.Making
open UdtKernel.Lib UdtKernel.Lib.NestedMap

/-- The messages a circle has before it when its iterator has `rest` before it. -/
def todoOf (rest : List Protocol) (direct : HeirTree) : List Msg :=
  rest.flatMap fun p => (keysOf direct p).map fun h => (p, h)

structure InCircle (info : HeirTree) (st : Making) : Prop where
  sound : st.Sound info
  sorted : st.rest.Pairwise (· < ·)
  ahead : st.Ahead info (todoOf st.rest st.direct)
  filled : ∀ p ∈ st.direct.keys, keysOf st.direct p = [] → st.depth = 0 ∧ p ∈ st.rest

theorem keysOf_sorted (direct : HeirTree) (p : Protocol) :
    (keysOf direct p).Pairwise (· < ·) := SortedMap.keys_sorted _

theorem mem_todoOf {rest : List Protocol} {direct : HeirTree} {x : Msg} :
    x ∈ todoOf rest direct ↔ x.1 ∈ rest ∧ (at_ direct x).isSome := by
  unfold todoOf
  rw [List.mem_flatMap]
  constructor
  · rintro ⟨p, hp, hx⟩
    obtain ⟨h, hh, rfl⟩ := List.mem_map.1 hx
    exact ⟨hp, mem_keysOf_iff.1 hh⟩
  · rintro ⟨hp, hx⟩
    exact ⟨x.1, hp, List.mem_map.2 ⟨x.2, mem_keysOf_iff.2 hx, rfl⟩⟩

theorem todoOf_sorted {rest : List Protocol} (h : rest.Pairwise (· < ·)) (direct : HeirTree) :
    (todoOf rest direct).Pairwise Precedes :=
  pairwise_flatMap_keys h fun p _ => keysOf_sorted direct p

theorem mem_keys_of_isSome {direct : HeirTree} {x : Msg} (h : (at_ direct x).isSome) :
    x.1 ∈ direct.keys := by
  rw [SortedMap.mem_keys_iff, ← Option.isSome_iff_exists, Option.isSome_iff_ne_none]
  intro hnone
  rw [at_eq_none_of_find hnone] at h
  cases h

/-- A visit touches the tree of its own protocol only. -/
theorem visit_find (p : Protocol) (h : Header) (st : Making) {q : Protocol} (hq : q ≠ p) :
    (st.visit (p, h)).direct.find q = st.direct.find q := by
  rcases visit_cases (p, h) st with ⟨-, hv⟩ | ⟨f, -, ⟨-, hv⟩ | ⟨-, hv⟩⟩
  · rw [hv]
  · rw [hv]
  · rw [hv]
    exact SortedMap.find_alter_of_ne _ _ hq

theorem visits_find (p : Protocol) (l : List Header) (st : Making) {q : Protocol} (hq : q ≠ p) :
    (l.foldl (fun st h => st.visit (p, h)) st).direct.find q = st.direct.find q := by
  induction l generalizing st with
  | nil => rfl
  | cons h l ih => rw [List.foldl_cons, ih, visit_find p h st hq]

/-- Both invariants see a direct heir tree through its messages only. -/
theorem Sound.congr {info : HeirTree} {st : Making} {direct : HeirTree} (h : st.Sound info)
    (hat : ∀ y, at_ direct y = at_ st.direct y) (rest : List Protocol) :
    Making.Sound info { st with rest := rest, direct := direct } := by
  refine ⟨fun x f hx => h.direct x f ?_, fun x g hx => ?_, h.descendants, h.noBases,
    fun x hx => ?_, h.closed, h.leaf, h.named, h.peopled⟩
  · rw [← hat]
    exact hx
  · exact (hat x).trans (h.left x g hx)
  · rw [hat]
    exact h.cover x hx

theorem Ahead.congr {info : HeirTree} {st : Making} {direct : HeirTree} {todo : List Msg}
    (h : st.Ahead info todo) (hat : ∀ y, at_ direct y = at_ st.direct y) (rest : List Protocol) :
    Making.Ahead info todo { st with rest := rest, direct := direct } := by
  refine ⟨h.sorted, fun x hx => h.height x ?_, fun x hx => h.visited x ?_,
    fun x hx => h.early x ?_, h.short, fun x he h3 hx => h.long x he h3 ?_⟩
  · rw [← hat]
    exact hx
  · rw [← hat]
    exact hx
  · rw [← hat]
    exact hx
  · rw [← hat]
    exact hx

theorem at_dropEmpty (direct : HeirTree) (p : Protocol) (y : Msg) :
    at_ (dropEmpty direct p) y = at_ direct y := by
  unfold dropEmpty
  split
  · rename_i hempty
    rw [List.isEmpty_iff] at hempty
    by_cases hy : y.1 = p
    · have hnone : at_ direct y = none := by
        rw [← Option.not_isSome_iff_eq_none]
        intro hsome
        have hmem : y.2 ∈ keysOf direct p := mem_keysOf_iff.2 (by rw [← hy]; exact hsome)
        rw [hempty] at hmem
        cases hmem
      rw [hnone, at_eq_none_of_find]
      rw [hy, SortedMap.find_erase_self]
    · unfold at_
      rw [SortedMap.find_erase, if_neg hy]
  · rfl

theorem find_dropEmpty (direct : HeirTree) {p q : Protocol} (hq : q ≠ p) :
    (dropEmpty direct p).find q = direct.find q := by
  unfold dropEmpty
  split
  · rw [SortedMap.find_erase, if_neg hq]
  · rfl

theorem keysOf_dropEmpty {direct : HeirTree} {p : Protocol} (h : p ∈ (dropEmpty direct p).keys) :
    keysOf (dropEmpty direct p) p ≠ [] := by
  unfold dropEmpty at h ⊢
  split at h
  · rw [SortedMap.mem_keys_iff, SortedMap.find_erase_self] at h
    obtain ⟨_, h⟩ := h
    cases h
  · rename_i hne
    rw [if_neg hne]
    exact fun h => hne (List.isEmpty_iff.2 h)

section Circles

variable {info : HeirTree} (hone : info.OneHeir)
  (hchains : info.ChainsWithin maxInheritanceDepth) (hread : info.Readable)
include hone hchains hread

theorem Ahead.visits (p : Protocol) {l : List Header} {todo : List Msg} {st : Making}
    (hst : st.Sound info) (h : st.Ahead info (l.map (fun h => (p, h)) ++ todo)) :
    (l.foldl (fun st h => st.visit (p, h)) st).Sound info ∧
      (l.foldl (fun st h => st.visit (p, h)) st).Ahead info todo := by
  induction l generalizing st with
  | nil => exact ⟨hst, h⟩
  | cons a l ih =>
    obtain ⟨hst', h'⟩ := Ahead.visit hone hchains hread hst h
    exact ih hst' h'

omit hone hchains hread in
/-- A new circle begins with all messages that are left. -/
theorem InCircle.nextCircle {st : Making} (h : st.InCircle info) : st.nextCircle.InCircle info := by
  unfold Making.nextCircle
  split
  · rename_i hrest
    rw [List.isEmpty_iff] at hrest
    obtain ⟨hsound, -, hahead, hfilled⟩ := h
    rw [hrest] at hahead hfilled
    have hall : ∀ x, (at_ st.direct x).isSome → x ∈ todoOf st.direct.keys st.direct :=
      fun x hx => mem_todoOf.2 ⟨mem_keys_of_isSome hx, hx⟩
    refine ⟨⟨hsound.direct, hsound.left, hsound.descendants, hsound.noBases, hsound.cover,
      hsound.closed, hsound.leaf, hsound.named, hsound.peopled⟩, st.direct.keys_sorted,
      ⟨todoOf_sorted st.direct.keys_sorted _, fun x hx => hahead.visited x hx List.not_mem_nil,
        fun x hx hmem => absurd (hall x hx) hmem, fun x hx he => ?_, hahead.short, hahead.long⟩,
      fun p hp hnil => ?_⟩
    · exact absurd (hahead.early x hx he).2 List.not_mem_nil
    · exact absurd (hfilled p hp hnil).2 List.not_mem_nil
  · exact h

/-- One turn of the loop over the protocols. -/
theorem InCircle.turn {st : Making} (h : st.InCircle info) : st.turn.InCircle info := by
  have hnext := h.nextCircle
  unfold Making.turn
  generalize st.nextCircle = st' at hnext ⊢
  obtain ⟨hsound, hsorted, hahead, hfilled⟩ := hnext
  dsimp only
  split
  · exact ⟨hsound, hsorted, hahead, hfilled⟩
  · rename_i p rest hrest
    rw [hrest] at hsorted hahead hfilled
    obtain ⟨hp, hsorted'⟩ := List.pairwise_cons.1 hsorted
    obtain ⟨hsound', hahead'⟩ := Ahead.visits hone hchains hread p hsound hahead
    have hfind : ∀ q, q ≠ p → (dropEmpty ((keysOf st'.direct p).foldl
        (fun st h => st.visit (p, h)) st').direct p).find q = st'.direct.find q :=
      fun q hq => (find_dropEmpty _ hq).trans (visits_find p _ st' hq)
    have hdepth := visits_depth p (keysOf st'.direct p) st'
    have hkeysOf : ∀ q, q ≠ p → keysOf (dropEmpty ((keysOf st'.direct p).foldl
        (fun st h => st.visit (p, h)) st').direct p) q = keysOf st'.direct q :=
      fun q hq => congrArg (fun o => (o.getD .empty).keys) (hfind q hq)
    refine ⟨hsound'.congr (at_dropEmpty _ p) rest, hsorted', ?_, fun q hq hnil => ?_⟩
    · have htodo : todoOf rest (dropEmpty ((keysOf st'.direct p).foldl
          (fun st h => st.visit (p, h)) st').direct p) = todoOf rest st'.direct := by
        unfold todoOf
        refine List.flatMap_congr fun q hq => ?_
        rw [hkeysOf q (ne_of_gt (hp q hq))]
      dsimp only
      rw [htodo]
      exact hahead'.congr (at_dropEmpty _ p) rest
    · have hqp : q ≠ p := by
        rintro rfl
        exact keysOf_dropEmpty hq hnil
      rw [SortedMap.mem_keys_iff] at hq
      obtain ⟨t, ht⟩ := hq
      have ht' := (hfind q hqp).symm.trans ht
      have hnil' := (hkeysOf q hqp).symm.trans hnil
      obtain ⟨h0, hmem⟩ := hfilled q ((SortedMap.mem_keys_iff _ q).2 ⟨t, ht'⟩) hnil'
      exact ⟨hdepth.trans h0, List.mem_of_ne_of_mem hqp hmem⟩

omit hone hread in
/-- The loop starts with all messages before it. -/
theorem InCircle.start : (Making.start info).InCircle info := by
  have hlength : ∀ x, (at_ info x).isSome → 0 < (info.descendants x).length := by
    intro x hx
    obtain ⟨f, hf⟩ := Option.isSome_iff_exists.1 hx
    rw [descendants_of_heir hchains hf]
    exact Nat.succ_pos _
  have hall : ∀ x, (at_ info x).isSome → x ∈ todoOf info.keys info :=
    fun x hx => mem_todoOf.2 ⟨mem_keys_of_isSome hx, hx⟩
  have hno : ∀ x g, at_ (Making.start info).aTo x ≠ some g := fun x g h => by cases h
  have hnot : ∀ x, ¬(at_ (Making.start info).aTo x).isSome := fun x h => by cases h
  refine ⟨⟨fun _ _ h => h, fun x g h => absurd h (hno x g), fun x g h => absurd h (hno x g),
      fun x g h => absurd h (hno x g), fun _ h => .inl h, fun x y h => absurd h (hnot x),
      fun x g h => absurd h (hno x g), fun x g c h => absurd h (hno x g), fun p hp => by cases hp⟩,
    info.keys_sorted,
    ⟨todoOf_sorted info.keys_sorted _, hlength, fun x hx hmem => absurd (hall x hx) hmem,
      fun x hx _ => ⟨rfl, hall x hx⟩, fun _ => rfl, fun x he _ hx => ?_⟩, fun p hp _ => ⟨rfl, hp⟩⟩
  have hnone : info.heir x = none := HeirTree.heir_eq_none.2 hx
  cases he with
  | last h => rw [hnone] at h; cases h
  | step h => rw [hnone] at h; cases h

/-- The loop ends with an empty direct heir tree. -/
theorem create_spec {n : ℕ} {st : Making}
    (h : createGenealogyTreeFromChildInfo n info = some st) :
    st.direct.keys = [] ∧ st.InCircle info := by
  obtain ⟨hst, hstop⟩ := repeatWhile_invariant
    (fun _ hs _ => InCircle.turn hone hchains hread hs) (InCircle.start hchains) h
  refine ⟨?_, hst⟩
  unfold goesOn at hstop
  rcases Bool.and_eq_false_iff.1 hstop with hempty | hdepth
  · simpa using hempty
  · have hmax : maxInheritanceDepth ≤ st.depth := not_lt.1 (of_decide_eq_false hdepth)
    refine List.eq_nil_iff_forall_not_mem.2 fun p hp => ?_
    cases hkeys : keysOf st.direct p with
    | nil =>
      have h0 := (hst.filled p hp hkeys).1
      rw [h0] at hmax
      cases hmax
    | cons a l =>
      have hsome : (at_ st.direct (p, a)).isSome :=
        mem_keysOf_iff.1 (by rw [hkeys]; exact List.mem_cons_self)
      have hlt := hst.ahead.height (p, a) hsome
      have hle : (info.descendants (p, a)).length ≤ maxInheritanceDepth := chain_length_le _ _
      omega

end Circles

end UdtKernel.Making
