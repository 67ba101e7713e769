import UdtKernel.Genealogy.FamilyTree
import UdtKernel.Genealogy.Create

set_option autoImplicit false

/-! The messages whose genealogy comes out in hierarchical order. -/

namespace UdtKernel
open UdtKernel.Lib UdtKernel.Lib.NestedMap

/-- The nearer ancestors come before the further too. -/
structure IsGenealogy (info : HeirTree) (tree : GenealogyTree) : Prop extends
    IsFamilyTree info tree where
  baseSorted : ∀ x f, at_ tree x = some f →
    (f.baseMessages.map InheritanceMsgHeader.depth).Pairwise (· ≤ ·)

/-- `MCreateGenealogyTreeFromChildInfo` and `MParentInfo` make a genealogy of what they are
    given, no check of theirs fails, and the tree passes the check of genealogies. -/
def IsSettled (info : HeirTree) : Prop :=
  ∃ n st filled, createGenealogyTreeFromChildInfo n info = some st ∧
    parentInfo st.aTo = (true, filled) ∧ st.direct.keys = [] ∧ st.invalid = [] ∧
    filled.invalid = [] ∧ IsGenealogy info filled.tree ∧
    checkCorrectionOfGenealogyTree filled.tree false = 0 ∧
    checkCorrectionOfGenealogyTree filled.tree true = 0

/-- The inputs whose ancestors come out in order: a message is the heir of one at most, an heir
    that has one itself comes before the message, and it ends there. -/
structure HeirTree.InOrder (info : HeirTree) : Prop where
  named : ∀ x, info.IsMessage x → x.1.name ≠ []
  oneBase : ∀ x y z, info.heir x = some z → info.heir y = some z → x = y
  sorted : ∀ x y z, info.heir x = some y → info.heir y = some z → Precedes y x
  short : ∀ x y z, info.heir x = some y → info.heir y = some z → info.heir z = none

namespace HeirTree

theorem mem_allKeys_of_heir {info : HeirTree} {x y : Msg} (h : info.heir x = some y) :
    x ∈ allKeys info := by
  obtain ⟨f, hf, -⟩ := Option.map_eq_some_iff.1 h
  rw [mem_allKeys_iff, hf]
  rfl

theorem inOrder_iff {info : HeirTree} : info.InOrder ↔ ∀ x ∈ allKeys info, ∀ y ∈ info.heir x,
    x.1.name ≠ [] ∧ y.1.name ≠ [] ∧ (∀ x' ∈ allKeys info, info.heir x' = some y → x' = x) ∧
      ∀ z ∈ info.heir y, Precedes y x ∧ info.heir z = none := by
  constructor
  · intro h x hx y hy
    exact ⟨h.named x (.inl (mem_allKeys_iff.1 hx)), h.named y (.inr ⟨x, hy⟩),
      fun x' _ hx' => h.oneBase x' x y hx' hy,
      fun z hz => ⟨h.sorted x y z hy hz, h.short x y z hy hz⟩⟩
  · intro h
    refine ⟨fun x hx => ?_, fun x y z hx hy => ?_, fun x y z hx hy => ?_, fun x y z hx hy => ?_⟩
    · rcases hx with hx | ⟨y, hy⟩
      · obtain ⟨f, hf⟩ := Option.isSome_iff_exists.1 hx
        exact (h x (mem_allKeys_iff.2 hx) f.back.key (by rw [heir, hf]; rfl)).1
      · exact (h y (mem_allKeys_of_heir hy) x hy).2.1
    · exact (h y (mem_allKeys_of_heir hy) z hy).2.2.1 x (mem_allKeys_of_heir hx) hx
    · exact ((h x (mem_allKeys_of_heir hx) y hx).2.2.2 z hy).1
    · exact ((h x (mem_allKeys_of_heir hx) y hx).2.2.2 z hy).2

instance (info : HeirTree) : Decidable info.InOrder := decidable_of_iff _ inOrder_iff.symm

end HeirTree

namespace Making

/-- Nothing is put to the parents before `MParentInfo`. -/
def NoBases (st : Making) : Prop :=
  (∀ x f, at_ st.direct x = some f → f.family.baseMessages = []) ∧
    ∀ x g, at_ st.aTo x = some g → g.baseMessages = []

theorem finish_noBases {x : Msg} {f : HeirFamily} {st : Making} (h : st.NoBases)
    (hf : at_ st.direct x = some f) : (st.finish x f).NoBases := by
  refine ⟨fun y g hg => h.1 y g (direct_of_finish hg).2, fun y g hg => ?_⟩
  unfold finish at hg
  dsimp only at hg
  rw [at_alterAt] at hg
  split_ifs at hg
  · cases hg
    exact (MsgFamily.putChildrenOfChild_base _ _).trans (h.1 x f hf)
  · rw [at_alterAt] at hg
    split_ifs at hg
    · cases hc : at_ st.aTo f.back.key with
      | none => rw [hc] at hg; cases hg; rfl
      | some g' => rw [hc] at hg; cases hg; exact h.2 _ g' hc
    · exact h.2 y g hg

theorem visit_noBases (x : Msg) {st : Making} (h : st.NoBases) : (st.visit x).NoBases := by
  rcases visit_cases x st with ⟨-, hv⟩ | ⟨f, hf, ⟨-, hv⟩ | ⟨-, hv⟩⟩
  · rw [hv]; exact h
  · rw [hv]; exact h
  · rw [hv]; exact finish_noBases h hf

theorem turn_noBases {st : Making} (h : st.NoBases) : st.turn.NoBases := by
  have hnext : st.nextCircle.NoBases := by
    unfold nextCircle
    split
    · exact h
    · exact h
  unfold turn
  generalize st.nextCircle = st' at hnext ⊢
  dsimp only
  split
  · exact hnext
  · rename_i p rest _
    have hvisits : ∀ (l : List Header) {st : Making}, st.NoBases →
        (l.foldl (fun st h => st.visit (p, h)) st).NoBases := by
      intro l
      induction l with
      | nil => exact fun h => h
      | cons a l ih => exact fun h => ih (visit_noBases (p, a) h)
    obtain ⟨hdirect, haTo⟩ := hvisits (keysOf st'.direct p) hnext
    exact ⟨fun x f hx => hdirect x f (by rw [← at_dropEmpty _ p]; exact hx), haTo⟩

theorem create_noBases {info : HeirTree} (hone : info.OneHeir) {n : ℕ} {st : Making}
    (h : createGenealogyTreeFromChildInfo n info = some st) : st.NoBases :=
  (repeatWhile_invariant (fun _ hs _ => turn_noBases hs)
    ⟨fun _ _ hf => (hone.family hf).2.2, fun _ _ hg => by cases hg⟩ h).1

end Making

namespace HeirTree

/-- Where an heir that has one itself comes first, all is finished in the first circle. -/
theorem early_of_sorted {info : HeirTree} (hchains : info.ChainsWithin maxInheritanceDepth)
    (hsorted : ∀ x y z, info.heir x = some y → info.heir y = some z → Precedes y x) {x y : Msg}
    (h : info.heir x = some y) : info.Early x := by
  induction hn : (info.descendants x).length generalizing x y with
  | zero =>
    obtain ⟨f, hf, -⟩ := at_of_heir h
    rw [Making.descendants_of_heir hchains hf] at hn
    cases hn
  | succ n ih =>
    obtain ⟨f, hf, rfl⟩ := at_of_heir h
    rw [Making.descendants_of_heir hchains hf, List.length_cons, Nat.succ_inj] at hn
    cases hy : info.heir f.back.key with
    | none => exact .last h hy
    | some z => exact .step h (hsorted x _ z h hy) (ih hy hn)

theorem readable_of_sorted {info : HeirTree} (hchains : info.ChainsWithin maxInheritanceDepth)
    (hsorted : ∀ x y z, info.heir x = some y → info.heir y = some z → Precedes y x) :
    info.Readable := by
  intro x f hf hc
  obtain ⟨z, hz⟩ := Option.isSome_iff_exists.1 hc
  exact .inr ⟨hsorted x _ z (heir_of_at hf) hz, early_of_sorted hchains hsorted hz⟩

/-- Of a long chain some message has three descendants. -/
theorem exists_three {info : HeirTree} (hchains : info.ChainsWithin maxInheritanceDepth) {x : Msg}
    (h : 3 ≤ (info.descendants x).length) : ∃ y, (info.descendants y).length = 3 := by
  induction hn : (info.descendants x).length generalizing x with
  | zero => omega
  | succ n ih =>
    cases hx : at_ info x with
    | none =>
      rw [descendants, chain_of_none (heir_eq_none.2 hx)] at h
      cases h
    | some f =>
      have hlen := congrArg List.length (Making.descendants_of_heir hchains hx)
      rw [List.length_cons] at hlen
      by_cases h3 : n = 2
      · exact ⟨x, by omega⟩
      · exact ih (x := f.back.key) (by omega) (by omega)

end HeirTree

/-- What comes out in order went in so. -/
theorem IsSettled.inOrder {info : HeirTree} (hone : info.OneHeir)
    (hchains : info.ChainsWithin maxInheritanceDepth) (h : IsSettled info) : info.InOrder := by
  obtain ⟨n, st, filled, hst, hfilled, hempty, hinvalid, hdepths, htree, hcheck, -⟩ := h
  have hbase := (Making.create_noBases hone hst).2
  have hnodup : ∀ y g, at_ st.aTo y = some g →
      (g.subMessages.map InheritanceMsgHeader.key).Nodup := by
    intro y g hg
    have hy := filled_tree hfilled y
    rw [hg] at hy
    have hsub := htree.subNodup y _ hy
    exact hsub
  -- An ancestor stands where its depth says, in the order of the map.
  have hplace : ∀ x y d, stepsOn info.heir (d + 1) y = some x →
      ((parrents st.aTo x).map InheritanceMsgHeader.key)[d]? = some y := by
    intro x y d hstep
    have hx : info.IsMessage x := by
      rw [stepsOn_succ] at hstep
      obtain ⟨z, -, hz⟩ := Option.bind_eq_some_iff.1 hstep
      exact .inr ⟨z, hz⟩
    obtain ⟨f, hf⟩ := Option.isSome_iff_exists.1 ((htree.messages x).2 hx)
    obtain ⟨g, hg, rfl⟩ := filled_family hfilled hbase hf
    obtain ⟨b, hb, hplace⟩ := List.mem_map.1 ((htree.ancestors x _ hf y d).2 hstep)
    cases hplace
    obtain ⟨i, hi⟩ := List.getElem?_of_mem hb
    have hdepth := (filled_invalid hfilled hbase).1 hdepths x g hg i b hi
    rw [List.getElem?_map, hdepth, hi]
    rfl
  have hone' : ∀ x y, info.heir x = some y → stepsOn info.heir (0 + 1) x = some y := by
    intro x y hxy
    rw [stepsOn_of_some hxy]
    rfl
  have hsorted : ∀ x y z, info.heir x = some y → info.heir y = some z → Precedes y x := by
    intro x y z hxy hyz
    have hy := hplace z y 0 (hone' y z hyz)
    have hx := hplace z x 1 (by rw [stepsOn_of_some hxy]; exact hone' y z hyz)
    obtain ⟨h0, hy⟩ := List.getElem?_eq_some_iff.1 hy
    obtain ⟨h1, hx⟩ := List.getElem?_eq_some_iff.1 hx
    have hlt := List.pairwise_iff_getElem.1 (parrents_sorted hnodup z) 0 1 h0 h1 Nat.one_pos
    rw [hy, hx] at hlt
    exact hlt
  refine ⟨fun x hx => ?_, fun x y z hx hy => ?_, hsorted, fun x y z hxy hyz => ?_⟩
  · obtain ⟨f, hf⟩ := Option.isSome_iff_exists.1 ((htree.messages x).2 hx)
    refine (check_eq_zero.1 hcheck).1 x.1 ((SortedMap.mem_keys_iff _ _).2 ?_)
    obtain ⟨t, ht, -⟩ := Option.bind_eq_some_iff.1 hf
    exact ⟨t, ht⟩
  · have hx := hplace z x 0 (hone' x z hx)
    rw [hplace z y 0 (hone' y z hy)] at hx
    exact (Option.some.inj hx).symm
  · -- The check of the first circle fails at a message with three descendants.
    cases hz : info.heir z with
    | none => rfl
    | some w =>
      have hlen : 3 ≤ (info.descendants x).length := by
        unfold HeirTree.descendants
        rw [chain_of_some hchains.all hxy, chain_of_some hchains.all hyz,
          chain_of_some hchains.all hz]
        simp
      obtain ⟨a, ha⟩ := HeirTree.exists_three hchains hlen
      obtain ⟨-, hcircle⟩ := Making.create_spec hone hchains
        (HeirTree.readable_of_sorted hchains hsorted) hst
      have hearly : info.Early a := by
        cases hheir : info.heir a with
        | none =>
          rw [HeirTree.descendants, chain_of_none hheir] at ha
          cases ha
        | some b => exact HeirTree.early_of_sorted hchains hsorted hheir
      refine absurd hinvalid (hcircle.ahead.long a hearly ha ?_)
      rw [← Option.not_isSome_iff_eq_none]
      intro hsome
      have hmem := Making.mem_keys_of_isSome hsome
      rw [hempty] at hmem
      cases hmem

namespace HeirTree.InOrder

variable {info : HeirTree} (h : info.InOrder)
include h

/-- No chain goes on after its second step. -/
theorem stepsOn_three (x : Msg) (d : ℕ) : stepsOn info.heir (d + 3) x = none := by
  cases hx : info.heir x with
  | none => exact stepsOn_of_none hx _
  | some y =>
    rw [stepsOn_of_some hx]
    cases hy : info.heir y with
    | none => exact stepsOn_of_none hy _
    | some z =>
      rw [stepsOn_of_some hy, stepsOn_of_none (h.short x y z hx hy)]

theorem length_le (hchains : info.ChainsWithin maxInheritanceDepth) (x : Msg) :
    (info.descendants x).length ≤ 2 := by
  refine Nat.le_of_not_lt fun hlt => ?_
  have hnone : (info.descendants x)[2]? = none :=
    (chain_at hchains.all 2 x).trans (h.stepsOn_three x 0)
  rw [List.getElem?_eq_getElem hlt] at hnone
  cases hnone

/-- An ancestor is the one base of a message or the one base of that. -/
theorem ancestor_cases {x y : Msg} {d : ℕ} (hy : stepsOn info.heir (d + 1) y = some x) :
    d = 0 ∧ info.heir y = some x ∨
      d = 1 ∧ ∃ z, info.heir y = some z ∧ info.heir z = some x := by
  match d, hy with
  | 0, hy => exact .inl ⟨rfl, by rw [stepsOn_succ] at hy; exact hy⟩
  | 1, hy =>
    rw [stepsOn_succ] at hy
    obtain ⟨z, hz, hx⟩ := Option.bind_eq_some_iff.1 hy
    rw [stepsOn_succ] at hz
    exact .inr ⟨rfl, z, hz, hx⟩
  | d + 2, hy => rw [h.stepsOn_three y d] at hy; cases hy

section Ancestors

-- The list has all ancestors of `x`, in the order of the map.
variable {x : Msg} {l : List InheritanceMsgHeader}
  (hmem : ∀ y d, (y, d) ∈ l.map InheritanceMsgHeader.place ↔ stepsOn info.heir (d + 1) y = some x)
  (hsorted : (l.map InheritanceMsgHeader.key).Pairwise Precedes)
include hmem hsorted

omit h hsorted in
theorem stepsOn_of_get {i : ℕ} {b : InheritanceMsgHeader} (hb : l[i]? = some b) :
    stepsOn info.heir (b.depth + 1) b.key = some x :=
  (hmem _ _).1 (List.mem_map_of_mem (f := InheritanceMsgHeader.place) (List.mem_of_getElem? hb))

omit h hmem in
theorem precedes_of_lt {i j : ℕ} (hij : i < j) {b c : InheritanceMsgHeader} (hb : l[i]? = some b)
    (hc : l[j]? = some c) : Precedes b.key c.key := by
  obtain ⟨hi, rfl⟩ := List.getElem?_eq_some_iff.1 hb
  obtain ⟨hj, rfl⟩ := List.getElem?_eq_some_iff.1 hc
  exact List.pairwise_iff_getElem.1 (List.pairwise_map.1 hsorted) i j hi hj hij

theorem base_first {i : ℕ} {b : InheritanceMsgHeader} (hb : l[i]? = some b)
    (hheir : info.heir b.key = some x) : i = 0 := by
  refine Nat.eq_zero_of_not_pos fun hpos => ?_
  have hlen : 0 < l.length := hpos.trans (List.getElem?_eq_some_iff.1 hb).1
  have hc := List.getElem?_eq_getElem hlen
  have hlt := precedes_of_lt hsorted hpos hc hb
  rcases h.ancestor_cases (stepsOn_of_get hmem hc) with ⟨-, hc'⟩ | ⟨-, z, hcz, hz⟩
  · rw [h.oneBase _ _ _ hc' hheir] at hlt
    exact Precedes.irrefl _ hlt
  · rw [h.oneBase _ _ _ hz hheir] at hcz
    exact hlt.asymm (h.sorted _ _ _ hcz hheir)

/-- Each ancestor is at the place of its depth. -/
theorem depth_eq {i : ℕ} {b : InheritanceMsgHeader} (hb : l[i]? = some b) : b.depth = i := by
  rcases h.ancestor_cases (stepsOn_of_get hmem hb) with ⟨h0, hheir⟩ | ⟨h1, z, hbz, hz⟩
  · rw [h0, h.base_first hmem hsorted hb hheir]
  · obtain ⟨c, hc, hplace⟩ := List.mem_map.1 ((hmem z 0).2 (by rw [stepsOn_of_some hz]; rfl))
    obtain ⟨hkey, hdepth⟩ := Prod.mk.inj hplace
    obtain ⟨j, hj⟩ := List.getElem?_of_mem hc
    obtain rfl : j = 0 := h.base_first hmem hsorted hj (by rw [hkey, hz])
    rw [h1]
    have hi : i ≠ 0 := by
      rintro rfl
      rw [hj] at hb
      cases hb
      omega
    refine (Nat.le_antisymm (Nat.le_of_not_lt fun hlt => ?_) (Nat.one_le_iff_ne_zero.2 hi)).symm
    have hlen : 1 < l.length := hlt.trans (List.getElem?_eq_some_iff.1 hb).1
    have hd := List.getElem?_eq_getElem hlen
    have hprec := precedes_of_lt hsorted hlt hd hb
    rcases h.ancestor_cases (stepsOn_of_get hmem hd) with ⟨-, hheir⟩ | ⟨-, w, hdw, hw⟩
    · exact absurd (h.base_first hmem hsorted hd hheir) Nat.one_ne_zero
    · rw [h.oneBase _ _ _ hw hz] at hdw
      rw [h.oneBase _ _ _ hdw hbz] at hprec
      exact Precedes.irrefl _ hprec

end Ancestors

end HeirTree.InOrder

/-- A leaf is listed in other families with the name and the version it has. -/
theorem leaf_isEqual {info : HeirTree} (h : info.InOrder) {st : Making} (hsound : st.Sound info)
    {x y : Msg} {g g' : MsgFamily} (hg : at_ st.aTo x = some g) (hleaf : info.heir x = none)
    (hg' : at_ st.aTo y = some g') {c : InheritanceMsgHeader} (hc : c ∈ g'.subMessages)
    (hkey : c.key = x) : c.isEqual (valueOf x g) = true := by
  obtain ⟨z, f, hf, hfx, hversion⟩ := hsound.leaf x g hg hleaf
  obtain ⟨z', f', hf', hcf⟩ := hsound.named y g' c hg' hc
  have hkey' : f'.back.key = x := by
    rw [← hkey, hcf]
    rfl
  have hz : z = z' := h.oneBase z z' x (by rw [HeirTree.heir_of_at hf, hfx])
    (by rw [HeirTree.heir_of_at hf', hkey'])
  rw [hz, hf'] at hf
  cases hf
  subst hkey'
  rw [hcf]
  simp [InheritanceMsgHeader.isEqual, valueOf, InheritanceMsgHeader.key, hversion]

theorem isCorrect_of_inOrder {info : HeirTree} (hone : info.OneHeir)
    (hchains : info.ChainsWithin maxInheritanceDepth) (h : info.InOrder) {n : ℕ} {st : Making}
    (hst : createGenealogyTreeFromChildInfo n info = some st) {filled : Filled}
    (hfilled : parentInfo st.aTo = (true, filled)) (b : Bool) {x : Msg} {f : MsgFamily}
    (hf : at_ filled.tree x = some f) : isCorrect filled.tree b x f = true := by
  have hread := HeirTree.readable_of_sorted hchains h.sorted
  obtain ⟨-, ⟨hsound, -, -, -⟩⟩ := Making.create_spec hone hchains hread hst
  obtain ⟨-, htree⟩ := isFamilyTree_of_readable hone hchains hread hst hfilled
  obtain ⟨g, hg, rfl⟩ := filled_family hfilled hsound.noBases hf
  have hdesc := hsound.descendants x g hg
  have hleaf : g.subMessages = [] → info.heir x = none := by
    intro hnil
    cases hheir : info.heir x with
    | none => rfl
    | some y =>
      rw [hnil, HeirTree.descendants, chain_of_some hchains.all hheir] at hdesc
      cases hdesc
  unfold isCorrect
  split_ifs with hsub hbase hb
  · refine childrenCorrect_of (htree.subNodup x _ hf) (fun c hc hmem => ?_) fun c hc => ?_
    · have hkey : c.key ∈ info.descendants x := by
        rw [← InheritanceMsgHeader.map_key hdesc]
        exact List.mem_map_of_mem hc
      rw [List.mem_singleton.1 hmem] at hkey
      exact (List.nodup_cons.1 (chain_nodup hchains.all x)).1 hkey
    · have hstep := (htree.descendants x _ hf c.key c.depth).1
        (List.mem_map_of_mem (f := InheritanceMsgHeader.place) hc)
      have hmessage : info.IsMessage c.key := by
        rw [stepsOn_succ] at hstep
        obtain ⟨z, -, hz⟩ := Option.bind_eq_some_iff.1 hstep
        exact .inr ⟨z, hz⟩
      obtain ⟨f, hfc⟩ := Option.isSome_iff_exists.1 ((htree.messages c.key).2 hmessage)
      refine ⟨f, hfc, fun _ => ?_⟩
      obtain ⟨gc, -, rfl⟩ := filled_family hfilled hsound.noBases hfc
      refine List.any_eq_true.2 ⟨_, mem_parrents.2 ⟨x, g, hg, c, hc, rfl, rfl⟩, ?_⟩
      simp [InheritanceMsgHeader.isEqual, valueOf]
  · have hheir := hleaf (by simpa using hsub)
    rcases (htree.messages x).1 (by rw [hf]; rfl) with hinfo | ⟨z, hz⟩
    · rw [HeirTree.heir_eq_none.1 hheir] at hinfo
      cases hinfo
    · have hmem := (htree.ancestors x _ hf z 0).2 (by rw [stepsOn_of_some hz]; rfl)
      have hnil : parrents st.aTo x = [] := List.isEmpty_iff.1 (Bool.and_eq_true_iff.1 hbase).2
      rw [hnil] at hmem
      cases hmem
  · have hheir := hleaf (by simpa using hsub)
    refine List.all_eq_true.2 fun p hp => ?_
    obtain ⟨y, g', hg', c, hc, hkey, rfl⟩ := mem_parrents.1 hp
    have hy := filled_tree hfilled y
    rw [hg'] at hy
    have hplace : InheritanceMsgHeader.key ⟨y.1.name, ⟨g'.version, y.2⟩, c.depth⟩ = y := rfl
    rw [hplace, hy]
    exact List.any_eq_true.2 ⟨c, hc, leaf_isEqual h hsound hg hheir hg' hc hkey⟩
  · rfl

/-- What goes in in order comes out so. -/
theorem HeirTree.InOrder.isSettled {info : HeirTree} (hone : info.OneHeir)
    (hchains : info.ChainsWithin maxInheritanceDepth) (h : info.InOrder) : IsSettled info := by
  have hread := HeirTree.readable_of_sorted hchains h.sorted
  obtain ⟨n, st, hst⟩ := createGenealogyTree_ends info
  obtain ⟨filled, hfilled⟩ := made_parentInfo hone hchains hread hst
  obtain ⟨hempty, htree⟩ := isFamilyTree_of_readable hone hchains hread hst hfilled
  obtain ⟨-, ⟨hsound, -, hahead, -⟩⟩ := Making.create_spec hone hchains hread hst
  have hdepth : ∀ x (i : ℕ) (b : InheritanceMsgHeader),
      (parrents st.aTo x)[i]? = some b → b.depth = i := fun x i b hb =>
    h.depth_eq (fun _ _ => mem_parrents_made hone hchains hread hst)
      (made_parrents_sorted hone hchains hread hst x) hb
  have hcheck : ∀ b, checkCorrectionOfGenealogyTree filled.tree b = 0 := by
    intro b
    refine check_eq_zero.2 ⟨fun p hp => ?_, fun x f hf =>
      isCorrect_of_inOrder hone hchains h hst hfilled b hf⟩
    obtain ⟨a, ha⟩ := parentInfoFrom_peopled hfilled hsound.peopled p hp
    exact h.named (p, a) ((htree.messages (p, a)).1 ha)
  refine ⟨n, st, filled, hst, hfilled, hempty, hahead.short (h.length_le hchains),
    (filled_invalid hfilled hsound.noBases).2 fun x _ _ => hdepth x, ⟨htree, fun x f hf => ?_⟩,
    hcheck false, hcheck true⟩
  obtain ⟨g, -, rfl⟩ := filled_family hfilled hsound.noBases hf
  refine List.pairwise_iff_getElem.2 fun i j hi hj hij => ?_
  rw [List.getElem_map, List.getElem_map]
  rw [List.length_map] at hi hj
  rw [hdepth x i _ (List.getElem?_eq_getElem hi), hdepth x j _ (List.getElem?_eq_getElem hj)]
  exact Nat.le_of_lt hij

/-- The construction ends on every input, and of the chains it is made for it settles exactly
    those that are in order. -/
theorem isSettled_iff_inOrder (info : HeirTree) :
    (∃ n st, createGenealogyTreeFromChildInfo n info = some st) ∧
      (info.OneHeir → info.ChainsWithin maxInheritanceDepth →
        (IsSettled info ↔ info.InOrder)) :=
  ⟨createGenealogyTree_ends info, fun hone hchains =>
    ⟨IsSettled.inOrder hone hchains, HeirTree.InOrder.isSettled hone hchains⟩⟩

/-- What `MReadMsgChild` makes of one protocol: the headers of messages with those of their
    heirs. -/
def heirsOf (l : List (Byte × Byte)) : HeirTree := HeirTree.readMsgChild
  (SortedMap.empty.insert ⟨['p']⟩ (l.map fun e => ⟨⟨⟨1, 0, 0⟩, [e.1]⟩, ⟨⟨1, 0, 0⟩, [e.2]⟩, []⟩))

theorem isSettled_falling_headers : IsSettled (heirsOf [(3, 2), (2, 1)]) :=
  ((isSettled_iff_inOrder _).2 (by decide) (by decide)).2 (by decide)

/-- Of the ancestors of the third message the first comes before the second. -/
theorem isSettled_false_of_rising_headers : (heirsOf [(1, 2), (2, 3)]).OneHeir ∧
    (heirsOf [(1, 2), (2, 3)]).ChainsWithin maxInheritanceDepth ∧
    ¬IsSettled (heirsOf [(1, 2), (2, 3)]) := by
  refine ⟨by decide, by decide, ?_⟩
  rintro ⟨n, st, filled, hst, hfilled, -, -, hinvalid, -⟩
  have hrun : (createGenealogyTreeFromChildInfo 5 (heirsOf [(1, 2), (2, 3)])).map
      (fun st => (parentInfo st.aTo).2.invalid) = some [(0, 1), (1, 0)] := by decide
  obtain ⟨st', hst', hreport⟩ := Option.map_eq_some_iff.1 hrun
  rw [← repeatWhile_unique hst hst', hfilled, hinvalid] at hreport
  cases hreport

end UdtKernel
