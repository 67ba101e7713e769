import UdtKernel.Genealogy.Tree

set_option autoImplicit false

/-! The parents of a message: `MParentInfo`. -/

namespace UdtKernel
open UdtKernel.Lib UdtKernel.Lib.NestedMap

/-- What `MParentInfo` has filled, and what its check of the depths has reported. -/
structure Filled where
  tree : GenealogyTree
  invalid : List (ℕ × ℕ)

/-- The children of a message in order, each with what is put to its parents. -/
def parrentsOf (aTo : GenealogyTree) (x : Msg) : List (Msg × InheritanceMsgHeader) :=
  match at_ aTo x with
  | none => []
  | some family =>
    family.subMessages.map fun c => (c.key, ⟨x.1.name, ⟨family.version, x.2⟩, c.depth⟩)

/-- The loops of `MParentInfo`: they stop at a child that is not in the tree. -/
def parentInfoFrom : List (Msg × InheritanceMsgHeader) → Filled → Bool × Filled
  | [], s => (true, s)
  | (child, parrent) :: l, s =>
    match at_ s.tree child with
    | none => (false, s)
    | some family =>
      let family := family.putParrent parrent
      let size := family.baseMessages.length - 1
      parentInfoFrom l
        { tree := alterAt s.tree child fun _ => some family
          invalid := if size = parrent.depth then s.invalid
            else s.invalid ++ [(size, parrent.depth)] }

def parentInfo (aTo : GenealogyTree) : Bool × Filled :=
  parentInfoFrom ((allKeys aTo).flatMap (parrentsOf aTo)) ⟨aTo, []⟩

def parrentsFor (l : List (Msg × InheritanceMsgHeader)) (x : Msg) : List InheritanceMsgHeader :=
  (l.filter fun p => p.1 = x).map Prod.snd

theorem parrentsFor_cons (p : Msg × InheritanceMsgHeader) (l : List (Msg × InheritanceMsgHeader))
    (x : Msg) : parrentsFor (p :: l) x =
      if p.1 = x then p.2 :: parrentsFor l x else parrentsFor l x := by
  unfold parrentsFor
  by_cases h : p.1 = x
  · simp [h]
  · simp [h]

/-- Each message has got the parents the list has for it, behind those it had. -/
theorem parentInfoFrom_tree {l : List (Msg × InheritanceMsgHeader)} {s s' : Filled}
    (h : parentInfoFrom l s = (true, s')) (x : Msg) :
    at_ s'.tree x = (at_ s.tree x).map fun g =>
      { g with baseMessages := g.baseMessages ++ parrentsFor l x } := by
  induction l generalizing s with
  | nil =>
    obtain rfl : s = s' := (Prod.mk.inj h).2
    cases at_ s.tree x <;> simp [parrentsFor]
  | cons p l ih =>
    obtain ⟨child, parrent⟩ := p
    rw [parentInfoFrom] at h
    cases hchild : at_ s.tree child with
    | none => rw [hchild] at h; cases h
    | some family =>
      rw [hchild] at h
      rw [ih h, parrentsFor_cons]
      by_cases hx : x = child
      · rw [hx, at_alterAt_self, hchild, if_pos rfl]
        simp [MsgFamily.putParrent]
      · rw [at_alterAt_of_ne _ _ hx, if_neg (Ne.symm hx)]

/-- The check passes when each parent is put at the place of its depth. -/
theorem parentInfoFrom_invalid {l : List (Msg × InheritanceMsgHeader)} {s s' : Filled}
    (h : parentInfoFrom l s = (true, s')) :
    s'.invalid = [] ↔ s.invalid = [] ∧ ∀ x g, at_ s.tree x = some g →
      ∀ i b, (parrentsFor l x)[i]? = some b → b.depth = g.baseMessages.length + i := by
  induction l generalizing s with
  | nil =>
    obtain rfl : s = s' := (Prod.mk.inj h).2
    simp [parrentsFor]
  | cons p l ih =>
    obtain ⟨child, parrent⟩ := p
    rw [parentInfoFrom] at h
    cases hchild : at_ s.tree child with
    | none => rw [hchild] at h; cases h
    | some family =>
      rw [hchild] at h
      rw [ih h]
      have hsize : (family.putParrent parrent).baseMessages.length =
          family.baseMessages.length + 1 := by
        simp [MsgFamily.putParrent]
      rw [hsize, Nat.add_sub_cancel]
      constructor
      · rintro ⟨hinvalid, hall⟩
        split_ifs at hinvalid with hdepth
        · refine ⟨hinvalid, fun x g hg i b hb => ?_⟩
          rw [parrentsFor_cons] at hb
          by_cases hx : x = child
          · rw [hx, hchild] at hg
            cases hg
            rw [if_pos hx.symm] at hb
            cases i with
            | zero => cases hb; exact hdepth.symm
            | succ i =>
              have hb' := hall x (family.putParrent parrent) (by rw [hx, at_alterAt_self]) i b hb
              omega
          · rw [if_neg (Ne.symm hx)] at hb
            exact hall x g (by rw [at_alterAt_of_ne _ _ hx, hg]) i b hb
        · exact absurd hinvalid (List.append_ne_nil_of_right_ne_nil _ (List.cons_ne_nil _ _))
      · rintro ⟨hinvalid, hall⟩
        have hat := hall child family hchild
        rw [parrentsFor_cons, if_pos rfl] at hat
        have hdepth : family.baseMessages.length = parrent.depth := (hat 0 parrent rfl).symm
        refine ⟨(if_pos hdepth).trans hinvalid, fun x g hg i b hb => ?_⟩
        by_cases hx : x = child
        · rw [hx, at_alterAt_self] at hg
          cases hg
          rw [hx] at hb
          have hb' := hat (i + 1) b hb
          omega
        · rw [at_alterAt_of_ne _ _ hx] at hg
          refine hall x g hg i b ?_
          rw [parrentsFor_cons, if_neg (Ne.symm hx)]
          exact hb

theorem parentInfoFrom_peopled {l : List (Msg × InheritanceMsgHeader)} {s s' : Filled}
    (h : parentInfoFrom l s = (true, s')) (hs : Peopled s.tree) : Peopled s'.tree := by
  induction l generalizing s with
  | nil =>
    obtain rfl : s = s' := (Prod.mk.inj h).2
    exact hs
  | cons p l ih =>
    obtain ⟨child, parrent⟩ := p
    rw [parentInfoFrom] at h
    cases hchild : at_ s.tree child with
    | none => rw [hchild] at h; cases h
    | some family =>
      rw [hchild] at h
      exact ih h (hs.alterAt _ fun _ => rfl)

/-- No child is missing, so the loops come to their end. -/
theorem parentInfoFrom_ends {l : List (Msg × InheritanceMsgHeader)} {s : Filled}
    (h : ∀ p ∈ l, (at_ s.tree p.1).isSome) : ∃ s', parentInfoFrom l s = (true, s') := by
  induction l generalizing s with
  | nil => exact ⟨s, rfl⟩
  | cons p l ih =>
    obtain ⟨child, parrent⟩ := p
    obtain ⟨family, hchild⟩ := Option.isSome_iff_exists.1 (h _ List.mem_cons_self)
    rw [parentInfoFrom, hchild]
    refine ih fun q hq => ?_
    by_cases hx : q.1 = child
    · rw [hx, at_alterAt_self]
      rfl
    · rw [at_alterAt_of_ne _ _ hx]
      exact h q (List.mem_cons_of_mem _ hq)

theorem mem_parrentsOf {aTo : GenealogyTree} {y x : Msg} {b : InheritanceMsgHeader} :
    (x, b) ∈ parrentsOf aTo y ↔ ∃ g, at_ aTo y = some g ∧ ∃ c ∈ g.subMessages, c.key = x ∧
      b = ⟨y.1.name, ⟨g.version, y.2⟩, c.depth⟩ := by
  unfold parrentsOf
  cases h : at_ aTo y with
  | none => simp
  | some g =>
    simp only [List.mem_map, Prod.mk.injEq, Option.some.injEq, exists_eq_left']
    constructor
    · rintro ⟨c, hc, hx, hb⟩
      exact ⟨c, hc, hx, hb.symm⟩
    · rintro ⟨c, hc, hx, hb⟩
      exact ⟨c, hc, hx, hb.symm⟩

def parrents (aTo : GenealogyTree) (x : Msg) : List InheritanceMsgHeader :=
  parrentsFor ((allKeys aTo).flatMap (parrentsOf aTo)) x

theorem mem_parrents {aTo : GenealogyTree} {x : Msg} {b : InheritanceMsgHeader} :
    b ∈ parrents aTo x ↔ ∃ y g, at_ aTo y = some g ∧ ∃ c ∈ g.subMessages, c.key = x ∧
      b = ⟨y.1.name, ⟨g.version, y.2⟩, c.depth⟩ := by
  unfold parrents parrentsFor
  rw [List.mem_map]
  constructor
  · rintro ⟨⟨x', b'⟩, hmem, rfl⟩
    obtain ⟨hmem, hx⟩ := List.mem_filter.1 hmem
    obtain ⟨y, -, hy⟩ := List.mem_flatMap.1 hmem
    obtain ⟨g, hg, c, hc, hcx, hb⟩ := mem_parrentsOf.1 hy
    exact ⟨y, g, hg, c, hc, hcx.trans (of_decide_eq_true hx), hb⟩
  · rintro ⟨y, g, hg, c, hc, hcx, rfl⟩
    refine ⟨(x, _), List.mem_filter.2 ⟨List.mem_flatMap.2 ⟨y, ?_, ?_⟩, decide_eq_true rfl⟩, rfl⟩
    · rw [mem_allKeys_iff, hg]
      rfl
    · exact mem_parrentsOf.2 ⟨g, hg, c, hc, hcx, rfl⟩

/-- The parents of a message come in the order of the map, whatever their depths. -/
theorem parrents_sorted {aTo : GenealogyTree} (hnodup : ∀ y g, at_ aTo y = some g →
    (g.subMessages.map InheritanceMsgHeader.key).Nodup) (x : Msg) :
    ((parrents aTo x).map InheritanceMsgHeader.key).Pairwise Precedes := by
  have hpairs : ((allKeys aTo).flatMap (parrentsOf aTo)).Pairwise fun p q =>
      p.1 = q.1 → Precedes p.2.key q.2.key := by
    refine List.pairwise_flatMap.2
      ⟨fun y _ => ?_, (allKeys_sorted aTo).imp fun hlt p hp q hq _ => ?_⟩
    · unfold parrentsOf
      cases hy : at_ aTo y with
      | none => exact List.Pairwise.nil
      | some g =>
        refine List.pairwise_map.2 ((List.pairwise_map.1 (hnodup y g hy)).imp fun hne heq => ?_)
        exact absurd heq hne
    · obtain ⟨g, -, c, -, -, hb⟩ := mem_parrentsOf.1 (show (p.1, p.2) ∈ _ from hp)
      obtain ⟨g', -, c', -, -, hb'⟩ := mem_parrentsOf.1 (show (q.1, q.2) ∈ _ from hq)
      rw [hb, hb']
      exact hlt
  unfold parrents parrentsFor
  rw [List.pairwise_map, List.pairwise_map]
  refine (List.pairwise_filter.2 (hpairs.imp fun h hp hq => h ?_))
  rw [of_decide_eq_true hp, of_decide_eq_true hq]

end UdtKernel
