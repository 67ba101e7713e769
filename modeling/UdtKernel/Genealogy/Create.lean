import UdtKernel.Lib.While
import UdtKernel.Genealogy.Tree

set_option autoImplicit false

/-! `MCreateGenealogyTreeFromChildInfo` and `sMCheckCorrectionOfGenealogyTree`. -/

namespace UdtKernel
open UdtKernel.Lib UdtKernel.Lib.NestedMap

def maxInheritanceDepth : ℕ := 20

/-- The variables of `MCreateGenealogyTreeFromChildInfo`: `rest` is its iterator, the
    protocols from `_it` on, and `invalid` what its check "Invalid depth" has reported. -/
structure Making where
  rest : List Protocol
  depth : ℕ
  direct : HeirTree
  aTo : GenealogyTree
  invalid : List (ℕ × ℕ)

namespace Making

/-- The branch 2.1: the message gets its child and the children of its child. -/
def finish (x : Msg) (family : HeirFamily) (st : Making) : Making :=
  let myChild := family.back
  let aTo := alterAt st.aTo myChild.key fun o => some (o.getD (.ofHeader myChild.header))
  let childrenOfMyChild := ((at_ aTo myChild.key).map MsgFamily.subMessages).getD []
  let all := family.putChildrenOfChild childrenOfMyChild
  let depth := all.back.depth
  { st with
    direct := alterAt st.direct x fun _ => none
    aTo := alterAt aTo x fun o =>
      some { all.family with version := (o.map MsgFamily.version).getD all.family.version }
    invalid := if depth = st.depth ∨ depth = st.depth + 1 then st.invalid
      else st.invalid ++ [(depth, st.depth)] }

/-- One turn of the loop over a tree; a message whose child has an heir in the direct heir
    tree is left for the next circle. -/
def visit (x : Msg) (st : Making) : Making :=
  match at_ st.direct x with
  | none => st
  | some family =>
    if (st.direct.getMessageChildren family.back.protocol family.back.header).isEmpty then
      st.finish x family
    else st

/-- At the end of the direct heir tree the iterator goes back to its start. -/
def nextCircle (st : Making) : Making :=
  if st.rest.isEmpty then { st with rest := st.direct.keys, depth := st.depth + 1 } else st

/-- The tree of a protocol goes when it is empty. -/
def dropEmpty (direct : HeirTree) (p : Protocol) : HeirTree :=
  if (keysOf direct p).isEmpty then direct.erase p else direct

def turn (st : Making) : Making :=
  let st := st.nextCircle
  match st.rest with
  | [] => st
  | p :: rest =>
    let st := (keysOf st.direct p).foldl (fun st h => st.visit (p, h)) st
    { st with rest := rest, direct := dropEmpty st.direct p }

def goesOn (st : Making) : Bool := !st.direct.keys.isEmpty && st.depth < maxInheritanceDepth

def start (aChildInfo : HeirTree) : Making := ⟨aChildInfo.keys, 0, aChildInfo, .empty, []⟩

end Making

/-- `MCreateGenealogyTreeFromChildInfo`, none when the fuel does not last. -/
def createGenealogyTreeFromChildInfo (fuel : ℕ) (aChildInfo : HeirTree) : Option Making :=
  repeatWhile Making.goesOn Making.turn fuel (Making.start aChildInfo)

namespace Making

@[simp] theorem visit_depth (x : Msg) (st : Making) : (st.visit x).depth = st.depth := by
  unfold visit
  split
  · rfl
  · split <;> rfl

theorem visits_depth (p : Protocol) (l : List Header) (st : Making) :
    (l.foldl (fun st h => st.visit (p, h)) st).depth = st.depth := by
  induction l generalizing st with
  | nil => rfl
  | cons h l ih => rw [List.foldl_cons, ih, visit_depth]

/-- A turn starts a new circle or takes a protocol off the present one. -/
theorem turn_lt {st : Making} (h : st.goesOn = true) :
    Prod.Lex (· < ·) (· < ·)
      (maxInheritanceDepth - st.turn.depth, st.turn.rest.length)
      (maxInheritanceDepth - st.depth, st.rest.length) := by
  have hlt : st.depth < maxInheritanceDepth := by
    unfold goesOn at h
    exact of_decide_eq_true (Bool.and_eq_true_iff.1 h).2
  cases hrest : st.rest with
  | nil =>
    have hdepth : st.turn.depth = st.depth + 1 := by
      unfold turn nextCircle
      rw [hrest]
      simp only [List.isEmpty_nil, if_true]
      split
      · rfl
      · exact visits_depth _ _ _
    apply Prod.Lex.left
    omega
  | cons p rest =>
    have hsame : st.nextCircle = st := by
      rw [nextCircle, hrest]
      rfl
    have hdepth : st.turn.depth = st.depth := by
      unfold turn
      simp only [hsame, hrest]
      exact visits_depth _ _ _
    have hturn : st.turn.rest = rest := by
      unfold turn
      simp only [hsame, hrest]
    rw [hdepth, hturn]
    apply Prod.Lex.right
    exact Nat.lt_succ_self _

end Making

/-- Every circle is finite and there are at most `FMaxInheritanceDepth` of them. -/
theorem createGenealogyTree_ends (aChildInfo : HeirTree) :
    ∃ n st, createGenealogyTreeFromChildInfo n aChildInfo = some st :=
  repeatWhile_ends
    (InvImage.wf (fun st : Making => (maxInheritanceDepth - st.depth, st.rest.length))
      (Prod.lex Nat.lt_wfRel Nat.lt_wfRel).wf)
    (fun _ => Making.turn_lt) _

/-- The header a message is looked for with in the lists of others. -/
def valueOf (x : Msg) (f : MsgFamily) : InheritanceMsgHeader := ⟨x.1.name, ⟨f.version, x.2⟩, 0⟩

/-- The children of a message: `unique` are the messages met before, itself included. -/
def childrenCorrect (aWhat : GenealogyTree) (aParentCheck : Bool) (value : InheritanceMsgHeader) :
    List Msg → List InheritanceMsgHeader → Bool
  | _, [] => true
  | unique, c :: l =>
    decide (c.key ∉ unique) &&
      (match at_ aWhat c.key with
        | none => false
        | some family => !aParentCheck || family.isParent value) &&
      childrenCorrect aWhat aParentCheck value (c.key :: unique) l

def parentsCorrect (aWhat : GenealogyTree) (value : InheritanceMsgHeader)
    (aParents : List InheritanceMsgHeader) : Bool :=
  aParents.all fun p => match at_ aWhat p.key with
    | none => false
    | some family => family.subMessages.any fun c => c.isEqual value

def isCorrect (aWhat : GenealogyTree) (aParentCheck : Bool) (x : Msg) (f : MsgFamily) : Bool :=
  if !f.subMessages.isEmpty then
    childrenCorrect aWhat aParentCheck (valueOf x f) [x] f.subMessages
  else if aParentCheck && f.baseMessages.isEmpty then false
  else if aParentCheck then parentsCorrect aWhat (valueOf x f) f.baseMessages
  else true

/-- The loop over the protocols, `amountOf` being the errors so far. -/
def checkFrom (aWhat : GenealogyTree) (aParentCheck : Bool) :
    List (Protocol × SortedMap Header MsgFamily) → ℕ → ℕ
  | [], amountOf => amountOf
  | (p, tree) :: l, amountOf =>
    if p.name.isEmpty then 1
    else checkFrom aWhat aParentCheck l
      (amountOf + tree.entries.countP fun m => !isCorrect aWhat aParentCheck (p, m.1) m.2)

/-- `sMCheckCorrectionOfGenealogyTree` with no place to save the incorrect families in. -/
def checkCorrectionOfGenealogyTree (aWhat : GenealogyTree) (aParentCheck : Bool) : ℕ :=
  checkFrom aWhat aParentCheck aWhat.entries 0

theorem checkFrom_eq_zero {aWhat : GenealogyTree} {b : Bool}
    {l : List (Protocol × SortedMap Header MsgFamily)} {n : ℕ} :
    checkFrom aWhat b l n = 0 ↔ n = 0 ∧ ∀ e ∈ l, e.1.name ≠ [] ∧
      ∀ m ∈ e.2.entries, isCorrect aWhat b (e.1, m.1) m.2 = true := by
  induction l generalizing n with
  | nil => simp [checkFrom]
  | cons e l ih =>
    obtain ⟨p, tree⟩ := e
    rw [checkFrom, List.forall_mem_cons]
    split_ifs with hname
    · rw [List.isEmpty_iff] at hname
      simp [hname]
    · rw [ih, Nat.add_eq_zero_iff, List.countP_eq_zero, and_assoc]
      have hne : p.name ≠ [] := fun h => hname (List.isEmpty_iff.2 h)
      simp [hne]

/-- The check finds nothing when every protocol has a name and every family is correct. -/
theorem check_eq_zero {aWhat : GenealogyTree} {b : Bool} :
    checkCorrectionOfGenealogyTree aWhat b = 0 ↔ (∀ p ∈ aWhat.keys, p.name ≠ []) ∧
      ∀ x f, at_ aWhat x = some f → isCorrect aWhat b x f = true := by
  unfold checkCorrectionOfGenealogyTree
  rw [checkFrom_eq_zero]
  constructor
  · rintro ⟨-, h⟩
    refine ⟨fun p hp => ?_, fun x f hx => ?_⟩
    · obtain ⟨e, he, rfl⟩ := List.mem_map.1 hp
      exact (h e he).1
    · obtain ⟨tree, htree, hf⟩ := Option.bind_eq_some_iff.1 hx
      exact (h (x.1, tree) ((SortedMap.mem_entries_iff _ _ _).2 htree)).2 (x.2, f)
        ((SortedMap.mem_entries_iff _ _ _).2 hf)
  · rintro ⟨hname, h⟩
    refine ⟨rfl, fun e he => ⟨hname e.1 (List.mem_map_of_mem he), fun m hm => h (e.1, m.1) m.2 ?_⟩⟩
    unfold at_
    rw [(SortedMap.mem_entries_iff aWhat e.1 e.2).1 he]
    exact (SortedMap.mem_entries_iff e.2 m.1 m.2).1 hm

theorem childrenCorrect_of {aWhat : GenealogyTree} {b : Bool} {value : InheritanceMsgHeader}
    {l : List InheritanceMsgHeader} {unique : List Msg}
    (hnodup : (l.map InheritanceMsgHeader.key).Nodup)
    (hnew : ∀ c ∈ l, c.key ∉ unique)
    (htree : ∀ c ∈ l, ∃ f, at_ aWhat c.key = some f ∧ (b = true → f.isParent value = true)) :
    childrenCorrect aWhat b value unique l = true := by
  induction l generalizing unique with
  | nil => rfl
  | cons c l ih =>
    obtain ⟨hc, hl⟩ := List.nodup_cons.1 hnodup
    obtain ⟨f, hf, hparent⟩ := htree c List.mem_cons_self
    have hrest : childrenCorrect aWhat b value (c.key :: unique) l = true := by
      refine ih hl (fun d hd hmem => ?_) fun d hd => htree d (List.mem_cons_of_mem c hd)
      rcases List.mem_cons.1 hmem with heq | hmem
      · exact hc (heq ▸ List.mem_map_of_mem hd)
      · exact hnew d (List.mem_cons_of_mem c hd) hmem
    rw [childrenCorrect, hf, hrest, decide_eq_true (hnew c List.mem_cons_self)]
    cases b with
    | false => rfl
    | true => simp [hparent rfl]

end UdtKernel
