import Mathlib.Data.List.Nodup
import UdtKernel.Genealogy.Create
import UdtKernel.Genealogy.Parents

set_option autoImplicit false

/-! `MInitializeMsgInheritance` leaves a genealogy whose messages are all different. -/

namespace UdtKernel
open UdtKernel.Lib UdtKernel.Lib.NestedMap

/-- `MInitializeMsgInheritance`: what it leaves in `FMsgsGenealogy`, none when the fuel does
    not last. -/
def initializeMsgInheritance (fuel : ℕ) (parsers : SortedMap Protocol (List HeirTree.Inheritance))
    (fMsgsGenealogy : GenealogyTree) : Option GenealogyTree :=
  (createGenealogyTreeFromChildInfo fuel (HeirTree.readMsgChild parsers)).map fun st =>
    if checkCorrectionOfGenealogyTree st.aTo false = 0 then (parentInfo st.aTo).2.tree
    else fMsgsGenealogy

def GenealogyTree.Unique (tree : GenealogyTree) : Prop := ∀ x f, at_ tree x = some f →
  (x :: f.subMessages.map InheritanceMsgHeader.key).Nodup

theorem childrenCorrect_unique {aWhat : GenealogyTree} {b : Bool} {value : InheritanceMsgHeader}
    {l : List InheritanceMsgHeader} {unique : List Msg}
    (h : childrenCorrect aWhat b value unique l = true) :
    (l.map InheritanceMsgHeader.key).Nodup ∧ ∀ c ∈ l, c.key ∉ unique := by
  induction l generalizing unique with
  | nil => exact ⟨List.nodup_nil, fun c hc => by cases hc⟩
  | cons c l ih =>
    rw [childrenCorrect, Bool.and_eq_true, Bool.and_eq_true] at h
    obtain ⟨⟨hc, -⟩, hl⟩ := h
    obtain ⟨hnodup, hnew⟩ := ih hl
    refine ⟨List.nodup_cons.2 ⟨fun hmem => ?_, hnodup⟩, List.forall_mem_cons.2
      ⟨of_decide_eq_true hc, fun d hd hmem => hnew d hd (List.mem_cons_of_mem _ hmem)⟩⟩
    obtain ⟨d, hd, hkey⟩ := List.mem_map.1 hmem
    exact hnew d hd (hkey ▸ List.mem_cons_self)

/-- The check lets no family through that names a message twice. -/
theorem unique_of_check {tree : GenealogyTree} {b : Bool}
    (h : checkCorrectionOfGenealogyTree tree b = 0) : tree.Unique := by
  intro x f hf
  have hcorrect := (check_eq_zero.1 h).2 x f hf
  unfold isCorrect at hcorrect
  split at hcorrect
  · obtain ⟨hnodup, hnew⟩ := childrenCorrect_unique hcorrect
    refine List.nodup_cons.2 ⟨fun hmem => ?_, hnodup⟩
    obtain ⟨c, hc, hkey⟩ := List.mem_map.1 hmem
    exact hnew c hc (hkey ▸ List.mem_cons_self)
  · rename_i hempty
    have hnil : f.subMessages = [] := by simpa using hempty
    rw [hnil]
    exact List.nodup_singleton x

/-- Filling the parents leaves the children as they are. -/
theorem parentInfoFrom_sub (l : List (Msg × InheritanceMsgHeader)) (s : Filled) (x : Msg) :
    (at_ (parentInfoFrom l s).2.tree x).map MsgFamily.subMessages =
      (at_ s.tree x).map MsgFamily.subMessages := by
  induction l generalizing s with
  | nil => rfl
  | cons p l ih =>
    obtain ⟨child, parrent⟩ := p
    rw [parentInfoFrom]
    cases hchild : at_ s.tree child with
    | none => rfl
    | some family =>
      refine (ih _).trans ?_
      by_cases hx : x = child
      · rw [hx, at_alterAt_self, hchild]
        rfl
      · rw [at_alterAt_of_ne _ _ hx]

theorem initializeMsgInheritance_unique {fuel : ℕ}
    {parsers : SortedMap Protocol (List HeirTree.Inheritance)} {old tree : GenealogyTree}
    (hold : old.Unique) (h : initializeMsgInheritance fuel parsers old = some tree) :
    tree.Unique := by
  obtain ⟨st, -, htree⟩ := Option.map_eq_some_iff.1 h
  split_ifs at htree with hcheck
  · subst htree
    intro x f hf
    have hsub := parentInfoFrom_sub ((allKeys st.aTo).flatMap (parrentsOf st.aTo)) ⟨st.aTo, []⟩ x
    rw [show at_ (parentInfoFrom _ _).2.tree x = some f from hf] at hsub
    obtain ⟨g, hg, hsub⟩ := Option.map_eq_some_iff.1 hsub.symm
    rw [← hsub]
    exact unique_of_check hcheck x g hg
  · exact htree ▸ hold

def Genealogy.ofTree (tree : GenealogyTree) (h : tree.Unique) : Genealogy where
  tree := tree
  unique := by
    intro p m a f hm hf
    have hat : at_ tree (⟨p⟩, a) = some f := by
      rw [at_, hm]
      exact hf
    refine List.Nodup.of_map (fun y : Text × Header => ((⟨y.1⟩, y.2) : Msg)) ?_
    rw [List.map_cons, List.map_map]
    exact h (⟨p⟩, a) f hat

end UdtKernel
