import Mathlib.Order.Defs.LinearOrder
import Mathlib.Order.Basic
import Mathlib.Data.List.Basic
import Mathlib.Algebra.GroupWithZero.Nat
import Mathlib.Order.CompletePartialOrder

set_option autoImplicit false

/-! Sets of elements that are compared by a key. -/

namespace UdtKernel.Lib

/-- A set kept as a list that strictly increases by a key of its elements. -/
structure KeyedSet {α κ : Type} [LinearOrder κ] (key : α → κ) where
  elements : List α
  sorted : elements.Pairwise fun a b => key a < key b

namespace KeyedSet

variable {α κ : Type} [LinearOrder κ] {key : α → κ}

@[ext] theorem ext {s t : KeyedSet key} (h : s.elements = t.elements) : s = t := by
  cases s
  cases t
  cases h
  rfl

instance [DecidableEq α] : DecidableEq (KeyedSet key) := fun s t =>
  decidable_of_iff (s.elements = t.elements) ⟨ext, congrArg _⟩

def empty : KeyedSet key := ⟨[], List.Pairwise.nil⟩

def insertElements (key : α → κ) (a : α) : List α → List α
  | [] => [a]
  | b :: l =>
    if key a < key b then a :: b :: l
    else if key a = key b then b :: l
    else b :: insertElements key a l

theorem mem_insertElements {a c : α} {l : List α} (h : c ∈ insertElements key a l) :
    c = a ∨ c ∈ l := by
  induction l with
  | nil => exact .inl (List.mem_singleton.1 h)
  | cons b l ih =>
    unfold insertElements at h
    split_ifs at h with hlt heq
    · exact List.mem_cons.1 h
    · exact .inr h
    · rcases List.mem_cons.1 h with rfl | h
      · exact .inr List.mem_cons_self
      · exact (ih h).imp_right (List.mem_cons_of_mem b)

theorem sorted_insertElements (a : α) {l : List α} (h : l.Pairwise fun a b => key a < key b) :
    (insertElements key a l).Pairwise fun a b => key a < key b := by
  induction l with
  | nil => exact List.pairwise_singleton _ a
  | cons b l ih =>
    obtain ⟨hb, hl⟩ := List.pairwise_cons.1 h
    unfold insertElements
    split_ifs with hlt heq
    · refine List.pairwise_cons.2 ⟨fun c hc => ?_, h⟩
      rcases List.mem_cons.1 hc with rfl | hc
      · exact hlt
      · exact lt_trans hlt (hb c hc)
    · exact h
    · refine List.pairwise_cons.2 ⟨fun c hc => ?_, ih hl⟩
      rcases mem_insertElements hc with rfl | hc
      · exact lt_of_le_of_ne (not_lt.1 hlt) (Ne.symm heq)
      · exact hb c hc

def insert (s : KeyedSet key) (a : α) : KeyedSet key :=
  ⟨insertElements key a s.elements, sorted_insertElements a s.sorted⟩

def ofList (l : List α) : KeyedSet key := l.foldl insert empty

theorem insertElements_of_last {a : α} {l : List α} (h : ∀ b ∈ l, key b < key a) :
    insertElements key a l = l ++ [a] := by
  induction l with
  | nil => rfl
  | cons b l ih =>
    have hb := h b List.mem_cons_self
    rw [insertElements, if_neg (not_lt_of_gt hb), if_neg (ne_of_gt hb),
      ih fun c hc => h c (List.mem_cons_of_mem b hc)]
    rfl

theorem elements_foldl_insert {s : KeyedSet key} {l : List α}
    (h : (s.elements ++ l).Pairwise fun a b => key a < key b) :
    (l.foldl insert s).elements = s.elements ++ l := by
  induction l generalizing s with
  | nil => exact (List.append_nil _).symm
  | cons a l ih =>
    have hlast : ∀ b ∈ s.elements, key b < key a := fun b hb =>
      (List.pairwise_append.1 h).2.2 b hb a List.mem_cons_self
    have helements : (s.insert a).elements = s.elements ++ [a] := insertElements_of_last hlast
    rw [List.foldl_cons, ih, helements, List.append_assoc]
    · rfl
    · rw [helements, List.append_assoc]
      exact h

/-- A set is the one of its elements. -/
theorem ofList_elements (s : KeyedSet key) : ofList s.elements = s :=
  ext (elements_foldl_insert (s := empty) s.sorted)

end KeyedSet

end UdtKernel.Lib
