import Mathlib.Data.List.Basic
import Mathlib.Algebra.GroupWithZero.Nat

set_option autoImplicit false

/-! Sequences whose first element tells how long they are, one behind the other. -/

namespace UdtKernel.Lib

variable {α : Type} {len : α → ℕ} {a : α} {s l : List α}

/-- A sequence that is as long as its first element tells. -/
def Delimited (len : α → ℕ) (s : List α) : Prop := ∃ a t, s = a :: t ∧ len a = t.length + 1

/-- A list that is cut where its sequences end; the last one may be short. -/
def sequences (len : α → ℕ) : List α → List (List α)
  | [] => []
  | a :: l => (a :: l.take (len a - 1)) :: sequences len (l.drop (len a - 1))
termination_by l => l.length
decreasing_by
  rw [List.length_drop, List.length_cons]
  omega

theorem sequences_nil : sequences len [] = [] := by rw [sequences]

theorem sequences_append (hs : Delimited len s) (l : List α) :
    sequences len (s ++ l) = s :: sequences len l := by
  obtain ⟨a, t, rfl, hlen⟩ := hs
  rw [List.cons_append, sequences, hlen, Nat.add_sub_cancel, List.take_left, List.drop_left]

theorem sequences_short (h : l.length + 1 < len a) : sequences len (a :: l) = [a :: l] := by
  have hle : l.length ≤ len a - 1 := by omega
  rw [sequences, List.take_of_length_le hle, List.drop_eq_nil_of_le hle, sequences_nil]

theorem not_delimited_short (h : l.length + 1 < len a) : ¬Delimited len (a :: l) := by
  rintro ⟨b, t, heq, hlen⟩
  obtain ⟨rfl, rfl⟩ := List.cons.inj heq
  omega

/-- Either nothing is left, or a whole sequence comes first, or the rest is short. -/
theorem sequences_induction (hpos : ∀ a, 0 < len a) {P : List α → Prop} (nil : P [])
    (whole : ∀ s l, Delimited len s → P l → P (s ++ l))
    (short : ∀ a l, l.length + 1 < len a → P (a :: l)) (l : List α) : P l := by
  induction hn : l.length using Nat.strongRecOn generalizing l with
  | ind n ih =>
    cases l with
    | nil => exact nil
    | cons a l =>
      have ha := hpos a
      by_cases hlt : l.length + 1 < len a
      · exact short a l hlt
      · have hlen : (l.take (len a - 1)).length + 1 = len a := by
          rw [List.length_take]
          omega
        rw [← List.take_append_drop (len a - 1) l, ← List.cons_append]
        refine whole _ _ ⟨a, _, rfl, hlen.symm⟩ (ih _ ?_ _ rfl)
        rw [← hn, List.length_drop, List.length_cons]
        omega

theorem sequences_flatten (hpos : ∀ a, 0 < len a) (l : List α) : (sequences len l).flatten = l := by
  induction l using sequences_induction hpos with
  | nil => rw [sequences_nil, List.flatten_nil]
  | whole s l hs ih => rw [sequences_append hs, List.flatten_cons, ih]
  | short a l h => rw [sequences_short h, List.flatten_singleton]

/-- Delimited sequences are found again. -/
theorem sequences_of_delimited {ss : List (List α)} (h : ∀ s ∈ ss, Delimited len s) :
    sequences len ss.flatten = ss := by
  induction ss with
  | nil => rw [List.flatten_nil, sequences_nil]
  | cons s ss ih =>
    rw [List.flatten_cons, sequences_append (h s List.mem_cons_self),
      ih fun t ht => h t (List.mem_cons_of_mem s ht)]

/-- A list is made of some whole sequences just when it is cut into such. -/
theorem exists_flatten_iff (hpos : ∀ a, 0 < len a) {P : List α → Prop}
    (hdelim : ∀ s, P s → Delimited len s) :
    (∃ ss : List (List α), (∀ s ∈ ss, P s) ∧ ss.flatten = l) ↔ ∀ s ∈ sequences len l, P s := by
  constructor
  · rintro ⟨ss, hss, rfl⟩
    rw [sequences_of_delimited fun s hs => hdelim s (hss s hs)]
    exact hss
  · exact fun h => ⟨sequences len l, h, sequences_flatten hpos l⟩

end UdtKernel.Lib
