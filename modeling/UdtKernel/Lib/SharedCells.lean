import Mathlib.Data.List.Basic
import Mathlib.Algebra.GroupWithZero.Nat

set_option autoImplicit false

/-! Cells that several holders share, with the number of their holders. -/

namespace UdtKernel.Lib

structure SharedCell (α : Type) where
  value : α
  count : ℕ

variable {α : Type} {cells : List (Option (SharedCell α))} {held : List (Option ℕ)}
variable {c : SharedCell α} {x : α} {i o : ℕ}

def cellAt (cells : List (Option (SharedCell α))) (i : ℕ) : Option (SharedCell α) := cells[i]?.join

/-- A cell counts its holders, and is gone without one. -/
def CountsHolders (cells : List (Option (SharedCell α))) (held : List (Option ℕ)) : Prop :=
  ∀ i, (cellAt cells i).map SharedCell.count =
    if held.count (some i) = 0 then none else some (held.count (some i))

theorem lt_of_cellAt (h : cellAt cells i = some c) : i < cells.length := by
  by_contra hle
  unfold cellAt at h
  rw [List.getElem?_eq_none (Nat.not_lt.1 hle)] at h
  cases h

theorem cellAt_set_self (h : cellAt cells i = some c) (d : Option (SharedCell α)) :
    cellAt (cells.set i d) i = d := by
  unfold cellAt
  rw [List.getElem?_set_self (lt_of_cellAt h)]
  rfl

theorem cellAt_set_of_ne {j : ℕ} (h : j ≠ i) (d : Option (SharedCell α)) :
    cellAt (cells.set i d) j = cellAt cells j := by
  unfold cellAt
  rw [List.getElem?_set_ne h.symm]

theorem cellAt_concat_self (d : Option (SharedCell α)) :
    cellAt (cells ++ [d]) cells.length = d := by
  unfold cellAt
  rw [List.getElem?_concat_length]
  rfl

theorem cellAt_concat_of_ne (h : i ≠ cells.length) (d : Option (SharedCell α)) :
    cellAt (cells ++ [d]) i = cellAt cells i := by
  unfold cellAt
  rcases Nat.lt_or_ge i cells.length with hlt | hge
  · rw [List.getElem?_append_left hlt]
  · rw [List.getElem?_eq_none hge, List.getElem?_eq_none]
    rw [List.length_append, List.length_singleton]
    omega

theorem cellAt_length : cellAt cells cells.length = none := by
  unfold cellAt
  rw [List.getElem?_eq_none (Nat.le_refl _)]
  rfl

/-- One holder lets go of what it has and takes something else. -/
theorem count_set_holder {a : Option ℕ} (h : held[o]? = some a) (b d : Option ℕ) :
    (held.set o b).count d + (if a = d then 1 else 0) =
      held.count d + if b = d then 1 else 0 := by
  obtain ⟨hlt, hget⟩ := List.getElem?_eq_some_iff.1 h
  rw [List.count_set hlt, hget]
  simp only [beq_iff_eq]
  have hpos : a = d → 0 < held.count d := by
    intro had
    rw [← had, ← hget]
    exact List.count_pos_iff.2 (List.getElem_mem hlt)
  split_ifs with had hbd hbd
  all_goals
    try have hpos := hpos had
    omega

namespace CountsHolders

theorem exists_cell (h : CountsHolders cells held) (ho : held[o]? = some (some i)) :
    ∃ c, cellAt cells i = some c ∧ c.count = held.count (some i) ∧ 0 < c.count := by
  have hpos : 0 < held.count (some i) := List.count_pos_iff.2 (List.mem_of_getElem? ho)
  have hi := h i
  rw [if_neg (by omega)] at hi
  obtain ⟨c, hc, hcount⟩ := Option.map_eq_some_iff.1 hi
  exact ⟨c, hc, hcount, by omega⟩

theorem count_eq (h : CountsHolders cells held) (hc : cellAt cells i = some c) :
    held.count (some i) = c.count ∧ 0 < c.count := by
  have hi := h i
  rw [hc] at hi
  split_ifs at hi with hzero
  · cases hi
  · have hcount := Option.some.inj hi
    omega

theorem not_held (h : CountsHolders cells held) (hi : cellAt cells i = none) :
    held.count (some i) = 0 := by
  have hcount := h i
  rw [hi] at hcount
  split_ifs at hcount with hzero
  · exact hzero
  · cases hcount

/-- A cell with one holder is seen by no other. -/
theorem sole (h : CountsHolders cells held) (hc : cellAt cells i = some c) (hone : c.count = 1)
    (ho : held[o]? = some (some i)) {p : ℕ} (hp : p ≠ o) : held[p]? ≠ some (some i) := by
  intro hpi
  have hset := count_set_holder ho none (some i)
  have hin : some i ∈ held.set o none := by
    refine List.mem_of_getElem? (i := p) ?_
    rw [List.getElem?_set_ne hp.symm, hpi]
  have hpos := List.count_pos_iff.2 hin
  have hcount := (h.count_eq hc).1
  simp only [if_true, reduceCtorEq, if_false] at hset
  omega

/-- Only the value of a cell is another one. -/
theorem alter (h : CountsHolders cells held) (hc : cellAt cells i = some c) (x : α) :
    CountsHolders (cells.set i (some { c with value := x })) held := by
  intro j
  by_cases hj : j = i
  · rw [hj, cellAt_set_self hc, ← h i, hc]
    rfl
  · rw [cellAt_set_of_ne hj, h j]

theorem hold (h : CountsHolders cells held) (hc : cellAt cells i = some c)
    (ho : held[o]? = some none) :
    CountsHolders (cells.set i (some { c with count := c.count + 1 }))
      (held.set o (some i)) := by
  intro j
  have hset := count_set_holder ho (some i) (some j)
  by_cases hj : j = i
  · rw [hj] at hset ⊢
    have hcount := (h.count_eq hc).1
    simp only [if_true, reduceCtorEq, if_false] at hset
    rw [cellAt_set_self hc, if_neg (by omega)]
    exact congrArg some (by dsimp only; omega)
  · simp only [reduceCtorEq, if_false, Option.some.injEq, if_neg (Ne.symm hj)] at hset
    rw [cellAt_set_of_ne hj, h j, Nat.add_zero _ |>.symm.trans hset]
    rfl

theorem drop (h : CountsHolders cells held) (hc : cellAt cells i = some c)
    (ho : held[o]? = some (some i)) :
    CountsHolders
      (cells.set i (if c.count = 1 then none else some { c with count := c.count - 1 }))
      (held.set o none) := by
  intro j
  have hset := count_set_holder ho none (some j)
  by_cases hj : j = i
  · rw [hj] at hset ⊢
    obtain ⟨hcount, hpos⟩ := h.count_eq hc
    simp only [if_true, reduceCtorEq, if_false] at hset
    rw [cellAt_set_self hc]
    by_cases hone : c.count = 1
    · rw [if_pos hone, if_pos (by omega)]
      rfl
    · rw [if_neg hone, if_neg (by omega)]
      exact congrArg some (by dsimp only; omega)
  · simp only [reduceCtorEq, if_false, Option.some.injEq, if_neg (Ne.symm hj)] at hset
    rw [cellAt_set_of_ne hj, h j, Nat.add_zero _ |>.symm.trans hset]
    rfl

/-- A new cell has the holder it is made for. -/
theorem fresh (h : CountsHolders cells held) (ho : held[o]? = some none) (x : α) :
    CountsHolders (cells ++ [some ⟨x, 1⟩]) (held.set o (some cells.length)) := by
  intro j
  have hset := count_set_holder ho (some cells.length) (some j)
  by_cases hj : j = cells.length
  · rw [hj] at hset ⊢
    have hnone := h.not_held cellAt_length
    simp only [if_true, reduceCtorEq, if_false] at hset
    rw [cellAt_concat_self, if_neg (by omega)]
    exact congrArg some (by dsimp only; omega)
  · simp only [reduceCtorEq, if_false, Option.some.injEq, if_neg (Ne.symm hj)] at hset
    rw [cellAt_concat_of_ne hj, h j, Nat.add_zero _ |>.symm.trans hset]
    rfl

/-- Two holders exchange what they hold. -/
theorem exchange (h : CountsHolders cells held) {r : ℕ} {a b : Option ℕ} (ho : held[o]? = some a)
    (hr : held[r]? = some b) (hne : r ≠ o) : CountsHolders cells ((held.set o b).set r a) := by
  intro j
  have hfirst := count_set_holder ho b (some j)
  have hr' : (held.set o b)[r]? = some b := (List.getElem?_set_ne hne.symm).trans hr
  have hsecond := count_set_holder hr' a (some j)
  have hcount : ((held.set o b).set r a).count (some j) = held.count (some j) := by omega
  rw [hcount, h j]

theorem join (h : CountsHolders cells held) : CountsHolders cells (held ++ [none]) := by
  intro j
  rw [List.count_append, h j]
  rfl

end CountsHolders

end UdtKernel.Lib
