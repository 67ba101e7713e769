import Mathlib.Data.List.Basic
import Mathlib.Data.Nat.Notation
import Mathlib.Algebra.GroupWithZero.Nat

set_option autoImplicit false

/-! Elements each of which has one successor at most, and the chains they form. -/

namespace UdtKernel.Lib

variable {α : Type} (next : α → Option α)

/-- The element `n` steps on. -/
def stepsOn : ℕ → α → Option α
  | 0, x => some x
  | n + 1, x => (next x).bind (stepsOn n)

/-- The elements after `x` in order, `n` of them at most. -/
def chain : ℕ → α → List α
  | 0, _ => []
  | n + 1, x => match next x with
    | none => []
    | some y => y :: chain n y

variable {next}

theorem stepsOn_of_none {x : α} (h : next x = none) (n : ℕ) : stepsOn next (n + 1) x = none := by
  rw [stepsOn, h]
  rfl

theorem stepsOn_of_some {x y : α} (h : next x = some y) (n : ℕ) :
    stepsOn next (n + 1) x = stepsOn next n y := by
  rw [stepsOn, h]
  rfl

theorem stepsOn_succ (n : ℕ) (x : α) : stepsOn next (n + 1) x = (stepsOn next n x).bind next := by
  induction n generalizing x with
  | zero => cases h : next x <;> simp [stepsOn, h]
  | succ n ih =>
    cases h : next x with
    | none => rw [stepsOn_of_none h, stepsOn_of_none h]; rfl
    | some y => rw [stepsOn_of_some h, ih, stepsOn_of_some h]

theorem stepsOn_none_of_le {m n : ℕ} {x : α} (h : stepsOn next m x = none) (hmn : m ≤ n) :
    stepsOn next n x = none := by
  obtain ⟨k, rfl⟩ := Nat.exists_eq_add_of_le hmn
  clear hmn
  induction k with
  | zero => exact h
  | succ k ih => rw [← Nat.add_assoc, stepsOn_succ, ih]; rfl

theorem chain_of_none {x : α} (h : next x = none) (n : ℕ) : chain next n x = [] := by
  cases n with
  | zero => rfl
  | succ n => rw [chain, h]

theorem chain_getElem? (n d : ℕ) (x : α) :
    (chain next n x)[d]? = if d < n then stepsOn next (d + 1) x else none := by
  induction n generalizing d x with
  | zero => simp [chain]
  | succ n ih =>
    cases h : next x with
    | none => rw [chain_of_none h, stepsOn_of_none h]; simp
    | some y =>
      rw [chain, h, stepsOn_of_some h]
      cases d with
      | zero => simp [stepsOn]
      | succ d => simp [ih]

theorem chain_length_le (n : ℕ) (x : α) : (chain next n x).length ≤ n := by
  induction n generalizing x with
  | zero => exact Nat.le_refl 0
  | succ n ih =>
    cases h : next x with
    | none => rw [chain_of_none h]; exact Nat.zero_le _
    | some y => rw [chain, h]; exact Nat.succ_le_succ (ih y)

section Bounded

-- No chain has more than `N` steps, so none comes back to where it was.
variable {N : ℕ} (hN : ∀ x, stepsOn next (N + 1) x = none)
include hN

theorem chain_at (d : ℕ) (x : α) : (chain next N x)[d]? = stepsOn next (d + 1) x := by
  rw [chain_getElem?]
  split
  · rfl
  · rename_i hd
    exact (stepsOn_none_of_le (hN x) (by omega)).symm

theorem chain_of_some {x y : α} (h : next x = some y) :
    chain next N x = y :: chain next N y := by
  refine List.ext_getElem? fun d => ?_
  rw [chain_at hN, stepsOn_of_some h]
  cases d with
  | zero => rfl
  | succ d => rw [List.getElem?_cons_succ, chain_at hN]

/-- A chain gets shorter as it goes on. -/
theorem chain_length_lt {x : α} {l : List α} (hl : chain next N x = l) :
    (x :: l).Pairwise fun y z => (chain next N z).length < (chain next N y).length := by
  induction l generalizing x with
  | nil => exact List.pairwise_singleton _ _
  | cons y l ih =>
    cases h : next x with
    | none => rw [chain_of_none h] at hl; cases hl
    | some z =>
      rw [chain_of_some hN h] at hl
      obtain ⟨rfl, hl'⟩ := List.cons.inj hl
      have hy := ih hl'
      have hlt : (chain next N z).length < (chain next N x).length := by
        rw [chain_of_some hN h]
        exact Nat.lt_succ_self _
      refine List.pairwise_cons.2 ⟨fun w hw => ?_, hy⟩
      rcases List.mem_cons.1 hw with rfl | hw
      · exact hlt
      · exact Nat.lt_trans ((List.pairwise_cons.1 hy).1 w hw) hlt

theorem chain_nodup (x : α) : (x :: chain next N x).Nodup :=
  (chain_length_lt hN rfl).imp fun hlt heq => absurd hlt (by rw [heq]; exact Nat.lt_irrefl _)

end Bounded

end UdtKernel.Lib
