import Mathlib.Data.Nat.ModEq
import Mathlib.Logic.Function.Basic
import Mathlib.Algebra.GroupWithZero.Nat

set_option autoImplicit false

/-! Items in slots that are used round and round, and lists from which the last of the equal items
is erased. -/

namespace UdtKernel.Lib

variable {α : Type}

/-- The items of a ring of `n` slots from one place on. -/
def ringItems (slots : ℕ → α) (n first count : ℕ) : List α :=
  (List.range count).map fun i => slots ((first + i) % n)

@[simp] theorem length_ringItems (slots : ℕ → α) (n first count : ℕ) :
    (ringItems slots n first count).length = count := by
  simp [ringItems]

@[simp] theorem getElem_ringItems (slots : ℕ → α) {n first count i : ℕ}
    (h : i < (ringItems slots n first count).length) :
    (ringItems slots n first count)[i] = slots ((first + i) % n) := by
  simp [ringItems]

/-- A place counts up to the slots. -/
theorem ringItems_mod (slots : ℕ → α) {n m : ℕ} (h : n ∣ m) (first count : ℕ) :
    ringItems slots n (first % m) count = ringItems slots n first count := by
  unfold ringItems
  refine List.map_congr_left fun i _ => ?_
  rw [Nat.add_mod, Nat.mod_mod_of_dvd first h, ← Nat.add_mod]

theorem ringItems_succ (slots : ℕ → α) (n first count : ℕ) :
    ringItems slots n first (count + 1) =
      ringItems slots n first count ++ [slots ((first + count) % n)] := by
  unfold ringItems
  rw [List.range_succ, List.map_append, List.map_singleton]

theorem ringItems_succ_left (slots : ℕ → α) (n first count : ℕ) :
    ringItems slots n first (count + 1) =
      slots (first % n) :: ringItems slots n (first + 1) count := by
  unfold ringItems
  rw [List.range_succ_eq_map, List.map_cons, List.map_map, Nat.add_zero]
  congr 1
  refine List.map_congr_left fun i _ => ?_
  rw [Function.comp_apply, Nat.add_assoc, Nat.add_comm 1 i]

theorem place_inj {n first i j : ℕ} (hi : i < n) (hj : j < n)
    (h : (first + i) % n = (first + j) % n) : i = j := by
  have hmod : i % n = j % n := Nat.ModEq.add_left_cancel' first h
  rwa [Nat.mod_eq_of_lt hi, Nat.mod_eq_of_lt hj] at hmod

/-- A slot that holds none of the items can be written. -/
theorem ringItems_update (slots : ℕ → α) {n first count i : ℕ} (hcount : count ≤ n) (hi : i < n)
    (x : α) :
    ringItems (Function.update slots ((first + i) % n) x) n first count =
      (ringItems slots n first count).set i x := by
  refine List.ext_getElem (by simp) fun j hj _ => ?_
  rw [length_ringItems] at hj
  rw [getElem_ringItems, List.getElem_set, getElem_ringItems]
  by_cases hij : i = j
  · rw [if_pos hij, hij, Function.update_self]
  · rw [if_neg hij, Function.update_of_ne]
    exact fun h => hij (place_inj (by omega) hi h).symm

theorem succ_mod_of_ne_zero {m n : ℕ} (hm : 0 < m) (h : (n + 1) % m ≠ 0) :
    (n + 1) % m = n % m + 1 := by
  have hmod : (n + 1) % m = (n % m + 1) % m := (Nat.mod_add_mod n m 1).symm
  have hle := Nat.mod_lt n hm
  have hlt : n % m + 1 < m := by
    refine Nat.lt_of_le_of_ne hle fun heq => h ?_
    rw [hmod, heq, Nat.mod_self]
  rw [hmod, Nat.mod_eq_of_lt hlt]

theorem eraseIdx_set_succ {l : List α} {i : ℕ} (h : i + 1 < l.length) :
    (l.set i l[i + 1]).eraseIdx (i + 1) = l.eraseIdx i := by
  induction l generalizing i with
  | nil => exact absurd h (Nat.not_lt_zero _)
  | cons x l ih =>
    cases i with
    | zero =>
      cases l with
      | nil => exact absurd h (by simp)
      | cons y l => rfl
    | succ i =>
      rw [List.length_cons] at h
      rw [List.getElem_cons_succ, List.set_cons_succ, List.eraseIdx_cons_succ, ih (by omega),
        List.eraseIdx_cons_succ]

section
variable [DecidableEq α]

def eraseLast (e : α) : List α → Option (List α)
  | [] => none
  | x :: l =>
    match eraseLast e l with
    | some l' => some (x :: l')
    | none => if x = e then some l else none

theorem eraseLast_eq_none_iff {e : α} {l : List α} : eraseLast e l = none ↔ e ∉ l := by
  induction l with
  | nil => simp [eraseLast]
  | cons x l ih =>
    cases herase : eraseLast e l with
    | some l' =>
      have hmem : e ∈ l := by
        by_contra hnot
        rw [ih.2 hnot] at herase
        cases herase
      simp [eraseLast, herase, hmem]
    | none =>
      have hnot := ih.1 herase
      simp [eraseLast, herase, hnot, eq_comm]

/-- One item is gone, and the others are in their order. -/
theorem eraseLast_append {e : α} {l₁ l₂ : List α} (h : e ∉ l₂) :
    eraseLast e (l₁ ++ e :: l₂) = some (l₁ ++ l₂) := by
  induction l₁ with
  | nil => simp [eraseLast, eraseLast_eq_none_iff.2 h]
  | cons x l₁ ih => rw [List.cons_append, eraseLast, ih, List.cons_append]

theorem exists_of_eraseLast {e : α} {l l' : List α} (h : eraseLast e l = some l') :
    ∃ l₁ l₂, l = l₁ ++ e :: l₂ ∧ e ∉ l₂ ∧ l' = l₁ ++ l₂ := by
  induction l generalizing l' with
  | nil => cases h
  | cons x l ih =>
    rw [eraseLast] at h
    cases herase : eraseLast e l with
    | some l'' =>
      rw [herase] at h
      cases h
      obtain ⟨l₁, l₂, hl, hnot, hl''⟩ := ih herase
      exact ⟨x :: l₁, l₂, by rw [hl, List.cons_append], hnot, by rw [hl'', List.cons_append]⟩
    | none =>
      rw [herase] at h
      dsimp only at h
      split_ifs at h with hx
      cases h
      exact ⟨[], l, by rw [hx, List.nil_append], eraseLast_eq_none_iff.1 herase, rfl⟩

end

end UdtKernel.Lib
