import Mathlib.Data.Fin.Basic
import Mathlib.Algebra.Order.Group.Nat
import Mathlib.Algebra.Group.Nat.Even
import Mathlib.Tactic.Ring
import Mathlib.Algebra.GroupWithZero.Nat
import Mathlib.Logic.Function.Basic

set_option autoImplicit false

/-! Numbers as lists of a fixed number of digits, the low ones first, and loops that change one
element after the other until one of them stops it, as a carry does. -/

namespace UdtKernel.Lib

section Numbers
variable {b : ℕ} [NeZero b]

def toDigits (b : ℕ) [NeZero b] : ℕ → ℕ → List (Fin b)
  | 0, _ => []
  | n + 1, v => Fin.ofNat b v :: toDigits b n (v / b)

def ofDigits : List (Fin b) → ℕ
  | [] => 0
  | d :: l => d.val + b * ofDigits l

@[simp] theorem length_toDigits (n v : ℕ) : (toDigits b n v).length = n := by
  induction n generalizing v with
  | zero => rfl
  | succ n ih => rw [toDigits, List.length_cons, ih]

omit [NeZero b] in
theorem ofDigits_lt (l : List (Fin b)) : ofDigits l < b ^ l.length := by
  induction l with
  | nil => simp [ofDigits]
  | cons d l ih =>
    rw [ofDigits, List.length_cons, Nat.pow_succ, Nat.mul_comm (b ^ l.length)]
    calc d.val + b * ofDigits l < b + b * ofDigits l := Nat.add_lt_add_right d.isLt _
      _ = b * (ofDigits l + 1) := by ring
      _ ≤ b * b ^ l.length := Nat.mul_le_mul_left b ih

theorem ofDigits_toDigits (n v : ℕ) : ofDigits (toDigits b n v) = v % b ^ n := by
  induction n generalizing v with
  | zero => simp [toDigits, ofDigits, Nat.mod_one]
  | succ n ih =>
    rw [toDigits, ofDigits, ih, Fin.val_ofNat, Nat.pow_succ, Nat.mul_comm (b ^ n), Nat.mod_mul]

theorem ofDigits_toDigits_of_lt {n v : ℕ} (h : v < b ^ n) : ofDigits (toDigits b n v) = v := by
  rw [ofDigits_toDigits, Nat.mod_eq_of_lt h]

end Numbers

section Change
variable {α κ : Type} (step : α → α) (stop : α → Bool)

/-- Elements that are changed one after the other, up to one that stops it. -/
def changeUntil : List α → List α
  | [] => []
  | a :: l => step a :: if stop (step a) then l else changeUntil l

variable [DecidableEq κ]

/-- The same with the elements of an array, place by place. -/
def changeAt : List κ → (κ → α) → κ → α
  | [], f => f
  | k :: ks, f =>
    let f := Function.update f k (step (f k))
    if stop (f k) then f else changeAt ks f

theorem changeAt_of_notMem {ks : List κ} {k : κ} (hk : k ∉ ks) (f : κ → α) :
    changeAt step stop ks f k = f k := by
  induction ks generalizing f with
  | nil => rfl
  | cons j ks ih =>
    obtain ⟨hne, hks⟩ := not_or.1 (mt List.mem_cons.2 hk)
    rw [changeAt]
    split_ifs
    · exact Function.update_of_ne hne _ _
    · rw [ih hks, Function.update_of_ne hne]

/-- The places are passed in the order of the list, each of them once. -/
theorem map_changeAt {ks : List κ} (hks : ks.Nodup) (f : κ → α) :
    ks.map (changeAt step stop ks f) = changeUntil step stop (ks.map f) := by
  induction ks generalizing f with
  | nil => rfl
  | cons k ks ih =>
    obtain ⟨hk, hnodup⟩ := List.nodup_cons.1 hks
    have hmap : ks.map (Function.update f k (step (f k))) = ks.map f :=
      List.map_congr_left fun j hj =>
        Function.update_of_ne (fun heq : j = k => hk (heq ▸ hj)) _ _
    rw [List.map_cons, List.map_cons, changeUntil, changeAt, Function.update_self]
    split_ifs
    · rw [Function.update_self, hmap]
    · rw [changeAt_of_notMem step stop hk, Function.update_self, ih hnodup, hmap]

end Change

section Digits
variable {b : ℕ} [NeZero b]

theorem val_add_one (d : Fin b) : (d + 1).val = (d.val + 1) % b := by
  exact (Fin.val_add d 1).trans (Nat.add_mod_mod d.val 1 b)

/-- A digit goes over to the next one when it wraps. -/
theorem ofDigits_increment (l : List (Fin b)) :
    ofDigits (changeUntil (· + 1) (· ≠ 0) l) = (ofDigits l + 1) % b ^ l.length := by
  induction l with
  | nil => exact (Nat.mod_one _).symm
  | cons d l ih =>
    have hd := d.isLt
    have hpow : b ^ (d :: l).length = b * b ^ l.length := Nat.pow_succ'
    rw [changeUntil, ofDigits, ofDigits, hpow, val_add_one]
    by_cases hlt : d.val + 1 < b
    · have hval : (d + 1).val = d.val + 1 := by rw [val_add_one, Nat.mod_eq_of_lt hlt]
      have hne : d + 1 ≠ 0 := fun hzero => by
        rw [hzero] at hval
        exact Nat.succ_ne_zero _ hval.symm
      have hle : b * (ofDigits l + 1) ≤ b * b ^ l.length := Nat.mul_le_mul_left b (ofDigits_lt l)
      rw [if_pos (decide_eq_true hne), Nat.mod_eq_of_lt hlt, Nat.mod_eq_of_lt]
      · omega
      · rw [Nat.mul_succ] at hle
        omega
    · have hwrap : d.val + 1 = b := by omega
      have hzero : d + 1 = 0 := Fin.ext (by rw [val_add_one, hwrap, Nat.mod_self]; rfl)
      have hsum : d.val + b * ofDigits l + 1 = b * (ofDigits l + 1) := by
        rw [Nat.mul_succ]
        omega
      have hgo : ¬decide (d + 1 ≠ 0) = true := by rw [decide_eq_true_eq, not_not, hzero]
      rw [if_neg hgo, hwrap, Nat.mod_self, Nat.zero_add, ih, hsum,
        Nat.mul_mod_mul_left]

end Digits

end UdtKernel.Lib
