import Mathlib.Order.Defs.LinearOrder
import Mathlib.Order.Basic
import Mathlib.Data.Set.Defs
import Mathlib.Data.Int.Notation
import Mathlib.Algebra.GroupWithZero.Nat
import Mathlib.Order.CompletePartialOrder

set_option autoImplicit false

/-! Comparisons with a negative, a zero or a positive result. -/

namespace UdtKernel.Lib

section Rank
variable {κ : Type} [LinearOrder κ] {x y : κ}

def rank (x y : κ) : ℤ := if x < y then -1 else if x = y then 0 else 1

theorem rank_of_lt (h : x < y) : rank x y = -1 := if_pos h

theorem rank_self (x : κ) : rank x x = 0 := by rw [rank, if_neg (lt_irrefl x), if_pos rfl]

theorem rank_of_gt (h : y < x) : rank x y = 1 := by
  rw [rank, if_neg (lt_asymm h), if_neg (ne_of_gt h)]

theorem rank_swap (x y : κ) : rank y x = -rank x y := by
  rcases lt_trichotomy x y with h | rfl | h
  · rw [rank_of_lt h, rank_of_gt h, Int.neg_neg]
  · rw [rank_self, Int.neg_zero]
  · rw [rank_of_lt h, rank_of_gt h]

theorem rank_eq_zero : rank x y = 0 ↔ x = y := by
  rcases lt_trichotomy x y with h | rfl | h
  · rw [rank_of_lt h]
    exact iff_of_false (by decide) (ne_of_lt h)
  · exact iff_of_true (rank_self x) rfl
  · rw [rank_of_gt h]
    exact iff_of_false (by decide) (ne_of_gt h)

theorem rank_nonpos : rank x y ≤ 0 ↔ x ≤ y := by
  rcases lt_trichotomy x y with h | rfl | h
  · rw [rank_of_lt h]
    exact iff_of_true (by decide) (le_of_lt h)
  · rw [rank_self]
    exact iff_of_true (Int.le_refl 0) le_rfl
  · rw [rank_of_gt h]
    exact iff_of_false (by decide) (not_le_of_gt h)

theorem rank_neg : rank x y < 0 ↔ x < y := by
  rcases lt_trichotomy x y with h | rfl | h
  · rw [rank_of_lt h]
    exact iff_of_true (by decide) h
  · rw [rank_self]
    exact iff_of_false (Int.lt_irrefl 0) (lt_irrefl x)
  · rw [rank_of_gt h]
    exact iff_of_false (by decide) (lt_asymm h)

end Rank

section Orders
variable {α ε : Type}

/-- A comparison finds one value not above another. -/
def NotAbove (f : α → α → Except ε ℤ) (a b : α) : Prop := ∃ r, f a b = .ok r ∧ r ≤ 0

/-- A comparison ranks any two of some values, and as equal those that are alike. -/
structure TotalPreorder (T : Set α) (f : α → α → Except ε ℤ) (alike : α → α → Prop) : Prop where
  total : ∀ a ∈ T, ∀ b ∈ T, ∃ r, f a b = .ok r
  swap : ∀ a ∈ T, ∀ b ∈ T, ∀ r, f a b = .ok r → f b a = .ok (-r)
  trans : ∀ a ∈ T, ∀ b ∈ T, ∀ c ∈ T, NotAbove f a b → NotAbove f b c → NotAbove f a c
  zero : ∀ a ∈ T, ∀ b ∈ T, f a b = .ok 0 ↔ alike a b

/-- A test orders some values strictly, any two that differ. -/
structure StrictTotal (T : Set α) (less : α → α → Bool) : Prop where
  irrefl : ∀ a ∈ T, less a a = false
  trans : ∀ a ∈ T, ∀ b ∈ T, ∀ c ∈ T, less a b = true → less b c = true → less a c = true
  total : ∀ a ∈ T, ∀ b ∈ T, less a b = false → less b a = false → a = b

variable {κ : Type} [LinearOrder κ] {T : Set α} {key : α → κ}

/-- A comparison of keys in a linear order. -/
theorem totalPreorder_of_rank {f : α → α → Except ε ℤ} {alike : α → α → Prop}
    (h : ∀ a ∈ T, ∀ b ∈ T, f a b = .ok (rank (key a) (key b)))
    (halike : ∀ a ∈ T, ∀ b ∈ T, key a = key b ↔ alike a b) : TotalPreorder T f alike where
  total a ha b hb := ⟨_, h a ha b hb⟩
  swap a ha b hb r hr := by
    rw [h a ha b hb] at hr
    rw [h b hb a ha, rank_swap, Except.ok.inj hr]
  trans a ha b hb c hc := by
    rintro ⟨r, hr, hle⟩ ⟨r', hr', hle'⟩
    rw [h a ha b hb] at hr
    rw [h b hb c hc] at hr'
    rw [← Except.ok.inj hr, rank_nonpos] at hle
    rw [← Except.ok.inj hr', rank_nonpos] at hle'
    exact ⟨_, h a ha c hc, rank_nonpos.2 (hle.trans hle')⟩
  zero a ha b hb := by
    rw [h a ha b hb, ← halike a ha b hb]
    constructor
    · exact fun heq => rank_eq_zero.1 (Except.ok.inj heq)
    · exact fun heq => congrArg _ (rank_eq_zero.2 heq)

theorem strictTotal_of_key {less : α → α → Bool}
    (h : ∀ a ∈ T, ∀ b ∈ T, less a b = true ↔ key a < key b)
    (hkey : ∀ a ∈ T, ∀ b ∈ T, key a = key b → a = b) : StrictTotal T less where
  irrefl a ha := by
    rw [← Bool.not_eq_true, h a ha a ha]
    exact lt_irrefl _
  trans a ha b hb c hc hab hbc := by
    rw [h a ha b hb] at hab
    rw [h b hb c hc] at hbc
    exact (h a ha c hc).2 (hab.trans hbc)
  total a ha b hb hab hba := by
    rw [← Bool.not_eq_true, h a ha b hb] at hab
    rw [← Bool.not_eq_true, h b hb a ha] at hba
    exact hkey a ha b hb (le_antisymm (not_lt.1 hba) (not_lt.1 hab))

end Orders

end UdtKernel.Lib
