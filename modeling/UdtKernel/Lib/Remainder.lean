import Mathlib.Algebra.CharP.Two
import Mathlib.Algebra.Polynomial.Div
import Mathlib.Algebra.Polynomial.RingDivision
import Mathlib.Data.ZMod.Basic
import Mathlib.Data.Nat.Bitwise
import Mathlib.RingTheory.Coprime.Lemmas
import Mathlib.Tactic.LinearCombination
import Mathlib.Algebra.Field.ZMod

set_option autoImplicit false

/-! Remainders of the division of polynomials over the field of two elements, as the numbers that a
register of some width holds. -/

namespace UdtKernel.Lib
open Polynomial

/-- The polynomial of a number of `w` bits. -/
noncomputable def polyOf (w s : ℕ) : (ZMod 2)[X] :=
  ∑ i ∈ Finset.range w, if s.testBit i then X ^ i else 0

/-- The polynomial of some bits, of which the first leads. -/
noncomputable def ofBits : List Bool → (ZMod 2)[X]
  | [] => 0
  | b :: l => (if b then X ^ l.length else 0) + ofBits l

/-- The bits of a number, of which the first leads. -/
def bitsOf : ℕ → ℕ → List Bool
  | 0, _ => []
  | w + 1, s => s.testBit w :: bitsOf w s

/-- The divisor `X ^ w + …` of which a register holds the other coefficients. -/
noncomputable def divisor (w g : ℕ) : (ZMod 2)[X] := X ^ w + polyOf w g

def shift (w g s : ℕ) : ℕ := 2 * s % 2 ^ w ^^^ if s.testBit (w - 1) then g else 0

def divideBit (w g s : ℕ) (b : Bool) : ℕ := shift w g (s ^^^ if b then 2 ^ (w - 1) else 0)

structure IsRemainder (w g s : ℕ) (p : (ZMod 2)[X]) : Prop where
  lt : s < 2 ^ w
  dvd : divisor w g ∣ polyOf w s - p

theorem degree_polyOf_lt (w s : ℕ) : (polyOf w s).degree < w := by
  induction w with
  | zero =>
    rw [polyOf, Finset.sum_range_zero, degree_zero]
    exact WithBot.bot_lt_coe 0
  | succ w ih =>
    rw [polyOf, Finset.sum_range_succ]
    have hw : (w : WithBot ℕ) < ((w + 1 : ℕ) : WithBot ℕ) := by
      exact_mod_cast Nat.lt_succ_self w
    refine (degree_add_le _ _).trans_lt (max_lt (ih.trans hw) ?_)
    split_ifs
    · rwa [degree_X_pow]
    · rw [degree_zero]
      exact WithBot.bot_lt_coe _

theorem coeff_polyOf (w s i : ℕ) :
    (polyOf w s).coeff i = if i < w ∧ s.testBit i = true then 1 else 0 := by
  unfold polyOf
  rw [finsetSum_coeff]
  have hterm : ∀ j ∈ Finset.range w, (if s.testBit j then (X : (ZMod 2)[X]) ^ j else 0).coeff i =
      if j = i then (if s.testBit i then 1 else 0) else 0 := by
    intro j _
    by_cases hj : j = i
    · subst hj
      rw [if_pos rfl]
      split_ifs
      · rw [coeff_X_pow_self]
      · rw [coeff_zero]
    · rw [if_neg hj]
      split_ifs
      · rw [coeff_X_pow, if_neg (Ne.symm hj)]
      · rw [coeff_zero]
  rw [Finset.sum_congr rfl hterm, Finset.sum_ite_eq']
  by_cases hi : i < w
  · simp [hi]
  · simp [hi]

theorem polyOf_injective {w s t : ℕ} (hs : s < 2 ^ w) (ht : t < 2 ^ w)
    (h : polyOf w s = polyOf w t) : s = t := by
  refine Nat.eq_of_testBit_eq fun i => ?_
  by_cases hi : i < w
  · have hcoeff := congrArg (fun p => p.coeff i) h
    rw [coeff_polyOf, coeff_polyOf] at hcoeff
    cases hsi : s.testBit i <;> cases hti : t.testBit i <;> simp [hi, hsi, hti] at hcoeff ⊢
  · have hle : 2 ^ w ≤ 2 ^ i := Nat.pow_le_pow_right (by decide) (by omega)
    rw [Nat.testBit_lt_two_pow (by omega), Nat.testBit_lt_two_pow (by omega)]

@[simp] theorem polyOf_zero (w : ℕ) : polyOf w 0 = 0 := by
  unfold polyOf
  simp

theorem polyOf_xor (w s t : ℕ) : polyOf w (s ^^^ t) = polyOf w s + polyOf w t := by
  ext i
  rw [coeff_add, coeff_polyOf, coeff_polyOf, coeff_polyOf, Nat.testBit_xor]
  cases s.testBit i <;> cases t.testBit i <;> by_cases hi : i < w <;>
    simp [hi, CharTwo.add_self_eq_zero]

theorem polyOf_two_pow {w i : ℕ} (hi : i < w) : polyOf w (2 ^ i) = X ^ i := by
  ext j
  rw [coeff_polyOf, coeff_X_pow, Nat.testBit_two_pow]
  by_cases hj : i = j
  · subst hj
    simp [hi]
  · simp [hj, Ne.symm hj]

/-- A number with a bit in front. -/
theorem polyOf_two_pow_add {w i s : ℕ} (hi : i < w) (hs : s < 2 ^ i) :
    polyOf w (2 ^ i + s) = polyOf w s + X ^ i := by
  have hxor : 2 ^ i + s = s ^^^ 2 ^ i := by
    have hor := Nat.two_pow_add_eq_or_of_lt hs 1
    rw [mul_one] at hor
    rw [hor]
    refine Nat.eq_of_testBit_eq fun j => ?_
    rw [Nat.testBit_or, Nat.testBit_xor, Nat.testBit_two_pow]
    by_cases hj : i = j
    · rw [← hj, Nat.testBit_lt_two_pow hs]
      simp
    · simp [hj]
  rw [hxor, polyOf_xor, polyOf_two_pow hi]

theorem polyOf_mod (w s : ℕ) : polyOf w (s % 2 ^ w) = polyOf w s := by
  ext i
  rw [coeff_polyOf, coeff_polyOf, Nat.testBit_mod_two_pow]
  by_cases hi : i < w <;> simp [hi]

/-- Doubling multiplies, where the bit that is lost had its own power. -/
theorem polyOf_double (w s : ℕ) : X * polyOf (w + 1) s =
    polyOf (w + 1) (2 * s % 2 ^ (w + 1)) + if s.testBit w then X ^ (w + 1) else 0 := by
  rw [polyOf_mod]
  ext i
  rw [coeff_add, coeff_polyOf]
  cases i with
  | zero =>
    rw [coeff_X_mul_zero]
    have hbit : (2 * s).testBit 0 = false := by simp
    split_ifs <;> simp_all
  | succ i =>
    rw [coeff_X_mul, coeff_polyOf]
    have hbit : (2 * s).testBit (i + 1) = s.testBit i := by
      rw [Nat.testBit_succ, Nat.mul_div_cancel_left s (by decide)]
    rw [hbit]
    by_cases hi : i = w
    · subst hi
      split_ifs <;> simp_all
    · have hcoeff : (if s.testBit w then (X : (ZMod 2)[X]) ^ (w + 1) else 0).coeff (i + 1) = 0 := by
        split_ifs
        · rw [coeff_X_pow, if_neg (by omega)]
        · rw [coeff_zero]
      rw [hcoeff, add_zero]
      have hlt : i < w + 1 ↔ i + 1 < w + 1 := by omega
      exact if_congr (and_congr_left' hlt) rfl rfl

theorem monic_divisor (w g : ℕ) : (divisor w g).Monic := monic_X_pow_add (degree_polyOf_lt w g)

theorem degree_divisor (w g : ℕ) : (divisor w g).degree = w := by
  unfold divisor
  rw [degree_add_eq_left_of_degree_lt, degree_X_pow]
  rw [degree_X_pow]
  exact degree_polyOf_lt w g

/-- A divisor with a constant term has nothing in common with a power. -/
theorem isCoprime_divisor {w g : ℕ} (hw : 0 < w) (hg : g.testBit 0 = true) (n : ℕ) :
    IsCoprime (divisor w g) (X ^ n) := by
  refine IsCoprime.pow_right ⟨1, -(divisor w g).divX, ?_⟩
  have hcoeff : (divisor w g).coeff 0 = 1 := by
    unfold divisor
    rw [coeff_add, coeff_polyOf, coeff_X_pow, if_neg (by omega), if_pos ⟨hw, hg⟩, zero_add]
  have hsplit := divX_mul_X_add (divisor w g)
  rw [hcoeff, C_1] at hsplit
  calc 1 * divisor w g + -(divisor w g).divX * X
      = divisor w g - (divisor w g).divX * X := by ring
    _ = 1 := by rw [sub_eq_iff_eq_add, add_comm]; exact hsplit.symm

namespace IsRemainder

variable {w g s t : ℕ} {p q : (ZMod 2)[X]}

theorem polyOf_eq (h : IsRemainder w g s p) : polyOf w s = p %ₘ divisor w g := by
  have hdegree : (polyOf w s).degree < (divisor w g).degree := by
    rw [degree_divisor]
    exact degree_polyOf_lt w s
  rw [← (modByMonic_eq_self_iff (monic_divisor w g)).2 hdegree]
  exact modByMonic_eq_of_dvd_sub (monic_divisor w g) h.dvd

theorem unique (hs : IsRemainder w g s p) (ht : IsRemainder w g t p) : s = t :=
  polyOf_injective hs.lt ht.lt (hs.polyOf_eq.trans ht.polyOf_eq.symm)

theorem eq_zero_iff (h : IsRemainder w g s p) : s = 0 ↔ divisor w g ∣ p := by
  rw [← modByMonic_eq_zero_iff_dvd (monic_divisor w g), ← h.polyOf_eq]
  constructor
  · rintro rfl
    exact polyOf_zero w
  · intro hzero
    rw [← polyOf_zero w] at hzero
    exact polyOf_injective h.lt (Nat.two_pow_pos w) hzero

theorem of_lt (g : ℕ) (h : s < 2 ^ w) : IsRemainder w g s (polyOf w s) := by
  refine ⟨h, ?_⟩
  rw [sub_self]
  exact dvd_zero _

theorem xor (hs : IsRemainder w g s p) (ht : IsRemainder w g t q) :
    IsRemainder w g (s ^^^ t) (p + q) := by
  refine ⟨Nat.xor_lt_two_pow hs.lt ht.lt, ?_⟩
  rw [polyOf_xor, add_sub_add_comm]
  exact dvd_add hs.dvd ht.dvd

/-- A step of the register multiplies. -/
theorem shift (hw : 0 < w) (hg : g < 2 ^ w) (h : IsRemainder w g s p) :
    IsRemainder w g (shift w g s) (X * p) := by
  obtain ⟨k, rfl⟩ : ∃ k, w = k + 1 := ⟨w - 1, by omega⟩
  unfold Lib.shift
  rw [Nat.add_sub_cancel]
  have hdouble := polyOf_double k s
  have hdvd := dvd_mul_of_dvd_right h.dvd X
  have hlt : 2 * s % 2 ^ (k + 1) < 2 ^ (k + 1) := Nat.mod_lt _ (Nat.two_pow_pos _)
  by_cases hbit : s.testBit k = true
  · rw [if_pos hbit] at hdouble ⊢
    refine ⟨Nat.xor_lt_two_pow hlt hg, ?_⟩
    have hsub : polyOf (k + 1) (2 * s % 2 ^ (k + 1) ^^^ g) - X * p =
        X * (polyOf (k + 1) s - p) + divisor (k + 1) g := by
      have htwo := CharTwo.add_self_eq_zero ((X : (ZMod 2)[X]) ^ (k + 1))
      rw [polyOf_xor, mul_sub, hdouble, divisor]
      linear_combination -htwo
    rw [hsub]
    exact dvd_add hdvd dvd_rfl
  · rw [if_neg hbit] at hdouble ⊢
    rw [Nat.xor_zero]
    refine ⟨hlt, ?_⟩
    rw [add_zero] at hdouble
    rwa [← hdouble, ← mul_sub]

/-- A bit of a word is divided. -/
theorem divideBit (hw : 0 < w) (hg : g < 2 ^ w) (h : IsRemainder w g s p) (b : Bool) :
    IsRemainder w g (divideBit w g s b) (X * p + if b then X ^ w else 0) := by
  have hpred : w - 1 + 1 = w := by omega
  cases b with
  | false =>
    have hstep := h.shift hw hg
    rw [← add_zero (X * p), ← Nat.xor_zero s] at hstep
    exact hstep
  | true =>
    have htop : IsRemainder w g (2 ^ (w - 1)) (X ^ (w - 1)) := by
      rw [← polyOf_two_pow (show w - 1 < w by omega)]
      exact of_lt g (Nat.pow_lt_pow_right (by decide) (by omega))
    have hstep := (h.xor htop).shift hw hg
    rwa [mul_add, ← pow_succ', hpred] at hstep

/-- The bits of a word are divided one after the other. -/
theorem divideBits (hw : 0 < w) (hg : g < 2 ^ w) (l : List Bool) (h : IsRemainder w g s p) :
    IsRemainder w g (l.foldl (Lib.divideBit w g) s) (X ^ l.length * p + ofBits l * X ^ w) := by
  induction l generalizing s p with
  | nil =>
    rw [List.length_nil, pow_zero, one_mul, ofBits, zero_mul, add_zero]
    exact h
  | cons b l ih =>
    have hrest := ih (h.divideBit hw hg b)
    have hsum : X ^ l.length * (X * p + if b then X ^ w else 0) + ofBits l * X ^ w =
        X ^ (b :: l).length * p + ofBits (b :: l) * X ^ w := by
      rw [ofBits, List.length_cons]
      cases b with
      | false =>
        rw [if_neg Bool.false_ne_true, if_neg Bool.false_ne_true]
        ring
      | true =>
        rw [if_pos rfl, if_pos rfl]
        ring
    rwa [hsum] at hrest

end IsRemainder

theorem degree_ofBits_lt (l : List Bool) : (ofBits l).degree < l.length := by
  induction l with
  | nil =>
    rw [ofBits, degree_zero]
    exact WithBot.bot_lt_coe _
  | cons b l ih =>
    have hlen : (l.length : WithBot ℕ) < ((b :: l).length : WithBot ℕ) := by
      exact_mod_cast Nat.lt_succ_self l.length
    refine (degree_add_le _ _).trans_lt (max_lt ?_ (ih.trans hlen))
    split_ifs
    · rwa [degree_X_pow]
    · rw [degree_zero]
      exact WithBot.bot_lt_coe _

theorem ofBits_eq_zero_iff (l : List Bool) : ofBits l = 0 ↔ true ∉ l := by
  induction l with
  | nil => exact ⟨fun _ => List.not_mem_nil, fun _ => rfl⟩
  | cons b l ih =>
    rw [ofBits]
    cases b with
    | false => simp [ih]
    | true =>
      have hne := (monic_X_pow_add (degree_ofBits_lt l)).ne_zero
      simp [hne]

theorem ofBits_append (l m : List Bool) :
    ofBits (l ++ m) = ofBits l * X ^ m.length + ofBits m := by
  induction l with
  | nil => rw [List.nil_append, ofBits, zero_mul, zero_add]
  | cons b l ih =>
    rw [List.cons_append, ofBits, ofBits, ih, List.length_append]
    split_ifs
    · ring
    · ring

@[simp] theorem length_bitsOf (w s : ℕ) : (bitsOf w s).length = w := by
  induction w with
  | zero => rfl
  | succ w ih => rw [bitsOf, List.length_cons, ih]

theorem ofBits_bitsOf (w s : ℕ) : ofBits (bitsOf w s) = polyOf w s := by
  induction w with
  | zero => rfl
  | succ w ih =>
    rw [bitsOf, ofBits, length_bitsOf, ih, polyOf, polyOf, Finset.sum_range_succ, add_comm]

/-- A divisor of degree `w` with a constant term divides no word whose bits are within `w`
places. -/
theorem not_dvd_ofBits {w g : ℕ} (hw : 0 < w) (hg : g.testBit 0 = true) {l : List Bool} {k : ℕ}
    (hin : ∀ i, l[i]? = some true → k ≤ i ∧ i < k + w) (hmem : true ∈ l) :
    ¬ divisor w g ∣ ofBits l := by
  intro hdvd
  have hsplit : l = l.take k ++ ((l.drop k).take w ++ (l.drop k).drop w) := by
    rw [List.take_append_drop, List.take_append_drop]
  have hbefore : true ∉ l.take k := fun h => by
    obtain ⟨i, hi, heq⟩ := List.mem_iff_getElem.1 h
    rw [List.length_take] at hi
    rw [List.getElem_take] at heq
    have hk := (hin i (heq ▸ List.getElem?_eq_getElem (by omega))).1
    omega
  have hbehind : true ∉ (l.drop k).drop w := fun h => by
    obtain ⟨i, hi, heq⟩ := List.mem_iff_getElem.1 h
    rw [List.length_drop, List.length_drop] at hi
    rw [List.getElem_drop, List.getElem_drop] at heq
    have hk := (hin (k + (w + i)) (heq ▸ List.getElem?_eq_getElem (by omega))).2
    omega
  have hwithin : true ∈ (l.drop k).take w := by
    rw [hsplit, List.mem_append, List.mem_append] at hmem
    exact (hmem.resolve_left hbefore).resolve_right hbehind
  rw [hsplit, ofBits_append, (ofBits_eq_zero_iff _).2 hbefore, zero_mul, zero_add, ofBits_append,
    (ofBits_eq_zero_iff _).2 hbehind, add_zero] at hdvd
  have hword := (isCoprime_divisor hw hg _).dvd_of_dvd_mul_right hdvd
  refine (monic_divisor w g).not_dvd_of_degree_lt ?_ ?_ hword
  · rw [ne_eq, ofBits_eq_zero_iff, not_not]
    exact hwithin
  · rw [degree_divisor]
    refine (degree_ofBits_lt _).trans_le ?_
    exact_mod_cast List.length_take_le w _

end UdtKernel.Lib
