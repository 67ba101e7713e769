import Mathlib.Data.Int.Order.Basic
import Mathlib.Data.Nat.Basic
import UdtKernel.Config.Tree

set_option autoImplicit false

/-! How the numbers of a message become texts, and the texts numbers. -/

namespace UdtKernel.Config

/-- `num_to_str` in the base ten. -/
def numToStr (v : ℤ) : Text :=
  if v < 0 then '-' :: Nat.toDigits 10 v.natAbs else Nat.toDigits 10 v.natAbs

def isSpace (c : Char) : Bool := c = ' ' || 9 ≤ c.toNat && c.toNat ≤ 13

def digitValue (c : Char) : Option ℕ :=
  if c.isDigit then some (c.toNat - 48)
  else if c.isAlpha then some (c.toNat - if c.isUpper then 65 - 10 else 97 - 10)
  else none

/-- The last loop of `str_to_decimal`. -/
def sumDigits (base cutoff cutlim : ℕ) : ℕ → Text → Option ℕ
  | sum, [] => some sum
  | sum, c :: l => match digitValue c with
    | none => none
    | some num =>
      if base ≤ num then none
      else if cutoff < sum ∨ sum = cutoff ∧ cutlim < num then none
      else sumDigits base cutoff cutlim (sum * base + num) l

def basePrefix : Text → Option (ℕ × Text)
  | '0' :: c :: l =>
    if c.isDigit then some (10, '0' :: c :: l)
    else if l = [] then none
    else if c = 'x' ∨ c = 'X' then some (16, l)
    else if c = 'b' ∨ c = 'B' then some (2, l)
    else none
  | l => some (10, l)

/-- `str_to_decimal` of a type of the numbers from `lo` to `hi`. -/
def strToDecimal (lo hi : ℤ) (aVal : Text) : Option ℤ :=
  match aVal.dropWhile isSpace with
  | [] => none
  | c :: l =>
    if c = '-' ∧ 0 ≤ lo then none
    else
      let digits := if c = '-' ∨ c = '+' then l else c :: l
      if digits = [] then none
      else do
        let (base, digits) ← basePrefix digits
        let limit := (if c = '-' then lo else hi).natAbs
        let sum ← sumDigits base (limit / base) (limit % base) 0 digits
        return if c = '-' then -sum else sum

/-- A number is one of an unsigned type of so many bits. -/
def Unsigned (bits n : ℕ) : Prop := n < 2 ^ bits

instance (bits n : ℕ) : Decidable (Unsigned bits n) := inferInstanceAs (Decidable (_ < _))

/-- A number is an `int`. -/
def IsInt (v : ℤ) : Prop := -2 ^ 31 ≤ v ∧ v < 2 ^ 31

def unsignedToStr (n : ℕ) : Text := numToStr n

def strToUnsigned (bits : ℕ) (aVal : Text) : Option ℕ :=
  (strToDecimal 0 (2 ^ bits - 1) aVal).map Int.toNat

def strToInt (aVal : Text) : Option ℤ := strToDecimal (-2 ^ 31) (2 ^ 31 - 1) aVal

def boolToStr (aVal : Bool) : Text := if aVal then "true".toList else "false".toList

def strToBool (aVal : Text) : Option Bool :=
  match aVal.dropWhile isSpace with
  | [] => none
  | c :: l =>
    if c = '1' then some true
    else if c = '0' then some false
    else if ((c :: l).take 4).map Char.toLower = "true".toList then some true
    else if ((c :: l).take 5).map Char.toLower = "false".toList then some false
    else none

theorem digitValue_digitChar {d : ℕ} (h : d < 10) : digitValue d.digitChar = some d := by
  have hall : ∀ d < 10, digitValue (Nat.digitChar d) = some d := by decide
  exact hall d h

/-- The digits of a number within the limit are read back. -/
theorem sumDigits_toDigits {limit n : ℕ} (h : n ≤ limit) (l : Text) :
    sumDigits 10 (limit / 10) (limit % 10) 0 (Nat.toDigits 10 n ++ l) =
      sumDigits 10 (limit / 10) (limit % 10) n l := by
  induction n using Nat.strongRecOn generalizing l with
  | ind n ih =>
    rw [Nat.toDigits_eq_if (by decide)]
    split_ifs with hlt
    · rw [List.singleton_append, sumDigits, digitValue_digitChar hlt]
      have hcut : ¬(limit / 10 < 0 ∨ 0 = limit / 10 ∧ limit % 10 < n) := by omega
      dsimp only
      rw [if_neg (Nat.not_le.2 hlt), if_neg hcut, Nat.zero_mul, Nat.zero_add]
    · have hmod : n % 10 < 10 := Nat.mod_lt n (by decide)
      rw [List.append_assoc, ih (n / 10) (by omega) (by omega), List.singleton_append, sumDigits,
        digitValue_digitChar hmod]
      have hcut : ¬(limit / 10 < n / 10 ∨ n / 10 = limit / 10 ∧ limit % 10 < n % 10) := by omega
      dsimp only
      rw [if_neg (Nat.not_le.2 hmod), if_neg hcut]
      congr 1
      omega

/-- A number begins with a digit, which is a zero for the number zero only. -/
theorem exists_toDigits (n : ℕ) : ∃ c l, Nat.toDigits 10 n = c :: l ∧ c.isDigit = true ∧
    (c = '0' → n = 0) := by
  induction n using Nat.strongRecOn with
  | ind n ih =>
    rw [Nat.toDigits_eq_if (by decide)]
    split_ifs with hlt
    · have hall : ∀ d < 10, (Nat.digitChar d).isDigit = true ∧ (Nat.digitChar d = '0' → d = 0) := by
        decide
      exact ⟨n.digitChar, [], rfl, hall n hlt⟩
    · obtain ⟨c, l, hcl, hc, hzero⟩ := ih (n / 10) (by omega)
      refine ⟨c, l ++ [(n % 10).digitChar], by rw [hcl, List.cons_append], hc, fun h => ?_⟩
      have := hzero h
      omega

theorem isSpace_of_isDigit {c : Char} (h : c.isDigit = true) : isSpace c = false := by
  have hc : 48 ≤ c.toNat := by
    simp only [Char.isDigit, Bool.and_eq_true, decide_eq_true_eq, ge_iff_le,
      UInt32.le_iff_toNat_le] at h
    exact h.1
  have hspace : c ≠ ' ' := by
    rintro rfl
    exact absurd hc (by decide)
  simp only [isSpace, hspace, decide_false, Bool.false_or, Bool.and_eq_false_iff,
    decide_eq_false_iff_not]
  right
  omega

theorem basePrefix_toDigits (n : ℕ) :
    basePrefix (Nat.toDigits 10 n) = some (10, Nat.toDigits 10 n) := by
  obtain ⟨c, l, hcl, -, hzero⟩ := exists_toDigits n
  by_cases hc : c = '0'
  · rw [hzero hc]
    rfl
  · rw [hcl, basePrefix]
    rintro c' l' ⟨rfl, -⟩
    exact hc rfl

/-- A number of the type that is read comes back. -/
theorem strToDecimal_numToStr {lo hi v : ℤ} (hlo : lo ≤ v) (hlo₀ : lo ≤ 0) (hhi : v ≤ hi) :
    strToDecimal lo hi (numToStr v) = some v := by
  obtain ⟨c, l, hcl, hdigit, -⟩ := exists_toDigits v.natAbs
  have hminus : c ≠ '-' := by
    rintro rfl
    exact absurd hdigit (by decide)
  have hplus : c ≠ '+' := by
    rintro rfl
    exact absurd hdigit (by decide)
  have hsum : ∀ limit, v.natAbs ≤ limit →
      sumDigits 10 (limit / 10) (limit % 10) 0 (Nat.toDigits 10 v.natAbs) = some v.natAbs := by
    intro limit hlimit
    rw [← List.append_nil (Nat.toDigits 10 v.natAbs), sumDigits_toDigits hlimit, sumDigits]
  have hfront := basePrefix_toDigits v.natAbs
  unfold numToStr strToDecimal
  split_ifs with hneg
  · have hmin : isSpace '-' = false := by decide
    have hlimit : v.natAbs ≤ lo.natAbs := by omega
    have hsigned : ¬0 ≤ lo := by omega
    rw [List.dropWhile_cons_of_neg (by simp [hmin])]
    simp only [hsigned, and_false, if_false, true_or, if_true]
    rw [if_neg (by rw [hcl]; exact List.cons_ne_nil c l), hfront]
    simp only [bind, Option.bind, hsum lo.natAbs hlimit, pure]
    congr 1
    omega
  · have hlimit : v.natAbs ≤ hi.natAbs := by omega
    rw [hcl, List.dropWhile_cons_of_neg (by simp [isSpace_of_isDigit hdigit])]
    rw [hcl] at hfront hsum
    simp only [hminus, hplus, false_and, if_false, or_self, hfront, bind, Option.bind,
      hsum hi.natAbs hlimit, pure, reduceCtorEq]
    congr 1
    omega

theorem numToStr_ne_nil (v : ℤ) : numToStr v ≠ [] := by
  unfold numToStr
  split_ifs
  · exact List.cons_ne_nil _ _
  · exact Nat.toDigits_ne_nil

@[simp] theorem readValue_unsigned {bits n : ℕ} (out : ℕ) (h : Unsigned bits n) :
    readValue (strToUnsigned bits) out (unsignedToStr n) = n := by
  refine readValue_eq out (numToStr_ne_nil n) ?_
  have hn : n < 2 ^ bits := h
  have hpow : ((2 : ℤ) ^ bits) = ((2 ^ bits : ℕ) : ℤ) := by norm_cast
  rw [strToUnsigned, unsignedToStr, strToDecimal_numToStr (Int.natCast_nonneg n) (Int.le_refl 0)
    (by rw [hpow]; omega)]
  rfl

@[simp] theorem readValue_int {v : ℤ} (out : ℤ) (h : IsInt v) :
    readValue strToInt out (numToStr v) = v :=
  readValue_eq out (numToStr_ne_nil v)
    (strToDecimal_numToStr h.1 (by decide) (Int.le_sub_one_of_lt h.2))

@[simp] theorem readValue_int_unsigned {n : ℕ} (out : ℤ) (h : Unsigned 31 n) :
    readValue strToInt out (unsignedToStr n) = n := by
  have hn : n < 2 ^ 31 := h
  exact readValue_int out ⟨by omega, by omega⟩

@[simp] theorem readValue_bool (out v : Bool) : readValue strToBool out (boolToStr v) = v := by
  cases v <;> exact readValue_eq out (by decide) (by decide)

end UdtKernel.Config
