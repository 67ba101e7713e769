import UdtKernel.Config.Numbers
import Mathlib.Data.List.TakeWhile
import Mathlib.Data.Nat.Digits.Lemmas

set_option autoImplicit false

/-! The numbers of every integer type in every base, as texts. -/

namespace UdtKernel.Config

structure IntType where
  bits : ℕ
  isSigned : Bool
  eight_le : 8 ≤ bits
  le_sixtyFour : bits ≤ 64

namespace IntType

def min (T : IntType) : ℤ := if T.isSigned then -2 ^ (T.bits - 1) else 0

def max (T : IntType) : ℤ := if T.isSigned then 2 ^ (T.bits - 1) - 1 else 2 ^ T.bits - 1

def Has (T : IntType) (v : ℤ) : Prop := T.min ≤ v ∧ v ≤ T.max

instance (T : IntType) (v : ℤ) : Decidable (T.Has v) := inferInstanceAs (Decidable (_ ∧ _))

def strToDecimal (T : IntType) (aVal : Text) : Option ℤ := Config.strToDecimal T.min T.max aVal

end IntType

def divisions (base : ℤ) : ℕ → ℤ → ℕ
  | 0, _ => 0
  | fuel + 1, sum => if sum = 0 then 0 else divisions base fuel (sum.tdiv base) + 1

def digitLoop (toChar : ℤ → Char) (base : ℤ) : ℕ → ℤ → Text
  | 0, _ => []
  | fuel + 1, sum =>
    let rest := sum.tdiv base
    toChar (sum.tmod base) :: if rest = 0 then [] else digitLoop toChar base fuel rest

def upwardChar (digit : ℤ) : Char :=
  if digit < 0xA then Char.ofNat (48 + digit).toNat else Char.ofNat (65 + digit - 0xA).toNat

/-- A digit of a negative number, which is not positive. -/
def downwardChar (digit : ℤ) : Char :=
  if digit < 0xA then Char.ofNat (48 - digit).toNat else Char.ofNat (65 - digit - 0xA).toNat

def basePrefixOf (base : ℤ) : Text :=
  if base = 16 then ['0', 'x'] else if base = 2 then ['0', 'b'] else []

/-- An `unsigned` as a number of the type. -/
def IntType.ofUnsigned (T : IntType) (n : ℕ) : ℤ :=
  if T.isSigned then Int.bmod n (2 ^ T.bits) else n % 2 ^ T.bits

/-- `num_to_str` into an empty text: what goes to its beginning, then what goes to its end. The
    loops take at most as many turns as the type has bits. -/
def IntType.numToStr (T : IntType) (aVal : ℤ) (aBase : ℕ) : Option Text :=
  let base := T.ofUnsigned aBase
  let count := (if aVal ≤ 0 then 1 else 0) + divisions base T.bits aVal
  if base = 16 ∨ base = 2 ∨ base = 10 then
    let count := if base = 16 ∨ base = 2 then count + 2 else count
    let head := (if T.isSigned ∧ aVal < 0 then ['-'] else []) ++ basePrefixOf base
    let digits := digitLoop (if 0 ≤ aVal then upwardChar else downwardChar) base T.bits aVal
    let text := head ++ List.replicate (count - head.length) '\x00'
    some (text.take (count - digits.length) ++ digits.reverse)
  else none

structure AreDigits (base : ℕ) (l : Text) (ds : List ℕ) : Prop where
  values : l.map digitValue = ds.map some
  lt : ∀ d ∈ ds, d < base

def horner (base sum : ℕ) (ds : List ℕ) : ℕ := ds.foldl (fun sum d => sum * base + d) sum

def IsPrefix (base : ℕ) (l : Text) : Prop :=
  base = 10 ∧ l = [] ∨ base = 16 ∧ (l = ['0', 'x'] ∨ l = ['0', 'X']) ∨
    base = 2 ∧ (l = ['0', 'b'] ∨ l = ['0', 'B'])

/-- Optional blanks, an optional sign and the digits of a number of the type, in the base of the
    prefix. -/
def IntType.IsText (T : IntType) (signs : List Text) (text : Text) (v : ℤ) : Prop :=
  ∃ blanks sign base before digits ds, text = blanks ++ (sign ++ (before ++ digits)) ∧
    (∀ c ∈ blanks, isSpace c = true) ∧ sign ∈ signs ∧ IsPrefix base before ∧
    AreDigits base digits ds ∧ digits ≠ [] ∧
    v = (if sign = ['-'] then -(horner base 0 ds : ℤ) else horner base 0 ds) ∧ T.Has v

def allSigns : List Text := [[], ['+'], ['-']]

def IntType.signs (T : IntType) : List Text := if T.isSigned then allSigns else [[], ['+']]

theorem le_horner {base : ℕ} (hb : 0 < base) (sum : ℕ) (ds : List ℕ) :
    sum ≤ horner base sum ds := by
  induction ds generalizing sum with
  | nil => exact Nat.le_refl sum
  | cons d ds ih =>
    calc sum ≤ sum * base := Nat.le_mul_of_pos_right sum hb
      _ ≤ sum * base + d := Nat.le_add_right _ d
      _ ≤ horner base sum (d :: ds) := ih _

/-- The two limits of the loop tell the sums that exceed the limit. -/
theorem cutoff_iff {base limit sum d : ℕ} (hd : d < base) :
    limit / base < sum ∨ sum = limit / base ∧ limit % base < d ↔ limit < sum * base + d := by
  have hb : 0 < base := by omega
  have hlimit := Nat.div_add_mod limit base
  have hmod := Nat.mod_lt limit hb
  rcases Nat.lt_trichotomy sum (limit / base) with hlt | rfl | hlt
  · have hmul : (sum + 1) * base ≤ limit / base * base := Nat.mul_le_mul_right base hlt
    rw [Nat.add_mul, Nat.one_mul, Nat.mul_comm (limit / base)] at hmul
    exact iff_of_false (by omega) (by omega)
  · rw [Nat.mul_comm]
    omega
  · have hmul : (limit / base + 1) * base ≤ sum * base := Nat.mul_le_mul_right base hlt
    rw [Nat.add_mul, Nat.one_mul, Nat.mul_comm (limit / base)] at hmul
    exact iff_of_true (.inl hlt) (by omega)

/-- The loop gives the value of the digits, if it is within the limit. -/
theorem sumDigits_iff {base limit : ℕ} (hb : 0 < base) {sum n : ℕ} (l : Text) (hsum : sum ≤ limit) :
    sumDigits base (limit / base) (limit % base) sum l = some n ↔
      ∃ ds, AreDigits base l ds ∧ n = horner base sum ds ∧ n ≤ limit := by
  induction l generalizing sum with
  | nil =>
    constructor
    · intro h
      cases h
      exact ⟨[], ⟨rfl, fun d hd => absurd hd List.not_mem_nil⟩, rfl, hsum⟩
    · rintro ⟨ds, hds, rfl, -⟩
      have hnil : ds = [] := List.map_eq_nil_iff.1 hds.values.symm
      rw [hnil]
      rfl
  | cons c l ih =>
    rw [sumDigits]
    cases hc : digitValue c with
    | none =>
      refine iff_of_false (fun h => by cases h) ?_
      rintro ⟨ds, hds, -⟩
      cases ds with
      | nil => cases hds.values
      | cons d ds =>
        have hvalues := List.cons.inj hds.values
        rw [hc] at hvalues
        cases hvalues.1
    | some d =>
      have hcons : ∀ {ds : List ℕ}, AreDigits base (c :: l) ds →
          ∃ ds', ds = d :: ds' ∧ AreDigits base l ds' := by
        rintro (_ | ⟨d', ds⟩) hds
        · cases hds.values
        · have hvalues := List.cons.inj hds.values
          rw [hc] at hvalues
          cases hvalues.1
          exact ⟨ds, rfl, hvalues.2, fun e he => hds.lt e (List.mem_cons_of_mem _ he)⟩
      dsimp only
      split_ifs with hlarge hcut
      · refine iff_of_false (fun h => by cases h) ?_
        rintro ⟨ds, hds, -⟩
        obtain ⟨ds', rfl, -⟩ := hcons hds
        have := hds.lt d List.mem_cons_self
        omega
      · refine iff_of_false (fun h => by cases h) ?_
        rintro ⟨ds, hds, rfl, hle⟩
        obtain ⟨ds', rfl, -⟩ := hcons hds
        rw [cutoff_iff (by omega)] at hcut
        have hmono : sum * base + d ≤ horner base sum (d :: ds') := le_horner hb _ ds'
        omega
      · rw [cutoff_iff (by omega)] at hcut
        rw [ih (by omega)]
        constructor
        · rintro ⟨ds, hds, hn, hle⟩
          refine ⟨d :: ds, ⟨?_, fun e he => ?_⟩, hn, hle⟩
          · rw [List.map_cons, hc, hds.values]
            rfl
          · rcases List.mem_cons.1 he with rfl | he
            · omega
            · exact hds.lt e he
        · rintro ⟨ds, hds, hn, hle⟩
          obtain ⟨ds', rfl, hds'⟩ := hcons hds
          exact ⟨ds', hds', hn, hle⟩

theorem isDigit_of_lt_ten {c : Char} {d : ℕ} (h : digitValue c = some d) (hd : d < 10) :
    c.isDigit = true := by
  unfold digitValue at h
  split_ifs at h with hdigit halpha hupper
  · exact hdigit
  · have hc : 65 ≤ c.toNat := (of_decide_eq_true hupper).1
    cases h
    omega
  · have hlower : c.isLower = true := (Bool.or_eq_true_iff.1 halpha).resolve_left hupper
    have hc : 97 ≤ c.toNat := of_decide_eq_true (Bool.and_eq_true_iff.1 hlower).1
    cases h
    omega

/-- A digit is no blank and no sign. -/
theorem digitValue_of_special {c : Char} (h : isSpace c = true ∨ c = '-' ∨ c = '+') :
    digitValue c = none := by
  have hsmall : c.toNat < 48 := by
    rcases h with h | rfl | rfl
    · unfold isSpace at h
      rw [Bool.or_eq_true, decide_eq_true_eq, Bool.and_eq_true, decide_eq_true_eq,
        decide_eq_true_eq] at h
      rcases h with rfl | h
      · decide
      · omega
    · decide
    · decide
  have hval : c.val.toNat < 48 := hsmall
  have hdigit : c.isDigit = false := by
    simp only [Char.isDigit, Bool.and_eq_false_iff, decide_eq_false_iff_not, ge_iff_le,
      UInt32.le_iff_toNat_le]
    exact .inl (Nat.not_le.2 hval)
  have hupper : c.isUpper = false :=
    decide_eq_false fun h => absurd (Nat.lt_of_le_of_lt h.1 hval) (by decide)
  have hlower : c.isLower = false :=
    Bool.and_eq_false_iff.2 (.inl (decide_eq_false (Nat.not_le.2 (Nat.lt_trans hval (by decide)))))
  have halpha : c.isAlpha = false := Bool.or_eq_false_iff.2 ⟨hupper, hlower⟩
  unfold digitValue
  rw [hdigit, halpha]
  rfl

theorem AreDigits.head {base : ℕ} {c : Char} {l : Text} {ds : List ℕ}
    (h : AreDigits base (c :: l) ds) : ∃ d, digitValue c = some d ∧ d < base := by
  cases ds with
  | nil => exact nomatch h.values
  | cons d ds => exact ⟨d, (List.cons.inj h.values).1, h.lt d List.mem_cons_self⟩

/-- What begins a number. -/
theorem IsPrefix.head {base : ℕ} {before digits : Text} {ds : List ℕ}
    (hbefore : IsPrefix base before) (hds : AreDigits base digits ds) (hne : digits ≠ []) :
    ∃ c l d, before ++ digits = c :: l ∧ digitValue c = some d := by
  rcases hbefore with ⟨rfl, rfl⟩ | ⟨rfl, rfl | rfl⟩ | ⟨rfl, rfl | rfl⟩
  · obtain ⟨c, l, rfl⟩ := List.exists_cons_of_ne_nil hne
    obtain ⟨d, hd, -⟩ := hds.head
    exact ⟨c, l, d, rfl, hd⟩
  all_goals exact ⟨'0', _, 0, rfl, rfl⟩

/-- The prefix gives the base, whenever digits of it follow. -/
theorem basePrefix_of_isPrefix {base : ℕ} {before digits : Text} {ds : List ℕ}
    (hbefore : IsPrefix base before) (hds : AreDigits base digits ds) (hne : digits ≠ []) :
    basePrefix (before ++ digits) = some (base, digits) := by
  rcases hbefore with ⟨rfl, rfl⟩ | ⟨rfl, rfl | rfl⟩ | ⟨rfl, rfl | rfl⟩
  · rw [List.nil_append]
    unfold basePrefix
    split
    next c l =>
      obtain ⟨d, hd, hlt⟩ : ∃ d, digitValue c = some d ∧ d < 10 := by
        cases ds with
        | nil => exact nomatch hds.values
        | cons d ds =>
          exact AreDigits.head ⟨(List.cons.inj hds.values).2,
            fun e he => hds.lt e (List.mem_cons_of_mem _ he)⟩
      rw [if_pos (isDigit_of_lt_ten hd hlt)]
    next => rfl
  all_goals
    unfold basePrefix
    simp [hne]

theorem isPrefix_of_basePrefix {base : ℕ} {l digits : Text}
    (h : basePrefix l = some (base, digits)) : ∃ before, IsPrefix base before ∧
      l = before ++ digits ∧ (l ≠ [] → digits ≠ []) := by
  unfold basePrefix at h
  split at h
  next c l =>
    split_ifs at h with hdigit hnil hx hb
    · cases h
      exact ⟨[], .inl ⟨rfl, rfl⟩, rfl, id⟩
    · cases h
      refine ⟨['0', c], .inr (.inl ⟨rfl, ?_⟩), rfl, fun _ => hnil⟩
      rcases hx with rfl | rfl
      · exact .inl rfl
      · exact .inr rfl
    · cases h
      refine ⟨['0', c], .inr (.inr ⟨rfl, ?_⟩), rfl, fun _ => hnil⟩
      rcases hb with rfl | rfl
      · exact .inl rfl
      · exact .inr rfl
  next =>
    cases h
    exact ⟨[], .inl ⟨rfl, rfl⟩, rfl, id⟩

namespace IntType

theorem min_nonneg_iff (T : IntType) : 0 ≤ T.min ↔ T.isSigned = false := by
  unfold min
  cases T.isSigned
  · simp
  · have hpos : (0 : ℤ) < 2 ^ (T.bits - 1) := by positivity
    simp only [if_true]
    exact iff_of_false (by omega) (fun h => nomatch h)

theorem max_nonneg (T : IntType) : 0 ≤ T.max := by
  have hpos : (0 : ℤ) < 2 ^ (T.bits - 1) := by positivity
  have hpos' : (0 : ℤ) < 2 ^ T.bits := by positivity
  unfold max
  split_ifs
  · omega
  · omega

theorem min_nonpos (T : IntType) : T.min ≤ 0 := by
  have hpos : (0 : ℤ) < 2 ^ (T.bits - 1) := by positivity
  unfold min
  split_ifs
  · omega
  · exact Int.le_refl 0

/-- The number of a sum that is read is one of the type if the sum is within the limit. -/
theorem has_iff (T : IntType) (n : ℕ) (neg : Prop) [Decidable neg] :
    T.Has (if neg then -(n : ℤ) else n) ↔ n ≤ (if neg then T.min else T.max).natAbs := by
  have hmin := T.min_nonpos
  have hmax := T.max_nonneg
  unfold Has
  split_ifs
  · omega
  · omega

end IntType

theorem base_pos {base : ℕ} {before : Text} (h : IsPrefix base before) : 0 < base := by
  rcases h with ⟨rfl, -⟩ | ⟨rfl, -⟩ | ⟨rfl, -⟩
  all_goals decide

/-- The part of `str_to_decimal` after the blanks and the sign. -/
def readFrom (limit : ℕ) (l : Text) : Option ℕ :=
  (basePrefix l).bind fun p => sumDigits p.1 (limit / p.1) (limit % p.1) 0 p.2

/-- The number is that of a prefix and of digits. -/
theorem readFrom_iff {limit n : ℕ} {l : Text} (hne : l ≠ []) :
    readFrom limit l = some n ↔ ∃ base before digits ds, l = before ++ digits ∧
      IsPrefix base before ∧ AreDigits base digits ds ∧ digits ≠ [] ∧ n = horner base 0 ds ∧
      n ≤ limit := by
  unfold readFrom
  constructor
  · intro h
    cases hfront : basePrefix l with
    | none => rw [hfront] at h; exact nomatch h
    | some p =>
      obtain ⟨base, digits⟩ := p
      rw [hfront] at h
      obtain ⟨before, hbefore, hl, hdigits⟩ := isPrefix_of_basePrefix hfront
      obtain ⟨ds, hds, hn, hle⟩ :=
        (sumDigits_iff (base_pos hbefore) digits (Nat.zero_le limit)).1 h
      exact ⟨base, before, digits, ds, hl, hbefore, hds, hdigits hne, hn, hle⟩
  · rintro ⟨base, before, digits, ds, rfl, hbefore, hds, hdigits, hn, hle⟩
    rw [basePrefix_of_isPrefix hbefore hds hdigits]
    exact (sumDigits_iff (base_pos hbefore) digits (Nat.zero_le limit)).2 ⟨ds, hds, hn, hle⟩

/-- `str_to_decimal` once the blanks are gone. -/
def readSigned (T : IntType) : Text → Option ℤ
  | [] => none
  | c :: l =>
    if c = '-' ∧ 0 ≤ T.min then none
    else
      let digits := if c = '-' ∨ c = '+' then l else c :: l
      if digits = [] then none
      else (readFrom (if c = '-' then T.min else T.max).natAbs digits).map fun sum : ℕ =>
        (if c = '-' then -(sum : ℤ) else (sum : ℤ) : ℤ)

theorem strToDecimal_eq (T : IntType) (aVal : Text) :
    T.strToDecimal aVal = readSigned T (aVal.dropWhile isSpace) := by
  unfold IntType.strToDecimal strToDecimal readSigned
  cases aVal.dropWhile isSpace with
  | nil => rfl
  | cons c l =>
    dsimp only
    split_ifs
    all_goals first | rfl | skip
    all_goals
      unfold readFrom
      cases basePrefix _ with
      | none => rfl
      | some p =>
        change (sumDigits _ _ _ _ _).bind _ = (sumDigits _ _ _ _ _).map _
        cases sumDigits _ _ _ _ _ <;> rfl

theorem mem_signs {T : IntType} {sign : Text} (h : sign ∈ T.signs) :
    sign = [] ∨ sign = ['+'] ∨ sign = ['-'] ∧ T.isSigned = true := by
  unfold IntType.signs allSigns at h
  cases hs : T.isSigned with
  | false =>
    rw [hs] at h
    simp only [Bool.false_eq_true, if_false, List.mem_cons, List.not_mem_nil, or_false] at h
    exact h.imp_right .inl
  | true =>
    rw [hs] at h
    simp only [if_true, List.mem_cons, List.not_mem_nil, or_false] at h
    exact h.imp_right (Or.imp_right fun hminus => ⟨hminus, rfl⟩)

theorem readSigned_plus (T : IntType) {l : Text} (hne : l ≠ []) :
    readSigned T ('+' :: l) = (readFrom T.max.natAbs l).map fun sum : ℕ => (sum : ℤ) := by
  have hchar : '+' ≠ '-' := by decide
  simp only [readSigned, hchar, false_and, if_false, or_true, if_true, hne]

theorem readSigned_minus {T : IntType} (hT : T.isSigned = true) {l : Text} (hne : l ≠ []) :
    readSigned T ('-' :: l) = (readFrom T.min.natAbs l).map fun sum : ℕ => -(sum : ℤ) := by
  have hmin : ¬0 ≤ T.min := fun h => by
    rw [T.min_nonneg_iff, hT] at h
    exact nomatch h
  simp only [readSigned, hmin, and_false, if_false, true_or, if_true, hne]

theorem readSigned_digit (T : IntType) {c : Char} {l : Text} (hminus : c ≠ '-') (hplus : c ≠ '+') :
    readSigned T (c :: l) = (readFrom T.max.natAbs (c :: l)).map fun sum : ℕ => (sum : ℤ) := by
  simp only [readSigned, hminus, hplus, false_and, if_false, or_self, reduceCtorEq]

/-- The numbers of a sign that the digits after it give. -/
theorem read_iff (T : IntType) {l : Text} (neg : Prop) [Decidable neg] (v : ℤ) (hne : l ≠ []) :
    ((readFrom (if neg then T.min else T.max).natAbs l).map
      fun sum : ℕ => if neg then -(sum : ℤ) else sum) = some v ↔
      ∃ base before digits ds, l = before ++ digits ∧ IsPrefix base before ∧
        AreDigits base digits ds ∧ digits ≠ [] ∧
        v = (if neg then -(horner base 0 ds : ℤ) else horner base 0 ds) ∧ T.Has v := by
  rw [Option.map_eq_some_iff]
  constructor
  · rintro ⟨n, hn, rfl⟩
    obtain ⟨base, before, digits, ds, hl, hbefore, hds, hdigits, rfl, hle⟩ :=
      (readFrom_iff hne).1 hn
    exact ⟨base, before, digits, ds, hl, hbefore, hds, hdigits, rfl, (T.has_iff _ neg).2 hle⟩
  · rintro ⟨base, before, digits, ds, hl, hbefore, hds, hdigits, rfl, hle⟩
    refine ⟨horner base 0 ds, (readFrom_iff hne).2 ?_, rfl⟩
    exact ⟨base, before, digits, ds, hl, hbefore, hds, hdigits, rfl, (T.has_iff _ neg).1 hle⟩

/-- What `str_to_decimal` reads after the blanks is a number with its sign. -/
theorem readSigned_iff (T : IntType) (l : Text) (v : ℤ) :
    readSigned T l = some v ↔ ∃ sign ∈ T.signs, ∃ base before digits ds,
      l = sign ++ (before ++ digits) ∧ IsPrefix base before ∧ AreDigits base digits ds ∧
      digits ≠ [] ∧ v = (if sign = ['-'] then -(horner base 0 ds : ℤ) else horner base 0 ds) ∧
      T.Has v := by
  constructor
  · intro h
    cases l with
    | nil => exact nomatch h
    | cons c l =>
      by_cases hminus : c = '-'
      · subst hminus
        cases hT : T.isSigned with
        | false =>
          rw [readSigned, if_pos ⟨rfl, T.min_nonneg_iff.2 hT⟩] at h
          exact nomatch h
        | true =>
          have hne : l ≠ [] := by
            rintro rfl
            simp [readSigned] at h
          rw [readSigned_minus hT hne] at h
          obtain ⟨base, before, digits, ds, rfl, hrest⟩ := (read_iff T True v hne).1 h
          refine ⟨['-'], ?_, base, before, digits, ds, rfl, hrest⟩
          simp [IntType.signs, allSigns, hT]
      · by_cases hplus : c = '+'
        · subst hplus
          have hne : l ≠ [] := by
            rintro rfl
            simp [readSigned] at h
          rw [readSigned_plus T hne] at h
          obtain ⟨base, before, digits, ds, rfl, hrest⟩ := (read_iff T False v hne).1 h
          refine ⟨['+'], ?_, base, before, digits, ds, rfl, hrest⟩
          unfold IntType.signs allSigns
          split_ifs <;> simp
        · rw [readSigned_digit T hminus hplus] at h
          obtain ⟨base, before, digits, ds, hl, hrest⟩ :=
            (read_iff T False v (List.cons_ne_nil c l)).1 h
          refine ⟨[], ?_, base, before, digits, ds, hl, hrest⟩
          unfold IntType.signs allSigns
          split_ifs <;> simp
  · rintro ⟨sign, hsign, base, before, digits, ds, rfl, hbefore, hds, hdigits, hv, hhas⟩
    obtain ⟨c, l, d, hl, hd⟩ := hbefore.head hds hdigits
    have hne : before ++ digits ≠ [] := by
      rw [hl]
      exact List.cons_ne_nil c l
    rcases mem_signs hsign with rfl | rfl | ⟨rfl, hT⟩
    · have hminus : c ≠ '-' := by
        rintro rfl
        exact nomatch hd
      have hplus : c ≠ '+' := by
        rintro rfl
        exact nomatch hd
      rw [List.nil_append, hl, readSigned_digit T hminus hplus, ← hl]
      exact (read_iff T False v hne).2
        ⟨base, before, digits, ds, rfl, hbefore, hds, hdigits, hv, hhas⟩
    · rw [List.singleton_append, readSigned_plus T hne]
      exact (read_iff T False v hne).2
        ⟨base, before, digits, ds, rfl, hbefore, hds, hdigits, hv, hhas⟩
    · rw [List.singleton_append, readSigned_minus hT hne]
      exact (read_iff T True v hne).2
        ⟨base, before, digits, ds, rfl, hbefore, hds, hdigits, hv, hhas⟩

/-- `str_to_decimal` reads the texts of the numbers, and no others. -/
theorem strToDecimal_iff (T : IntType) (text : Text) (v : ℤ) :
    T.strToDecimal text = some v ↔ T.IsText T.signs text v := by
  rw [strToDecimal_eq, readSigned_iff]
  constructor
  · rintro ⟨sign, hsign, base, before, digits, ds, htext, hrest⟩
    refine ⟨text.takeWhile isSpace, sign, base, before, digits, ds, ?_, ?_, hsign, hrest⟩
    · rw [← htext, List.takeWhile_append_dropWhile]
    · intro c hc
      exact List.mem_takeWhile_imp hc
  · rintro ⟨blanks, sign, base, before, digits, ds, rfl, hblanks, hsign, hbefore, hds, hdigits,
      hrest⟩
    refine ⟨sign, hsign, base, before, digits, ds, ?_, hbefore, hds, hdigits, hrest⟩
    obtain ⟨c, l, hcl, hc⟩ : ∃ c l, sign ++ (before ++ digits) = c :: l ∧ isSpace c = false := by
      obtain ⟨c, l, d, hl, hd⟩ := hbefore.head hds hdigits
      rcases mem_signs hsign with rfl | rfl | ⟨rfl, -⟩
      · refine ⟨c, l, hl, Bool.eq_false_iff.2 fun hspace => ?_⟩
        rw [digitValue_of_special (.inl hspace)] at hd
        exact nomatch hd
      · exact ⟨'+', _, rfl, by decide⟩
      · exact ⟨'-', _, rfl, by decide⟩
    rw [List.dropWhile_append_of_pos hblanks, hcl, List.dropWhile_cons_of_neg (by simp [hc])]

section Printed
variable {σ : ℤ} (hσ : σ = 1 ∨ σ = -1) {b : ℕ} (hb : 1 < b)
include hσ

theorem tdiv_signed (n b : ℕ) : (σ * n).tdiv b = σ * (n / b : ℕ) := by
  rcases hσ with rfl | rfl
  · rw [Int.one_mul, Int.one_mul, Int.ofNat_tdiv]
  · rw [Int.neg_one_mul, Int.neg_one_mul, Int.neg_tdiv, Int.ofNat_tdiv]

theorem tmod_signed (n b : ℕ) : (σ * n).tmod b = σ * (n % b : ℕ) := by
  rcases hσ with rfl | rfl
  · rw [Int.one_mul, Int.one_mul, Int.ofNat_tmod]
  · rw [Int.neg_one_mul, Int.neg_one_mul, Int.neg_tmod, Int.ofNat_tmod]

theorem signed_eq_zero {n : ℕ} : σ * (n : ℤ) = 0 ↔ n = 0 := by
  rcases hσ with rfl | rfl
  · omega
  · omega

include hb

/-- The first loop counts the digits. -/
theorem divisions_eq {fuel n : ℕ} (hn : n < b ^ fuel) :
    divisions b fuel (σ * n) = (Nat.digits b n).length := by
  induction fuel generalizing n with
  | zero =>
    have hzero : n = 0 := Nat.lt_one_iff.1 hn
    rw [hzero, Nat.digits_zero]
    rfl
  | succ fuel ih =>
    rw [divisions]
    by_cases hzero : n = 0
    · rw [if_pos ((signed_eq_zero hσ).2 hzero), hzero, Nat.digits_zero]
      rfl
    · have hlt : n / b < b ^ fuel := Nat.div_lt_of_lt_mul (by rwa [Nat.mul_comm, ← Nat.pow_succ])
      rw [if_neg (fun h => hzero ((signed_eq_zero hσ).1 h)), tdiv_signed hσ, ih hlt,
        Nat.digits_def' hb (Nat.pos_of_ne_zero hzero), List.length_cons]

/-- The loop writes the digits of a number that is not zero. -/
theorem digitLoop_eq (toChar : ℤ → Char) {fuel n : ℕ} (hn : n < b ^ fuel) (hzero : n ≠ 0) :
    digitLoop toChar b fuel (σ * n) = (Nat.digits b n).map fun d : ℕ => toChar (σ * d) := by
  induction fuel generalizing n with
  | zero => exact absurd (Nat.lt_one_iff.1 hn) hzero
  | succ fuel ih =>
    have hlt : n / b < b ^ fuel := Nat.div_lt_of_lt_mul (by rwa [Nat.mul_comm, ← Nat.pow_succ])
    rw [digitLoop, tdiv_signed hσ, tmod_signed hσ, Nat.digits_def' hb (Nat.pos_of_ne_zero hzero),
      List.map_cons]
    congr 1
    by_cases hrest : n / b = 0
    · rw [if_pos ((signed_eq_zero hσ).2 hrest), hrest, Nat.digits_zero]
      rfl
    · rw [if_neg (fun h => hrest ((signed_eq_zero hσ).1 h)), ih hlt hrest]

end Printed

theorem IntType.ofUnsigned_eq (T : IntType) {n : ℕ} (hn : n < 128) : T.ofUnsigned n = n := by
  have hpow : 2 ^ 8 ≤ 2 ^ T.bits := Nat.pow_le_pow_right (by decide) T.eight_le
  unfold ofUnsigned
  split_ifs
  · exact Int.bmod_eq_of_le (by omega) (by omega)
  · have hlt : (n : ℤ) < 2 ^ T.bits := by exact_mod_cast Nat.lt_of_lt_of_le (by omega) hpow
    exact Int.emod_eq_of_lt (Int.natCast_nonneg n) hlt

def writtenDigits (b n : ℕ) : List ℕ := if n = 0 then [0] else (Nat.digits b n).reverse

theorem horner_writtenDigits (b n : ℕ) : horner b 0 (writtenDigits b n) = n := by
  unfold writtenDigits horner
  split_ifs with hzero
  · rw [hzero, List.foldl_cons, Nat.zero_mul]
    rfl
  · rw [List.foldl_reverse]
    calc (Nat.digits b n).foldr (fun d sum => sum * b + d) 0
        = Nat.ofDigits b (Nat.digits b n) := by
          rw [Nat.ofDigits_eq_foldr]
          simp only [Nat.cast_id, Nat.mul_comm, Nat.add_comm]
      _ = n := Nat.ofDigits_digits b n

theorem mem_writtenDigits {b n d : ℕ} (hb : 1 < b) (hd : d ∈ writtenDigits b n) : d < b := by
  unfold writtenDigits at hd
  split_ifs at hd with hzero
  · rw [List.mem_singleton.1 hd]
    omega
  · exact Nat.digits_lt_base hb (List.mem_reverse.1 hd)

theorem natAbs_lt_of_has {T : IntType} {v : ℤ} (hv : T.Has v) : v.natAbs < 2 ^ T.bits := by
  have hpow : (2 : ℤ) ^ T.bits = 2 * 2 ^ (T.bits - 1) := by
    rw [← pow_succ', Nat.sub_add_cancel (Nat.le_trans (by decide) T.eight_le)]
  have hpos : (0 : ℤ) < 2 ^ (T.bits - 1) := by positivity
  have hcast : ((2 ^ T.bits : ℕ) : ℤ) = 2 ^ T.bits := by norm_cast
  have hlt : (v.natAbs : ℤ) < (2 ^ T.bits : ℕ) := by
    rw [hcast, hpow]
    have hmin := hv.1
    have hmax := hv.2
    unfold IntType.min at hmin
    unfold IntType.max at hmax
    split_ifs at hmin hmax
    · omega
    · omega
  exact_mod_cast hlt

def IsBase (b : ℕ) : Prop := b = 16 ∨ b = 2 ∨ b = 10

theorem IsBase.lt {b : ℕ} (hb : IsBase b) : 1 < b ∧ b < 128 := by
  rcases hb with rfl | rfl | rfl
  all_goals decide

/-- A number is its sign and its digits. -/
theorem exists_signed (v : ℤ) : ∃ σ : ℤ, (σ = 1 ∨ σ = -1) ∧ v = σ * v.natAbs ∧
    (0 ≤ v → σ = 1) ∧ (v < 0 → σ = -1) := by
  rcases Int.lt_or_le v 0 with hneg | hpos
  · exact ⟨-1, .inr rfl, by omega, fun h => by omega, fun _ => rfl⟩
  · exact ⟨1, .inl rfl, by omega, fun _ => rfl, fun h => by omega⟩

section Loops
variable {T : IntType} {v : ℤ} {b : ℕ} (hv : T.Has v) (hb : 1 < b)
include hv hb

theorem natAbs_lt_pow : v.natAbs < b ^ T.bits :=
  Nat.lt_of_lt_of_le (natAbs_lt_of_has hv) (Nat.pow_le_pow_left hb T.bits)

/-- The characters that are counted: a sign and the digits. -/
theorem count_eq : (if v ≤ 0 then 1 else 0) + divisions b T.bits v =
    (if v < 0 then 1 else 0) + (writtenDigits b v.natAbs).length := by
  obtain ⟨σ, hσ, hval, -, -⟩ := exists_signed v
  have hdiv : divisions b T.bits v = (Nat.digits b v.natAbs).length := by
    conv_lhs => rw [hval]
    exact divisions_eq hσ hb (natAbs_lt_pow hv hb)
  rw [hdiv]
  unfold writtenDigits
  by_cases hzero : v.natAbs = 0
  · rw [if_pos hzero, hzero, Nat.digits_zero, if_pos (by omega), if_neg (by omega)]
    rfl
  · rw [if_neg hzero, List.length_reverse]
    congr 1
    split_ifs <;> first | rfl | omega

/-- The loop writes the digits, the last one first. -/
theorem digitLoop_written : digitLoop (if 0 ≤ v then upwardChar else downwardChar) b T.bits v =
    ((writtenDigits b v.natAbs).map fun d : ℕ =>
      if v < 0 then downwardChar (-d) else upwardChar d).reverse := by
  obtain ⟨σ, hσ, hval, hpos, hneg⟩ := exists_signed v
  unfold writtenDigits
  by_cases hzero : v.natAbs = 0
  · have hv₀ : v = 0 := Int.natAbs_eq_zero.1 hzero
    obtain ⟨fuel, hfuel⟩ : ∃ fuel, T.bits = fuel + 1 :=
      ⟨T.bits - 1, by have := T.eight_le; omega⟩
    rw [if_pos hzero, hv₀, hfuel, digitLoop, Int.zero_tmod, Int.zero_tdiv]
    rfl
  · have hloop := digitLoop_eq hσ hb (if 0 ≤ v then upwardChar else downwardChar)
      (natAbs_lt_pow hv hb) hzero
    rw [← hval] at hloop
    rw [hloop, if_neg hzero, List.map_reverse, List.reverse_reverse]
    rcases Int.lt_or_le v 0 with hlt | hle
    · simp only [hlt, Int.not_le.2 hlt, if_true, if_false, hneg hlt, Int.neg_one_mul]
    · simp only [hle, Int.not_lt.2 hle, if_true, if_false, hpos hle, Int.one_mul]

end Loops

theorem take_head {head : Text} {count k : ℕ} (h : count = head.length + k) (l : Text) :
    (head ++ l).take (count - k) = head := by
  rw [h, Nat.add_sub_cancel]
  exact List.take_left' rfl

/-- `num_to_str` writes the sign, the prefix and the digits. -/
theorem numToStr_eq {T : IntType} {v : ℤ} {b : ℕ} (hv : T.Has v) (hb : IsBase b) :
    T.numToStr v b = some ((if v < 0 then ['-'] else []) ++ (basePrefixOf b ++
      (writtenDigits b v.natAbs).map fun d : ℕ =>
        if v < 0 then downwardChar (-d) else upwardChar d)) := by
  have hsign : (if T.isSigned = true ∧ v < 0 then ['-'] else []) = if v < 0 then ['-'] else [] := by
    have hmin := T.min_nonneg_iff
    have hle := hv.1
    cases hT : T.isSigned with
    | false =>
      have hpos : ¬v < 0 := by
        have := hmin.2 hT
        omega
      rw [if_neg hpos, if_neg fun h => hpos h.2]
    | true => simp only [true_and]
  have hcount := count_eq hv hb.lt.1
  have hloop := digitLoop_written hv hb.lt.1
  have hbase : (b : ℤ) = 16 ∨ (b : ℤ) = 2 ∨ (b : ℤ) = 10 := by
    rcases hb with rfl | rfl | rfl
    · exact .inl rfl
    · exact .inr (.inl rfl)
    · exact .inr (.inr rfl)
  unfold IntType.numToStr
  rw [T.ofUnsigned_eq hb.lt.2]
  dsimp only
  rw [if_pos hbase, hloop, List.reverse_reverse, hsign, hcount, ← List.append_assoc]
  congr 1
  congr 1
  refine take_head ?_ _
  rw [List.length_append, List.length_reverse, List.length_map]
  rcases hb with rfl | rfl | rfl
  all_goals
    unfold basePrefixOf
    split_ifs <;> simp <;> omega

def HasNegativeLetter (v : ℤ) (b : ℕ) : Prop :=
  b = 16 ∧ v < 0 ∧ ∃ d ∈ Nat.digits 16 v.natAbs, 9 < d

theorem digitValue_upwardChar {d : ℕ} (h : d < 16) : digitValue (upwardChar d) = some d := by
  have hall : ∀ d < 16, digitValue (upwardChar (d : ℕ)) = some d := by decide
  exact hall d h

theorem digitValue_downwardChar {d : ℕ} (h : d < 10) :
    digitValue (downwardChar (-d)) = some d := by
  have hall : ∀ d < 10, digitValue (downwardChar (-(d : ℕ))) = some d := by decide
  exact hall d h

/-- The digits are written as they are read. -/
theorem areDigits_written {v : ℤ} {b : ℕ} (hb : IsBase b) (h : ¬HasNegativeLetter v b) :
    AreDigits b ((writtenDigits b v.natAbs).map fun d : ℕ =>
      if v < 0 then downwardChar (-d) else upwardChar d) (writtenDigits b v.natAbs) := by
  have hlt : ∀ d ∈ writtenDigits b v.natAbs, d < b := fun d hd => mem_writtenDigits hb.lt.1 hd
  refine ⟨?_, hlt⟩
  rw [List.map_map]
  refine List.map_congr_left fun d hd => ?_
  have hsmall : d < b := hlt d hd
  have hle : b ≤ 16 := by
    rcases hb with rfl | rfl | rfl
    all_goals decide
  rw [Function.comp_apply]
  split_ifs with hneg
  · refine digitValue_downwardChar ?_
    by_contra hlarge
    have hsixteen : b = 16 := by
      rcases hb with rfl | rfl | rfl
      · rfl
      all_goals omega
    subst hsixteen
    have hne : v.natAbs ≠ 0 := by omega
    unfold writtenDigits at hd
    rw [if_neg hne] at hd
    exact h ⟨rfl, hneg, d, List.mem_reverse.1 hd, by omega⟩
  · exact digitValue_upwardChar (by omega)

theorem isPrefix_basePrefixOf {b : ℕ} (hb : IsBase b) : IsPrefix b (basePrefixOf b) := by
  rcases hb with rfl | rfl | rfl
  · exact .inr (.inl ⟨rfl, .inl rfl⟩)
  · exact .inr (.inr ⟨rfl, .inl rfl⟩)
  · exact .inl ⟨rfl, rfl⟩

/-- A number that is written is the text of the number. -/
theorem isText_written {T : IntType} {v : ℤ} {b : ℕ} (hv : T.Has v) (hb : IsBase b)
    (h : ¬HasNegativeLetter v b) : T.IsText T.signs ((if v < 0 then ['-'] else []) ++
      (basePrefixOf b ++ (writtenDigits b v.natAbs).map fun d : ℕ =>
        if v < 0 then downwardChar (-d) else upwardChar d)) v := by
  have hsigned : v < 0 → T.isSigned = true := fun hneg => by
    have hmin := T.min_nonneg_iff
    have hle := hv.1
    cases hT : T.isSigned with
    | false =>
      have := hmin.2 hT
      omega
    | true => rfl
  have hne : writtenDigits b v.natAbs ≠ [] := by
    unfold writtenDigits
    split_ifs with hzero
    · exact List.cons_ne_nil 0 []
    · exact fun hnil => hzero (Nat.digits_eq_nil_iff_eq_zero.1 (List.reverse_eq_nil_iff.1 hnil))
  refine ⟨[], if v < 0 then ['-'] else [], b, basePrefixOf b, _, writtenDigits b v.natAbs, rfl,
    fun c hc => absurd hc List.not_mem_nil, ?_, isPrefix_basePrefixOf hb, areDigits_written hb h,
    fun hnil => hne (List.map_eq_nil_iff.1 hnil), ?_, hv⟩
  · unfold IntType.signs allSigns
    split_ifs with hT hneg hneg
    · simp
    · simp
    · exact absurd (hsigned hneg) hT
    · simp
  · rw [horner_writtenDigits]
    rcases Int.lt_or_le v 0 with hneg | hpos
    · rw [if_pos hneg, if_pos rfl]
      omega
    · rw [if_neg (Int.not_lt.2 hpos), if_neg (List.cons_ne_nil _ _).symm]
      omega

/-- A number that is written is read back, unless it has a letter and is negative, and nothing but
    the numbers of the type is read. -/
theorem numbers_survive (T : IntType) :
    (∀ (v : ℤ) (b : ℕ), T.Has v → IsBase b → ¬HasNegativeLetter v b →
      ∃ text, T.numToStr v b = some text ∧ T.strToDecimal text = some v) ∧
    ∀ (text : Text) (v : ℤ), T.strToDecimal text = some v ↔ T.IsText T.signs text v :=
  ⟨fun _ _ hv hb h =>
    ⟨_, numToStr_eq hv hb, (strToDecimal_iff T _ _).2 (isText_written hv hb h)⟩,
    strToDecimal_iff T⟩

/-- The least number of sixty-four bits in the base ten. -/
theorem numbers_survive_min : ∃ text,
    (IntType.mk 64 true (by decide) (by decide)).numToStr (-2 ^ 63) 10 = some text ∧
      (IntType.mk 64 true (by decide) (by decide)).strToDecimal text = some (-2 ^ 63) :=
  (numbers_survive _).1 (-2 ^ 63) 10 (by decide) (.inr (.inr rfl)) fun h => absurd h.1 (by decide)

/-- A minus before a zero is refused for the unsigned types. -/
theorem unsigned_refuses_minus :
    (IntType.mk 8 false (by decide) (by decide)).IsText allSigns "-0".toList 0 ∧
      (IntType.mk 8 false (by decide) (by decide)).strToDecimal "-0".toList = none := by
  refine ⟨⟨[], ['-'], 10, [], ['0'], [0], rfl, fun c hc => absurd hc List.not_mem_nil, ?_,
    .inl ⟨rfl, rfl⟩, ⟨rfl, ?_⟩, List.cons_ne_nil _ _, rfl, by decide⟩, by decide⟩
  · simp [allSigns]
  · intro d hd
    rw [List.mem_singleton.1 hd]
    decide

end UdtKernel.Config
