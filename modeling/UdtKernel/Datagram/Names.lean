import UdtKernel.Datagram.Head
import Mathlib.Data.List.TakeWhile

set_option autoImplicit false

/-! When a text is read back from its codes, cut to bytes. -/

namespace UdtKernel

def codesOf (text : Text) : List ℕ := text.map Char.toNat

/-- Every code is a byte and no `\0`, each but the last takes a byte where the text is read, and
    where the last one ends there is a `\0`. -/
def Readable (tail : List Byte) : Text → Prop
  | [] => True
  | [c] => (0 < c.toNat ∧ c.toNat < 256) ∧ tail[seqLen (codeByte c) - 1]? = some 0
  | c :: d :: text =>
    (0 < c.toNat ∧ c.toNat < 256) ∧ seqLen (codeByte c) = 1 ∧ Readable tail (d :: text)

instance decidableReadable (tail : List Byte) : (text : Text) → Decidable (Readable tail text)
  | [] => isTrue trivial
  | [c] => inferInstanceAs
      (Decidable ((0 < c.toNat ∧ c.toNat < 256) ∧ tail[seqLen (codeByte c) - 1]? = some 0))
  | c :: d :: text =>
    have := decidableReadable tail (d :: text)
    inferInstanceAs (Decidable ((0 < c.toNat ∧ c.toNat < 256) ∧ seqLen (codeByte c) = 1 ∧
      Readable tail (d :: text)))

theorem seqLen_pos (b : Byte) : 0 < seqLen b := by
  unfold seqLen
  split_ifs <;> decide

theorem codeByte_val {c : Char} (h : c.toNat < 256) : (codeByte c).val = c.toNat :=
  Nat.mod_eq_of_lt h

theorem codeByte_ne_zero {c : Char} (h : 0 < c.toNat ∧ c.toNat < 256) : codeByte c ≠ 0 := by
  intro hzero
  have hval := codeByte_val h.2
  rw [hzero] at hval
  exact Nat.ne_of_lt h.1 hval

theorem length_toUcs4_le (n : ℕ) (l : List Byte) : (toUcs4 n l).length ≤ l.length := by
  induction n generalizing l with
  | zero => exact Nat.zero_le _
  | succ n ih =>
    cases l with
    | nil => exact Nat.le_refl _
    | cons b l =>
      have hpos := seqLen_pos b
      have hrest := ih ((b :: l).drop (seqLen b))
      rw [toUcs4, List.length_cons]
      rw [List.length_drop, List.length_cons] at hrest
      rw [List.length_cons]
      omega

theorem lengthOf_null (max : ℕ) (l : List Byte) : lengthOf max (0 :: l) = .ok 0 := by
  cases max <;> rfl

theorem lengthOf_succ (max : ℕ) {b : Byte} (hb : b ≠ 0) (l : List Byte) :
    lengthOf (max + 1) (b :: l) = (do return (← lengthOf max ((b :: l).drop (seqLen b))) + 1) := by
  rw [lengthOf, if_neg hb]

theorem lengthOf_readable {tail : List Byte} (htail : tail.head? = some 0) {text : Text}
    (h : Readable tail text) {max : ℕ} (hmax : text.length ≤ max) :
    lengthOf max (text.map codeByte ++ tail) = .ok text.length := by
  induction text generalizing max with
  | nil =>
    cases tail with
    | nil => cases htail
    | cons b tail =>
      cases htail
      exact lengthOf_null max tail
  | cons c text ih =>
    obtain ⟨max, rfl⟩ := Nat.exists_eq_succ_of_ne_zero (Nat.ne_of_gt (Nat.lt_of_lt_of_le
      (Nat.zero_lt_succ _) hmax))
    have hrest : lengthOf max (((c :: text).map codeByte ++ tail).drop (seqLen (codeByte c))) =
        .ok text.length := by
      cases text with
      | nil =>
        obtain ⟨s, hs⟩ := Nat.exists_eq_succ_of_ne_zero (Nat.ne_of_gt (seqLen_pos (codeByte c)))
        have hzero := h.2
        rw [hs, Nat.succ_sub_one] at hzero
        obtain ⟨hlt, hget⟩ := List.getElem?_eq_some_iff.1 hzero
        rw [List.map_cons, List.cons_append, hs, List.drop_succ_cons]
        rw [List.map_nil, List.nil_append, List.drop_eq_getElem_cons hlt, hget, lengthOf_null]
        rfl
      | cons d text =>
        rw [h.2.1, List.map_cons, List.cons_append, List.drop_one, List.tail_cons]
        exact ih h.2.2 (Nat.le_of_succ_le_succ hmax)
    have hne : codeByte c ≠ 0 := by
      cases text with
      | nil => exact codeByte_ne_zero h.1
      | cons d text => exact codeByte_ne_zero h.1
    rw [List.map_cons, List.cons_append] at hrest ⊢
    rw [lengthOf_succ max hne, hrest]
    rfl

theorem toUcs4_readable {tail : List Byte} {text : Text} (h : Readable tail text) :
    toUcs4 text.length (text.map codeByte) = codesOf text := by
  induction text with
  | nil => rfl
  | cons c text ih =>
    cases text with
    | nil =>
      obtain ⟨s, hs⟩ := Nat.exists_eq_succ_of_ne_zero (Nat.ne_of_gt (seqLen_pos (codeByte c)))
      rw [List.map_cons, List.map_nil, List.length_singleton, toUcs4, hs, List.take_succ_cons,
        List.take_nil]
      exact congrArg (· :: []) (codeByte_val h.1.2)
    | cons d text =>
      have hrest := ih h.2.2
      rw [List.map_cons, List.length_cons, toUcs4, h.2.1, List.take_succ_cons, List.take_zero,
        List.drop_one, List.tail_cons, hrest]
      exact congrArg (· :: _) (codeByte_val h.1.2)

theorem ne_zero_of_readable {tail : List Byte} {text : Text} (h : Readable tail text) :
    ∀ b ∈ text.map codeByte, b ≠ 0 := by
  induction text with
  | nil =>
    intro b hb
    cases hb
  | cons c text ih =>
    intro b hb
    rw [List.map_cons] at hb
    cases text with
    | nil =>
      rw [List.mem_singleton.1 hb]
      exact codeByte_ne_zero h.1
    | cons d text =>
      rcases List.mem_cons.1 hb with rfl | hb
      · exact codeByte_ne_zero h.1
      · exact ih h.2.2 b hb

theorem untilNull_append {l tail : List Byte} (hl : ∀ b ∈ l, b ≠ 0) (htail : tail.head? = some 0) :
    untilNull (l ++ tail) = l := by
  unfold untilNull
  cases tail with
  | nil => cases htail
  | cons b tail =>
    cases htail
    rw [List.takeWhile_append_of_pos fun b hb => decide_eq_true (hl b hb),
      List.takeWhile_cons_of_neg (by decide), List.append_nil]

/-- A text that can be read is read. -/
theorem assignText_readable {tail : List Byte} (htail : tail.head? = some 0) {text : Text}
    (h : Readable tail text) :
    assignText (text.map codeByte ++ tail) text.length = .ok (codesOf text) := by
  unfold assignText
  by_cases hempty : text.length = 0
  · rw [if_pos hempty, List.eq_nil_of_length_eq_zero hempty]
    rfl
  · have hlen : (text.map codeByte).length = text.length := List.length_map _
    have huntil := untilNull_append (ne_zero_of_readable h) htail
    have hnull : (text.map codeByte ++ tail).length ≠ (text.map codeByte).length := by
      cases tail with
      | nil => cases htail
      | cons b tail =>
        rw [List.length_append, List.length_cons]
        omega
    have hcodes : (codesOf text).length = text.length := List.length_map _
    rw [if_neg hempty, lengthOf_readable htail h (Nat.le_refl _)]
    simp only [bind, Except.bind]
    rw [if_neg (Nat.lt_irrefl _), huntil, if_neg hnull, hlen, toUcs4_readable h,
      if_neg (by rw [hcodes]; exact Nat.lt_irrefl _), List.take_of_length_le (Nat.le_of_eq hcodes)]

theorem lengthOf_eq_zero {max : ℕ} {l : List Byte} (hmax : 0 < max) (h : lengthOf max l = .ok 0) :
    l.head? = some 0 := by
  obtain ⟨max, rfl⟩ := Nat.exists_eq_succ_of_ne_zero (Nat.ne_of_gt hmax)
  cases l with
  | nil => cases h
  | cons b l =>
    by_cases hb : b = 0
    · rw [hb]
      rfl
    · rw [lengthOf_succ max hb] at h
      cases hrest : lengthOf max ((b :: l).drop (seqLen b)) with
      | error e =>
        rw [hrest] at h
        cases h
      | ok n =>
        rw [hrest] at h
        cases h

theorem lengthOf_succ_eq {max n : ℕ} {b : Byte} (hb : b ≠ 0) {l : List Byte}
    (h : lengthOf (max + 1) (b :: l) = .ok (n + 1)) :
    lengthOf max ((b :: l).drop (seqLen b)) = .ok n := by
  rw [lengthOf_succ max hb] at h
  cases hrest : lengthOf max ((b :: l).drop (seqLen b)) with
  | error e =>
    rw [hrest] at h
    cases h
  | ok m =>
    rw [hrest] at h
    cases h
    rfl

theorem drop_seqLen (b : Byte) (l : List Byte) :
    (b :: l).drop (seqLen b) = l.drop (seqLen b - 1) := by
  obtain ⟨s, hs⟩ := Nat.exists_eq_succ_of_ne_zero (Nat.ne_of_gt (seqLen_pos b))
  rw [hs, List.drop_succ_cons, Nat.succ_sub_one]

/-- As many codes as bytes leave each code a byte. -/
theorem readable_of_codes {tail : List Byte} {text : Text}
    (hcodes : toUcs4 text.length (text.map codeByte) = codesOf text)
    (hne : ∀ b ∈ text.map codeByte, b ≠ 0) {max : ℕ} (hmax : text.length < max)
    (hlen : lengthOf max (text.map codeByte ++ tail) = .ok text.length) : Readable tail text := by
  induction text generalizing max with
  | nil => trivial
  | cons c text ih =>
    obtain ⟨max, rfl⟩ := Nat.exists_eq_succ_of_ne_zero (Nat.ne_of_gt (Nat.lt_of_le_of_lt
      (Nat.zero_le _) hmax))
    have hpos := seqLen_pos (codeByte c)
    have hb : codeByte c ≠ 0 := hne _ List.mem_cons_self
    obtain ⟨hc, hrest⟩ := List.cons.inj hcodes
    have hlen' := lengthOf_succ_eq hb hlen
    have hone : text = [] ∨ seqLen (codeByte c) = 1 := by
      have hle := length_toUcs4_le text.length
        ((codeByte c :: text.map codeByte).drop (seqLen (codeByte c)))
      rw [hrest, List.length_map, List.length_drop, List.length_cons, List.length_map] at hle
      by_cases hempty : text = []
      · exact .inl hempty
      · have := List.length_pos_iff.2 hempty
        right
        omega
    have hval : (codeByte c).val = c.toNat := by
      have hcode : nextCode ((codeByte c :: text.map codeByte).take (seqLen (codeByte c))) =
          (codeByte c).val := by
        obtain ⟨s, hs⟩ := Nat.exists_eq_succ_of_ne_zero (Nat.ne_of_gt hpos)
        rcases hone with rfl | hone
        · rw [hs, List.map_nil, List.take_succ_cons, List.take_nil]
          rfl
        · rw [hone, List.take_succ_cons, List.take_zero]
          rfl
      exact hcode.symm.trans hc
    have hrange : 0 < c.toNat ∧ c.toNat < 256 := by
      rw [← hval]
      exact ⟨Nat.pos_of_ne_zero fun hzero => hb (Fin.ext hzero), (codeByte c).isLt⟩
    cases text with
    | nil =>
      refine ⟨hrange, ?_⟩
      have hdrop : (codeByte c :: tail).drop (seqLen (codeByte c)) =
        tail.drop (seqLen (codeByte c) - 1) := drop_seqLen _ _
      rw [← List.head?_drop, ← hdrop]
      exact lengthOf_eq_zero (Nat.lt_of_succ_lt_succ hmax) hlen'
    | cons d text =>
      have hs : seqLen (codeByte c) = 1 := hone.resolve_left (List.cons_ne_nil d text)
      refine ⟨hrange, hs, ih ?_ (fun b hb => hne b (List.mem_cons_of_mem _ hb))
        (Nat.lt_of_succ_lt_succ hmax) ?_⟩
      · rw [hs] at hrest
        exact hrest
      · rw [hs] at hlen'
        exact hlen'

theorem length_untilNull_append_le (l : List Byte) {tail : List Byte}
    (htail : tail.head? = some 0) : (untilNull (l ++ tail)).length ≤ l.length := by
  unfold untilNull
  induction l with
  | nil =>
    cases tail with
    | nil => cases htail
    | cons b tail =>
      cases htail
      exact Nat.le_refl _
  | cons b l ih =>
    rw [List.cons_append, List.takeWhile_cons]
    split_ifs
    · exact Nat.succ_le_succ ih
    · exact Nat.zero_le _

theorem assignText_eq_ok {l : List Byte} {num : ℕ} {codes : List ℕ}
    (h : assignText l num = .ok codes) :
    codes.length = num ∧
      (num = 0 ∨ codes = (toUcs4 (untilNull l).length (untilNull l)).take num) := by
  unfold assignText at h
  by_cases hnum : num = 0
  · rw [if_pos hnum] at h
    cases h
    exact ⟨hnum.symm, .inl hnum⟩
  · rw [if_neg hnum] at h
    cases hlen : lengthOf num l with
    | error e =>
      rw [hlen] at h
      cases h
    | ok n =>
      rw [hlen] at h
      simp only [bind, Except.bind] at h
      split_ifs at h with hshort hnull hcodes
      cases h
      refine ⟨?_, .inr rfl⟩
      rw [List.length_take, Nat.min_eq_left (Nat.not_lt.1 hcodes)]

/-- A text is read back just when it is readable. -/
theorem textOf_eq_ok_iff {tail : List Byte} (htail : tail.head? = some 0) {text : Text} :
    textOf (text.map codeByte ++ tail) = .ok (codesOf text) ↔ Readable tail text := by
  have hlong : text.length < (text.map codeByte ++ tail).length := by
    cases tail with
    | nil => cases htail
    | cons b tail =>
      rw [List.length_append, List.length_map, List.length_cons]
      omega
  unfold textOf
  constructor
  · intro h
    cases hlen : lengthOf (text.map codeByte ++ tail).length (text.map codeByte ++ tail) with
    | error e =>
      rw [hlen] at h
      cases h
    | ok num =>
      rw [hlen] at h
      obtain ⟨hnum, hcodes⟩ := assignText_eq_ok h
      have hlength : (codesOf text).length = text.length := List.length_map _
      rw [hlength] at hnum
      subst hnum
      rcases hcodes with hzero | hcodes
      · rw [List.eq_nil_of_length_eq_zero hzero]
        trivial
      · have hle := length_untilNull_append_le (text.map codeByte) htail
        have hcount := length_toUcs4_le (untilNull (text.map codeByte ++ tail)).length
          (untilNull (text.map codeByte ++ tail))
        have htake := congrArg List.length hcodes
        rw [hlength, List.length_take] at htake
        rw [List.length_map] at hle
        have huntil : untilNull (text.map codeByte ++ tail) = text.map codeByte := by
          have hfront : untilNull (text.map codeByte ++ tail) <+: text.map codeByte ++ tail :=
            List.takeWhile_prefix _
          refine (List.prefix_of_prefix_length_le hfront
            (List.prefix_append _ _) ?_).eq_of_length ?_
          · rw [List.length_map]
            exact hle
          · rw [List.length_map]
            omega
        rw [huntil] at hcodes hcount
        rw [List.length_map] at hcodes hcount
        rw [List.take_of_length_le hcount] at hcodes
        refine readable_of_codes hcodes.symm (fun b hb => ?_) hlong hlen
        rw [← huntil] at hb
        have hne := List.mem_takeWhile_imp (p := fun b => decide (b ≠ 0)) hb
        exact of_decide_eq_true hne
  · intro h
    rw [lengthOf_readable htail h (Nat.le_of_lt hlong)]
    exact assignText_readable htail h

end UdtKernel
