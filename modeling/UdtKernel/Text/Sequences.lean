import UdtKernel.Lib.Delimited
import UdtKernel.Text.Utf8

set_option autoImplicit false

/-! The sequences of bytes that UTF-8 is made of, and those that `CCodeUTF8` tells from them. -/

namespace UdtKernel.CText

open Lib

/-- A byte that does not begin a character. -/
def IsTrail (b : Byte) : Prop := 0x80 ≤ b.val ∧ b.val < 0xc0

instance (b : Byte) : Decidable (IsTrail b) := inferInstanceAs (Decidable (_ ∧ _))

/-- The well-formed sequences of UTF-8: after some first bytes the second one is bounded, so that
    no sequence is longer than it need be and none is for a surrogate or a code above the last. -/
def IsSequence : List Byte → Prop
  | [b] => b.val < 0x80
  | [b, c] => 0xc2 ≤ b.val ∧ b.val < 0xe0 ∧ IsTrail c
  | [b, c, d] => 0xe0 ≤ b.val ∧ b.val < 0xf0 ∧ IsTrail c ∧ IsTrail d ∧
      (b.val = 0xe0 → 0xa0 ≤ c.val) ∧ (b.val = 0xed → c.val < 0xa0)
  | [b, c, d, e] => 0xf0 ≤ b.val ∧ b.val < 0xf5 ∧ IsTrail c ∧ IsTrail d ∧ IsTrail e ∧
      (b.val = 0xf0 → 0x90 ≤ c.val) ∧ (b.val = 0xf4 → c.val < 0x90)
  | _ => False

def WellFormed (l : List Byte) : Prop :=
  ∃ ss : List (List Byte), (∀ s ∈ ss, IsSequence s) ∧ ss.flatten = l

/-- The sequences whose bits make a surrogate, in three bytes or in four, or a code above the last,
    whatever else is wrong with the bytes after the first. -/
def IsBarred : List Byte → Prop
  | [b, c, _] => b.val = 0xed ∧ 0x20 ≤ c.val % 0x40
  | [b, c, d, _] => b.val = 0xf0 ∧ c.val % 0x40 = 0x0d ∧ 0x20 ≤ d.val % 0x40 ∨
      b.val = 0xf4 ∧ 0x10 ≤ c.val % 0x40 ∨ 0xf5 ≤ b.val
  | _ => False

theorem seqLen_cases (b : Byte) :
    ((b.val < 0xc0 ∨ 0xf8 ≤ b.val) ∧ seqLen b = 1) ∨
    (0xc0 ≤ b.val ∧ b.val < 0xe0 ∧ seqLen b = 2) ∨
    (0xe0 ≤ b.val ∧ b.val < 0xf0 ∧ seqLen b = 3) ∨
    (0xf0 ≤ b.val ∧ b.val < 0xf8 ∧ seqLen b = 4) := by
  have hlt := b.isLt
  have hfive : b.val >>> 5 = b.val / 32 := Nat.shiftRight_eq_div_pow b.val 5
  have hfour : b.val >>> 4 = b.val / 16 := Nat.shiftRight_eq_div_pow b.val 4
  have hthree : b.val >>> 3 = b.val / 8 := Nat.shiftRight_eq_div_pow b.val 3
  rw [seqLen, hfive, hfour, hthree]
  split_ifs <;> omega

section Bits
variable (b c d e : Byte)

theorem nextCode_two : nextCode [b, c] = b.val % 32 * 64 + c.val % 64 := by
  rw [nextCode, shift_mask _ 6 11 (rfl : 0x7ff = _), low_mask]
  omega

theorem nextCode_three :
    nextCode [b, c, d] = b.val % 16 * 4096 + c.val % 64 * 64 + d.val % 64 := by
  rw [nextCode, shift_mask _ 12 16 (rfl : 0xffff = _), shift_mask _ 6 12 (rfl : 0xfff = _),
    low_mask]
  omega

theorem nextCode_four :
    nextCode [b, c, d, e] =
      b.val % 8 * 262144 + c.val % 64 * 4096 + d.val % 64 * 64 + e.val % 64 := by
  rw [nextCode, shift_mask _ 18 21 (rfl : 0x1fffff = _),
    shift_mask _ 12 18 (rfl : 0x3ffff = _), shift_mask _ 6 12 (rfl : 0xfff = _), low_mask]
  omega

end Bits

variable {s l : List Byte}

/-- The forms of a sequence that is as long as its first byte tells. -/
theorem delimited_cases (hs : Delimited seqLen s) :
    (∃ b, s = [b] ∧ seqLen b = 1 ∧ (b.val < 0xc0 ∨ 0xf8 ≤ b.val)) ∨
    (∃ b c, s = [b, c] ∧ seqLen b = 2 ∧ 0xc0 ≤ b.val ∧ b.val < 0xe0) ∨
    (∃ b c d, s = [b, c, d] ∧ seqLen b = 3 ∧ 0xe0 ≤ b.val ∧ b.val < 0xf0) ∨
    (∃ b c d e, s = [b, c, d, e] ∧ seqLen b = 4 ∧ 0xf0 ≤ b.val ∧ b.val < 0xf8) := by
  obtain ⟨b, t, rfl, hlen⟩ := hs
  obtain ⟨hb, h⟩ | ⟨hlow, hhigh, h⟩ | ⟨hlow, hhigh, h⟩ | ⟨hlow, hhigh, h⟩ := seqLen_cases b
  · obtain rfl : t = [] := List.eq_nil_of_length_eq_zero (by omega)
    exact .inl ⟨b, rfl, h, hb⟩
  · obtain ⟨c, rfl⟩ := List.length_eq_one_iff.1 (show t.length = 1 by omega)
    exact .inr (.inl ⟨b, c, rfl, h, hlow, hhigh⟩)
  · obtain ⟨c, d, rfl⟩ := List.length_eq_two.1 (show t.length = 2 by omega)
    exact .inr (.inr (.inl ⟨b, c, d, rfl, h, hlow, hhigh⟩))
  · obtain ⟨c, d, e, rfl⟩ := List.length_eq_three.1 (show t.length = 3 by omega)
    exact .inr (.inr (.inr ⟨b, c, d, e, rfl, h, hlow, hhigh⟩))

theorem isCodeValid_iff {code : ℕ} :
    isCodeValid code = true ↔ code ≤ 0x10ffff ∧ (code < 0xd800 ∨ 0xdfff < code) := by
  simp only [isCodeValid, Bool.and_eq_true, decide_eq_true_eq, Bool.not_eq_true',
    Bool.and_eq_false_iff, decide_eq_false_iff_not]
  omega

/-- Only a surrogate and a code above the last are told from a character. -/
theorem isBarred_iff (hs : Delimited seqLen s) :
    isCodeValid (nextCode s) = false ↔ IsBarred s := by
  rw [← Bool.not_eq_true, isCodeValid_iff]
  obtain ⟨b, rfl, -, -⟩ | ⟨b, c, rfl, -, -, -⟩ | ⟨b, c, d, rfl, -, hlow, hhigh⟩ |
    ⟨b, c, d, e, rfl, -, hlow, hhigh⟩ := delimited_cases hs
  · have hlt := b.isLt
    have hcode : nextCode [b] = b.val := rfl
    exact iff_of_false (by omega) id
  · have hcode := nextCode_two b c
    exact iff_of_false (by omega) id
  · rw [nextCode_three, IsBarred]
    omega
  · rw [nextCode_four, IsBarred]
    omega

theorem byte_eq {v : ℕ} {b : Byte} (h : v = b.val) : Fin.ofNat 256 v = b := by
  rw [h]
  exact Fin.ofNat_val_eq_self b

/-- The well-formed sequences are what `sMAppend` writes for the valid codes. -/
theorem isSequence_iff :
    IsSequence s ↔ ∃ code, isCodeValid code = true ∧ appendCode code = s := by
  constructor
  · intro h
    refine ⟨nextCode s, ?_⟩
    rw [isCodeValid_iff]
    unfold IsSequence at h
    split at h
    next b =>
      have hcode : nextCode [b] = b.val := rfl
      have heq : appendCode b.val = [Fin.ofNat 256 b.val] := if_pos h
      rw [hcode, heq, byte_eq rfl]
      exact ⟨by omega, rfl⟩
    next b c =>
      unfold IsTrail at h
      have hcode := nextCode_two b c
      obtain ⟨h', -⟩ | ⟨-, -, heq⟩ | ⟨h', -⟩ | ⟨h', -⟩ :=
        appendCode_cases (show nextCode [b, c] < 0x200000 by omega)
      · omega
      · rw [heq, byte_eq (b := b) (by omega), byte_eq (b := c) (by omega)]
        exact ⟨by omega, rfl⟩
      · omega
      · omega
    next b c d =>
      unfold IsTrail at h
      have hcode := nextCode_three b c d
      obtain ⟨h', -⟩ | ⟨-, h', -⟩ | ⟨-, -, heq⟩ | ⟨h', -⟩ :=
        appendCode_cases (show nextCode [b, c, d] < 0x200000 by omega)
      · omega
      · omega
      · rw [heq, byte_eq (b := b) (by omega), byte_eq (b := c) (by omega),
          byte_eq (b := d) (by omega)]
        exact ⟨by omega, rfl⟩
      · omega
    next b c d e =>
      unfold IsTrail at h
      have hcode := nextCode_four b c d e
      obtain ⟨h', -⟩ | ⟨-, h', -⟩ | ⟨-, h', -⟩ | ⟨-, heq⟩ :=
        appendCode_cases (show nextCode [b, c, d, e] < 0x200000 by omega)
      · omega
      · omega
      · omega
      · rw [heq, byte_eq (b := b) (by omega), byte_eq (b := c) (by omega),
          byte_eq (b := d) (by omega), byte_eq (b := e) (by omega)]
        exact ⟨by omega, rfl⟩
    next => exact h.elim
  · rintro ⟨code, hcode, rfl⟩
    rw [isCodeValid_iff] at hcode
    obtain ⟨h, heq⟩ | ⟨hlow, h, heq⟩ | ⟨hlow, h, heq⟩ | ⟨hlow, heq⟩ :=
      appendCode_cases (show code < 0x200000 by omega)
    · rw [heq, IsSequence, byte_val (by omega)]
      exact h
    · rw [heq, IsSequence, IsTrail, byte_val (by omega), byte_val (by omega)]
      omega
    · rw [heq, IsSequence, IsTrail, IsTrail, byte_val (by omega), byte_val (by omega),
        byte_val (by omega)]
      omega
    · rw [heq, IsSequence, IsTrail, IsTrail, IsTrail, byte_val (by omega), byte_val (by omega),
        byte_val (by omega), byte_val (by omega)]
      omega

theorem appendCode_delimited {code : ℕ} (hcode : isCodeValid code = true) :
    Delimited seqLen (appendCode code) ∧ nextCode (appendCode code) = code := by
  by_cases hzero : code = 0
  · rw [hzero]
    exact ⟨⟨0, [], rfl, rfl⟩, rfl⟩
  · rw [isCodeValid_iff] at hcode
    obtain ⟨b, t, heq, hlen, hnext, -⟩ :=
      appendCode_spec (show code < 0x200000 by omega) hzero
    rw [heq]
    exact ⟨⟨b, t, rfl, hlen⟩, hnext⟩

theorem delimited_of_isSequence (h : IsSequence s) : Delimited seqLen s := by
  obtain ⟨code, hcode, rfl⟩ := isSequence_iff.1 h
  exact (appendCode_delimited hcode).1

theorem not_isBarred_of_isSequence (h : IsSequence s) : ¬IsBarred s := by
  obtain ⟨code, hcode, rfl⟩ := isSequence_iff.1 h
  have hspec := appendCode_delimited hcode
  rw [← isBarred_iff hspec.1, hspec.2, hcode]
  exact Bool.noConfusion

/-- Well-formed are the buffers whose sequences, as their first bytes tell them, are. -/
theorem wellFormed_iff : WellFormed l ↔ ∀ s ∈ sequences seqLen l, IsSequence s :=
  exists_flatten_iff seqLen_pos fun _ => delimited_of_isSequence

theorem wellFormed_delimited (hs : Delimited seqLen s) : WellFormed s ↔ IsSequence s := by
  rw [wellFormed_iff, ← List.append_nil s, sequences_append hs, sequences_nil,
    List.forall_mem_singleton, List.append_nil]

/-- Well-formed are the buffers that hold the encoding of some valid codes. -/
theorem wellFormed_iff_encode :
    WellFormed l ↔ ∃ codes, (∀ code ∈ codes, isCodeValid code = true) ∧ encode codes = l := by
  constructor
  · rintro ⟨ss, hss, rfl⟩
    induction ss with
    | nil => exact ⟨[], List.forall_mem_nil _, rfl⟩
    | cons s ss ih =>
      obtain ⟨code, hcode, rfl⟩ := isSequence_iff.1 (hss s List.mem_cons_self)
      obtain ⟨codes, hcodes, heq⟩ := ih fun t ht => hss t (List.mem_cons_of_mem _ ht)
      refine ⟨code :: codes, List.forall_mem_cons.2 ⟨hcode, hcodes⟩, ?_⟩
      rw [encode_cons, heq, List.flatten_cons]
  · rintro ⟨codes, hcodes, rfl⟩
    refine ⟨codes.map appendCode, fun s hs => ?_, rfl⟩
    obtain ⟨code, hcode, rfl⟩ := List.mem_map.1 hs
    exact isSequence_iff.2 ⟨code, hcodes code hcode, rfl⟩

end UdtKernel.CText
