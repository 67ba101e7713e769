import UdtKernel.Datagram.Names

set_option autoImplicit false

/-! `CCodeUTF8`, the code of the texts outside a `CText`. -/

namespace UdtKernel.CText

def isCodeValid (code : ℕ) : Bool := code ≤ 0x10ffff && !(0xd800 ≤ code && code ≤ 0xdfff)

/-- The code of a character, but for the null that ends a text. -/
abbrev CodePoint := { code : ℕ // code ≠ 0 ∧ isCodeValid code = true }

def appendCode (code : ℕ) : List Byte :=
  if code < 0x80 then [Fin.ofNat 256 code]
  else if code < 0x0800 then
    [Fin.ofNat 256 (code >>> 6 ||| 0xc0), Fin.ofNat 256 (code &&& 0x3f ||| 0x80)]
  else if code < 0x10000 then
    [Fin.ofNat 256 (code >>> 12 ||| 0xe0), Fin.ofNat 256 ((code >>> 6) &&& 0x3f ||| 0x80),
      Fin.ofNat 256 (code &&& 0x3f ||| 0x80)]
  else
    [Fin.ofNat 256 (code >>> 18 ||| 0xf0), Fin.ofNat 256 ((code >>> 12) &&& 0x3f ||| 0x80),
      Fin.ofNat 256 ((code >>> 6) &&& 0x3f ||| 0x80), Fin.ofNat 256 (code &&& 0x3f ||| 0x80)]

def encode (codes : List ℕ) : List Byte := codes.flatMap appendCode

def utf8Of (text : List CodePoint) : List Byte := encode (text.map Subtype.val)

/-- Code points of which none is the null. -/
theorem codePoints_of_valid {codes : List ℕ} (hvalid : ∀ c ∈ codes, isCodeValid c = true)
    (hnull : 0 ∉ codes) : ∃ text : List CodePoint, codes = text.map Subtype.val := by
  have hall : ∀ c ∈ codes, c ≠ 0 ∧ isCodeValid c = true := fun c hc =>
    ⟨fun hzero => hnull (hzero ▸ hc), hvalid c hc⟩
  exact ⟨codes.attachWith _ hall, by rw [List.attachWith_map_subtype_val]⟩

def isAscii (c : CodePoint) : Prop := c.val < 0x80

instance (c : CodePoint) : Decidable (isAscii c) := inferInstanceAs (Decidable (_ < _))

section Bits
variable (x : ℕ)

theorem or_lead {k m v : ℕ} (h : v < 2 ^ k) : v ||| 2 ^ k * m = 2 ^ k * m + v := by
  rw [Nat.or_comm, Nat.two_pow_add_eq_or_of_lt h]

theorem low_mask : x &&& 0x3f = x % 64 := Nat.and_two_pow_sub_one_eq_mod x 6

theorem tail_eq : x &&& 0x3f ||| 0x80 = 128 + x % 64 := by
  rw [low_mask]
  exact or_lead (k := 6) (m := 2) (Nat.mod_lt x (by decide))

theorem lead_two (h : x < 0x0800) : x >>> 6 ||| 0xc0 = 192 + x / 64 := by
  rw [Nat.shiftRight_eq_div_pow]
  exact or_lead (k := 6) (m := 3) (by omega)

theorem lead_three (h : x < 0x10000) : x >>> 12 ||| 0xe0 = 224 + x / 4096 := by
  rw [Nat.shiftRight_eq_div_pow]
  exact or_lead (k := 5) (m := 7) (by omega)

theorem lead_four (h : x < 0x200000) : x >>> 18 ||| 0xf0 = 240 + x / 262144 := by
  rw [Nat.shiftRight_eq_div_pow]
  exact or_lead (k := 4) (m := 15) (by omega)

end Bits

theorem codePoint_lt (c : CodePoint) : c.val < 0x200000 := by
  have hvalid := c.2.2
  simp only [isCodeValid, Bool.and_eq_true, decide_eq_true_eq] at hvalid
  omega

/-- The forms of the bytes of a code. -/
theorem appendCode_cases {code : ℕ} (hcode : code < 0x200000) :
    (code < 0x80 ∧ appendCode code = [Fin.ofNat 256 code]) ∨
    (0x80 ≤ code ∧ code < 0x0800 ∧
      appendCode code = [Fin.ofNat 256 (192 + code / 64), Fin.ofNat 256 (128 + code % 64)]) ∨
    (0x0800 ≤ code ∧ code < 0x10000 ∧
      appendCode code = [Fin.ofNat 256 (224 + code / 4096),
        Fin.ofNat 256 (128 + code / 64 % 64), Fin.ofNat 256 (128 + code % 64)]) ∨
    (0x10000 ≤ code ∧
      appendCode code = [Fin.ofNat 256 (240 + code / 262144),
        Fin.ofNat 256 (128 + code / 4096 % 64), Fin.ofNat 256 (128 + code / 64 % 64),
        Fin.ofNat 256 (128 + code % 64)]) := by
  have hsix : code >>> 6 = code / 64 := Nat.shiftRight_eq_div_pow code 6
  have htwelve : code >>> 12 = code / 4096 := Nat.shiftRight_eq_div_pow code 12
  unfold appendCode
  by_cases h₁ : code < 0x80
  · exact .inl ⟨h₁, if_pos h₁⟩
  by_cases h₂ : code < 0x0800
  · refine .inr (.inl ⟨by omega, h₂, ?_⟩)
    rw [if_neg h₁, if_pos h₂, lead_two code h₂, tail_eq]
  by_cases h₃ : code < 0x10000
  · refine .inr (.inr (.inl ⟨by omega, h₃, ?_⟩))
    rw [if_neg h₁, if_neg h₂, if_pos h₃, lead_three code h₃, tail_eq, tail_eq, hsix]
  · refine .inr (.inr (.inr ⟨by omega, ?_⟩))
    rw [if_neg h₁, if_neg h₂, if_neg h₃, lead_four code hcode, tail_eq, tail_eq, tail_eq, hsix,
      htwelve]

theorem seqLen_one {b : Byte} (h : b.val < 0x80) : seqLen b = 1 := if_pos h

theorem seqLen_two {b : Byte} (h : 192 ≤ b.val) (h' : b.val < 224) : seqLen b = 2 := by
  have hshift : b.val >>> 5 = 6 := by rw [Nat.shiftRight_eq_div_pow]; omega
  rw [seqLen, if_neg (by omega), if_pos hshift]

theorem seqLen_three {b : Byte} (h : 224 ≤ b.val) (h' : b.val < 240) : seqLen b = 3 := by
  have hfive : b.val >>> 5 = 7 := by rw [Nat.shiftRight_eq_div_pow]; omega
  have hfour : b.val >>> 4 = 14 := by rw [Nat.shiftRight_eq_div_pow]; omega
  rw [seqLen, if_neg (by omega), if_neg (by omega), if_pos hfour]

theorem seqLen_four {b : Byte} (h : 240 ≤ b.val) (h' : b.val < 248) : seqLen b = 4 := by
  have hfive : b.val >>> 5 = 7 := by rw [Nat.shiftRight_eq_div_pow]; omega
  have hfour : b.val >>> 4 = 15 := by rw [Nat.shiftRight_eq_div_pow]; omega
  have hthree : b.val >>> 3 = 30 := by rw [Nat.shiftRight_eq_div_pow]; omega
  rw [seqLen, if_neg (by omega), if_neg (by omega), if_neg (by omega), if_pos hthree]

theorem shift_mask (x k m : ℕ) {mask : ℕ} (h : mask = 2 ^ m - 1) :
    (x <<< k) &&& mask = x * 2 ^ k % 2 ^ m := by
  rw [h, Nat.and_two_pow_sub_one_eq_mod, Nat.shiftLeft_eq]

theorem byte_val {v : ℕ} (h : v < 256) : (Fin.ofNat 256 v : Byte).val = v := Nat.mod_eq_of_lt h

/-- A code is read back from its bytes: their first tells how many there are, and none is null. -/
theorem appendCode_spec {code : ℕ} (hcode : code < 0x200000) (hne : code ≠ 0) :
    ∃ b l, appendCode code = b :: l ∧ seqLen b = l.length + 1 ∧ nextCode (b :: l) = code ∧
      ∀ x ∈ b :: l, x ≠ 0 := by
  have hpos : ∀ {v : ℕ}, 0 < v → v < 256 → (Fin.ofNat 256 v : Byte) ≠ 0 := by
    intro v hv hlt hzero
    have hval := byte_val hlt
    rw [hzero] at hval
    exact absurd hval (by simp; omega)
  obtain ⟨h, heq⟩ | ⟨hlow, h, heq⟩ | ⟨hlow, h, heq⟩ | ⟨hlow, heq⟩ := appendCode_cases hcode
  · refine ⟨_, _, heq, seqLen_one (by rw [byte_val] <;> omega), byte_val (by omega), ?_⟩
    simp only [List.mem_singleton, forall_eq]
    exact hpos (by omega) (by omega)
  · refine ⟨_, _, heq, seqLen_two (by rw [byte_val] <;> omega) (by rw [byte_val] <;> omega),
      ?_, ?_⟩
    · rw [nextCode, shift_mask _ 6 11 (rfl : 0x7ff = _), low_mask, byte_val (by omega),
        byte_val (by omega)]
      omega
    · simp only [List.mem_cons, List.not_mem_nil, or_false, forall_eq_or_imp, forall_eq]
      exact ⟨hpos (by omega) (by omega), hpos (by omega) (by omega)⟩
  · refine ⟨_, _, heq, seqLen_three (by rw [byte_val] <;> omega) (by rw [byte_val] <;> omega),
      ?_, ?_⟩
    · rw [nextCode, shift_mask _ 12 16 (rfl : 0xffff = _), shift_mask _ 6 12 (rfl : 0xfff = _),
        low_mask, byte_val (by omega), byte_val (by omega), byte_val (by omega)]
      omega
    · simp only [List.mem_cons, List.not_mem_nil, or_false, forall_eq_or_imp, forall_eq]
      exact ⟨hpos (by omega) (by omega), hpos (by omega) (by omega), hpos (by omega) (by omega)⟩
  · refine ⟨_, _, heq, seqLen_four (by rw [byte_val] <;> omega) (by rw [byte_val] <;> omega),
      ?_, ?_⟩
    · rw [nextCode, shift_mask _ 18 21 (rfl : 0x1fffff = _),
        shift_mask _ 12 18 (rfl : 0x3ffff = _), shift_mask _ 6 12 (rfl : 0xfff = _), low_mask,
        byte_val (by omega), byte_val (by omega),
        byte_val (by omega), byte_val (by omega)]
      omega
    · simp only [List.mem_cons, List.not_mem_nil, or_false, forall_eq_or_imp, forall_eq]
      exact ⟨hpos (by omega) (by omega), hpos (by omega) (by omega), hpos (by omega) (by omega),
        hpos (by omega) (by omega)⟩

theorem encode_cons (code : ℕ) (codes : List ℕ) :
    encode (code :: codes) = appendCode code ++ encode codes := List.flatMap_cons

theorem encode_append (codes codes' : List ℕ) :
    encode (codes ++ codes') = encode codes ++ encode codes' := List.flatMap_append

theorem utf8Of_cons (c : CodePoint) (text : List CodePoint) :
    utf8Of (c :: text) = appendCode c.val ++ utf8Of text := encode_cons c.val _

theorem appendCode_codePoint (c : CodePoint) :
    ∃ b l, appendCode c.val = b :: l ∧ seqLen b = l.length + 1 ∧ nextCode (b :: l) = c.val ∧
      ∀ x ∈ b :: l, x ≠ 0 := appendCode_spec (codePoint_lt c) c.2.1

theorem utf8Of_ne_zero (text : List CodePoint) : ∀ x ∈ utf8Of text, x ≠ 0 := by
  induction text with
  | nil => exact fun x hx => nomatch hx
  | cons c text ih =>
    intro x hx
    obtain ⟨b, l, heq, -, -, hne⟩ := appendCode_codePoint c
    rw [utf8Of_cons, heq] at hx
    exact (List.mem_append.1 hx).elim (hne x) (ih x)

theorem untilNull_utf8Of (text : List CodePoint) : untilNull (utf8Of text) = utf8Of text := by
  refine List.takeWhile_eq_self_iff.2 fun x hx => ?_
  exact decide_eq_true (utf8Of_ne_zero text x hx)

/-- As many characters are counted as there are, up to the limit. -/
theorem lengthOf_utf8Of (text : List CodePoint) (max : ℕ) (rest : List Byte) :
    lengthOf max (utf8Of text ++ 0 :: rest) = .ok (min max text.length) := by
  induction text generalizing max with
  | nil => exact (lengthOf_null max rest).trans (by simp)
  | cons c text ih =>
    obtain ⟨b, l, heq, hseq, -, hne⟩ := appendCode_codePoint c
    have hb : b ≠ 0 := hne b List.mem_cons_self
    rw [utf8Of_cons, heq, List.cons_append, List.cons_append]
    cases max with
    | zero => rw [lengthOf, if_neg hb, Nat.zero_min]
    | succ max =>
      have hdrop : (b :: (l ++ utf8Of text ++ 0 :: rest)).drop (seqLen b) =
          utf8Of text ++ 0 :: rest := by
        rw [hseq, List.drop_succ_cons, List.append_assoc, List.drop_left]
      rw [lengthOf_succ max hb, hdrop, ih max, List.length_cons, Nat.succ_min_succ]
      rfl

/-- The characters are converted to their codes, as many as are asked for. -/
theorem toUcs4_utf8Of (text : List CodePoint) (n : ℕ) :
    toUcs4 n (utf8Of text) = (text.take n).map Subtype.val := by
  induction text generalizing n with
  | nil => cases n <;> rfl
  | cons c text ih =>
    cases n with
    | zero => rfl
    | succ n =>
      obtain ⟨b, l, heq, hseq, hnext, -⟩ := appendCode_codePoint c
      have htake : (b :: (l ++ utf8Of text)).take (seqLen b) = b :: l := by
        rw [hseq, List.take_succ_cons, List.take_left]
      have hdrop : (b :: (l ++ utf8Of text)).drop (seqLen b) = utf8Of text := by
        rw [hseq, List.drop_succ_cons, List.drop_left]
      rw [utf8Of_cons, heq, List.cons_append, toUcs4, htake, hdrop, hnext, ih n,
        List.take_succ_cons, List.map_cons]

theorem length_le_utf8Of (text : List CodePoint) : text.length ≤ (utf8Of text).length := by
  induction text with
  | nil => exact Nat.le_refl _
  | cons c text ih =>
    obtain ⟨b, l, heq, -⟩ := appendCode_codePoint c
    rw [utf8Of_cons, heq, List.length_append, List.length_cons, List.length_cons]
    omega

theorem utf8Of_eq_nil {text : List CodePoint} : utf8Of text = [] ↔ text = [] := by
  constructor
  · intro h
    have hle := length_le_utf8Of text
    rw [h] at hle
    exact List.eq_nil_of_length_eq_zero (Nat.le_zero.1 hle)
  · rintro rfl
    rfl

section Ascii
variable {text : List CodePoint} {n : ℕ}

theorem utf8Of_cons_ascii {c : CodePoint} (hc : isAscii c) (text : List CodePoint) :
    utf8Of (c :: text) = Fin.ofNat 256 c.val :: utf8Of text := by
  have hone : appendCode c.val = [Fin.ofNat 256 c.val] := if_pos hc
  rw [utf8Of_cons, hone, List.singleton_append]

/-- Characters of one byte each are passed over by their number. -/
theorem utf8Of_drop (h : ∀ c ∈ text.take n, isAscii c) :
    (utf8Of text).drop n = utf8Of (text.drop n) := by
  induction n generalizing text with
  | zero => rfl
  | succ n ih =>
    cases text with
    | nil => rfl
    | cons c text =>
      rw [utf8Of_cons_ascii (h c List.mem_cons_self)]
      exact ih fun d hd => h d (List.mem_cons_of_mem c hd)

theorem utf8Of_take (h : ∀ c ∈ text.take n, isAscii c) :
    (utf8Of text).take n = utf8Of (text.take n) := by
  induction n generalizing text with
  | zero => rfl
  | succ n ih =>
    cases text with
    | nil => rfl
    | cons c text =>
      have hc := h c List.mem_cons_self
      rw [utf8Of_cons_ascii hc, List.take_succ_cons, List.take_succ_cons, utf8Of_cons_ascii hc,
        ih fun d hd => h d (List.mem_cons_of_mem c hd)]

/-- The bytes of such characters are their codes. -/
theorem utf8Of_val (h : ∀ c ∈ text, isAscii c) :
    (utf8Of text).map Fin.val = text.map Subtype.val := by
  induction text with
  | nil => rfl
  | cons c text ih =>
    have hc : c.val < 0x80 := h c List.mem_cons_self
    rw [utf8Of_cons_ascii hc, List.map_cons, List.map_cons, byte_val (by omega),
      ih fun d hd => h d (List.mem_cons_of_mem c hd)]

theorem length_utf8Of (h : ∀ c ∈ text, isAscii c) : (utf8Of text).length = text.length := by
  rw [← List.length_map (f := Fin.val), utf8Of_val h, List.length_map]

end Ascii

end UdtKernel.CText
