import UdtKernel.Text.Output
import UdtKernel.Text.Sequences

set_option autoImplicit false

/-! What `CCodeUTF8` does with the bytes of a buffer, be they well-formed or not. -/

namespace UdtKernel.CText

open Lib

/-- `MAppend` of `CCodeUTF8` where so many bytes are free: what it writes. -/
def mAppend (code room : ℕ) : List Byte := if charLen code > room then [] else appendCode code

/-- The switch of `MNext`: a code of so many bytes, and what is behind it. -/
def readCode : ℕ → List Byte → Except Abort (ℕ × List Byte)
  | 0, b :: l => .ok (nextCode [b], l)
  | 1, b :: l => .ok (nextCode [b], l)
  | 2, b :: c :: l => .ok (nextCode [b, c], l)
  | 3, b :: c :: d :: l => .ok (nextCode [b, c, d], l)
  | 4, b :: c :: d :: e :: l => .ok (nextCode [b, c, d, e], l)
  | _, _ => .error .readOutside

/-- `MNext` of `CCodeUTF8`. It looks at the first byte before it knows how many remain. -/
def mNext : List Byte → Except Abort (ℕ × List Byte)
  | [] => .error .readOutside
  | b :: l =>
    let _remain := (b :: l).length
    readCode (if seqLen b > _remain then _remain else seqLen b) (b :: l)

def mIsBufValid : List Byte → Except Abort Bool
  | [] => .ok true
  | b :: l =>
    match seqLen b, l with
    | 1, l => if !isCodeValid (nextCode [b]) then .ok false else mIsBufValid l
    | 2, c :: l => if !isCodeValid (nextCode [b, c]) then .ok false else mIsBufValid l
    | 3, c :: d :: l => if !isCodeValid (nextCode [b, c, d]) then .ok false else mIsBufValid l
    | 4, c :: d :: e :: l =>
      if !isCodeValid (nextCode [b, c, d, e]) then .ok false else mIsBufValid l
    | 2, _ => .error .readOutside
    | 3, _ => .error .readOutside
    | 4, _ => .error .readOutside
    | _, _ => .ok false

/-- What `MNext` reads, call after call, up to so many codes. -/
def decode : ℕ → List Byte → Except Abort (List ℕ)
  | 0, _ => .ok []
  | _ + 1, [] => .ok []
  | n + 1, l => do
    let (_code, rest) ← mNext l
    return _code :: (← decode n rest)

section Buffers
variable {s l : List Byte}

def Ends (l : List Byte) : Prop := ∀ s ∈ sequences seqLen l, Delimited seqLen s

def HasBarred (l : List Byte) : Prop :=
  ∃ s ∈ sequences seqLen l, Delimited seqLen s ∧ IsBarred s

theorem ends_append (hs : Delimited seqLen s) : Ends (s ++ l) ↔ Ends l := by
  rw [Ends, sequences_append hs, List.forall_mem_cons, Ends]
  exact and_iff_right hs

theorem hasBarred_append (hs : Delimited seqLen s) :
    HasBarred (s ++ l) ↔ IsBarred s ∨ HasBarred l := by
  rw [HasBarred, sequences_append hs, List.exists_mem_cons_iff, HasBarred]
  exact or_congr_left (and_iff_right hs)

section Short
variable {b : Byte}

theorem not_ends_short (h : l.length + 1 < seqLen b) : ¬Ends (b :: l) := by
  rw [Ends, sequences_short h, List.forall_mem_singleton]
  exact not_delimited_short h

theorem not_hasBarred_short (h : l.length + 1 < seqLen b) : ¬HasBarred (b :: l) := by
  rintro ⟨s, hs, hdelim, -⟩
  rw [sequences_short h, List.mem_singleton] at hs
  rw [hs] at hdelim
  exact not_delimited_short h hdelim

theorem mIsBufValid_short (h : l.length + 1 < seqLen b) :
    mIsBufValid (b :: l) = .error .readOutside := by
  obtain ⟨-, hlen⟩ | ⟨-, -, hlen⟩ | ⟨-, -, hlen⟩ | ⟨-, -, hlen⟩ := seqLen_cases b
  · omega
  · obtain rfl : l = [] := List.eq_nil_of_length_eq_zero (by omega)
    simp only [mIsBufValid, hlen]
  · match l with
    | [] => simp only [mIsBufValid, hlen]
    | [c] => simp only [mIsBufValid, hlen]
    | c :: d :: l =>
      rw [List.length_cons, List.length_cons] at h
      omega
  · match l with
    | [] => simp only [mIsBufValid, hlen]
    | [c] => simp only [mIsBufValid, hlen]
    | [c, d] => simp only [mIsBufValid, hlen]
    | c :: d :: e :: l =>
      rw [List.length_cons, List.length_cons, List.length_cons] at h
      omega

end Short

theorem mIsBufValid_append (hs : Delimited seqLen s) (l : List Byte) :
    mIsBufValid (s ++ l) = if !isCodeValid (nextCode s) then .ok false else mIsBufValid l := by
  obtain ⟨b, rfl, hlen, -⟩ | ⟨b, c, rfl, hlen, -⟩ | ⟨b, c, d, rfl, hlen, -⟩ |
    ⟨b, c, d, e, rfl, hlen, -⟩ := delimited_cases hs
  · simp only [List.singleton_append, mIsBufValid, hlen]
  · simp only [List.cons_append, List.nil_append, mIsBufValid, hlen]
  · simp only [List.cons_append, List.nil_append, mIsBufValid, hlen]
  · simp only [List.cons_append, List.nil_append, mIsBufValid, hlen]

/-- A barred sequence is found, and a buffer without one is read to its end, or past it. -/
theorem mIsBufValid_cases (l : List Byte) :
    (mIsBufValid l = .ok false ∧ HasBarred l) ∨
    (mIsBufValid l = .ok true ∧ ¬HasBarred l ∧ Ends l) ∨
    (mIsBufValid l = .error .readOutside ∧ ¬HasBarred l ∧ ¬Ends l) := by
  induction l using sequences_induction seqLen_pos with
  | nil =>
    refine .inr (.inl ⟨rfl, ?_, ?_⟩)
    · rintro ⟨s, hs, -⟩
      rw [sequences_nil] at hs
      exact nomatch hs
    · rw [Ends, sequences_nil]
      exact List.forall_mem_nil _
  | whole s l hs ih =>
    rw [mIsBufValid_append hs, hasBarred_append hs, ends_append hs]
    cases hvalid : isCodeValid (nextCode s) with
    | false => exact .inl ⟨rfl, .inl ((isBarred_iff hs).1 hvalid)⟩
    | true =>
      have hnot : ¬IsBarred s := by
        rw [← isBarred_iff hs, hvalid]
        exact Bool.noConfusion
      rw [or_iff_right hnot]
      exact ih
  | short b l h =>
    exact .inr (.inr ⟨mIsBufValid_short h, not_hasBarred_short h, not_ends_short h⟩)

/-- `MIsBufValid` is right about the well-formed buffers, and about the others just when it meets a
    barred sequence. -/
theorem mIsBufValid_iff :
    (mIsBufValid l = .ok true ↔ WellFormed l) ∧ mIsBufValid l ≠ .error .readOutside ↔
      WellFormed l ∨ HasBarred l := by
  have hends : WellFormed l → Ends l := fun h s hs =>
    delimited_of_isSequence (wellFormed_iff.1 h s hs)
  obtain ⟨heq, hbarred⟩ | ⟨heq, hbarred, -⟩ | ⟨heq, hbarred, hcut⟩ := mIsBufValid_cases l
  · have hnot : ¬WellFormed l := by
      intro h
      obtain ⟨s, hs, -, hs'⟩ := hbarred
      exact not_isBarred_of_isSequence (wellFormed_iff.1 h s hs) hs'
    rw [heq]
    exact iff_of_true ⟨iff_of_false (fun h => nomatch h) hnot, fun h => nomatch h⟩ (.inr hbarred)
  · rw [heq, or_iff_left hbarred]
    constructor
    · exact fun h => h.1.1 rfl
    · exact fun h => ⟨iff_of_true rfl h, fun h => nomatch h⟩
  · rw [heq]
    exact iff_of_false (fun h => h.2 rfl) (not_or_intro (mt hends hcut) hbarred)

/-- `MLengthOf` counts by the first bytes, and steps over the null when the last sequence is cut
    off by it. -/
theorem lengthOf_within_iff (hne : ∀ x ∈ l, x ≠ 0) (max : ℕ) :
    lengthOf max (l ++ [0]) ≠ .error .readOutside ↔
      max < (sequences seqLen l).length ∨ Ends l := by
  induction l using sequences_induction seqLen_pos generalizing max with
  | nil =>
    have hends : Ends [] := by
      rw [Ends, sequences_nil]
      exact List.forall_mem_nil _
    rw [List.nil_append, lengthOf_null]
    exact iff_of_true (fun h => by cases h) (.inr hends)
  | whole s l hs ih =>
    rw [sequences_append hs, ends_append hs, List.length_cons]
    obtain ⟨b, t, rfl, hlen⟩ := hs
    have hb : b ≠ 0 := hne b List.mem_cons_self
    cases max with
    | zero =>
      rw [List.cons_append, List.cons_append, lengthOf, if_neg hb]
      exact iff_of_true (fun h => by cases h) (.inl (Nat.succ_pos _))
    | succ max =>
      have hdrop : (b :: (t ++ l ++ [0])).drop (seqLen b) = l ++ [0] := by
        rw [hlen, List.drop_succ_cons, List.append_assoc, List.drop_left]
      rw [List.cons_append, List.cons_append, lengthOf_succ max hb, hdrop, Nat.succ_lt_succ_iff,
        ← ih (fun x hx => hne x (List.mem_append_right _ hx)) max]
      cases lengthOf max (l ++ [0]) with
      | error e => exact Iff.rfl
      | ok n => exact iff_of_true (fun h => by cases h) (fun h => by cases h)
  | short b l h =>
    have hb : b ≠ 0 := hne b List.mem_cons_self
    rw [sequences_short h, List.length_singleton, or_iff_left (not_ends_short h)]
    cases max with
    | zero =>
      rw [List.cons_append, lengthOf, if_neg hb]
      exact iff_of_true (fun h => by cases h) Nat.zero_lt_one
    | succ max =>
      have hdrop : (b :: (l ++ [0])).drop (seqLen b) = [] := by
        refine List.drop_eq_nil_of_le ?_
        rw [List.length_cons, List.length_append, List.length_singleton]
        exact h
      rw [List.cons_append, lengthOf_succ max hb, hdrop, lengthOf]
      exact iff_of_false (fun h => h rfl) (by omega)

theorem readCode_eq {n : ℕ} (hpos : 0 < n) (hfour : n ≤ 4) (hle : n ≤ l.length) :
    readCode n l = .ok (nextCode (l.take n), l.drop n) := by
  obtain ⟨s, t, rfl, rfl⟩ : ∃ s t, l = s ++ t ∧ s.length = n :=
    ⟨l.take n, l.drop n, (List.take_append_drop n l).symm, List.length_take_of_le hle⟩
  rw [List.take_left, List.drop_left]
  match s, hpos, hfour with
  | [b], _, _ => rfl
  | [b, c], _, _ => rfl
  | [b, c, d], _, _ => rfl
  | [b, c, d, e], _, _ => rfl

/-- `MNext` clips its sequence to what remains, and reads past the end only when nothing does. -/
theorem mNext_eq (b : Byte) (l : List Byte) :
    mNext (b :: l) =
      .ok (nextCode ((b :: l).take (seqLen b)), (b :: l).drop (seqLen b)) := by
  have hpos := seqLen_pos b
  have hfour : seqLen b ≤ 4 := by
    obtain ⟨-, h⟩ | ⟨-, -, h⟩ | ⟨-, -, h⟩ | ⟨-, -, h⟩ := seqLen_cases b <;> omega
  rw [mNext]
  by_cases hcut : seqLen b > (b :: l).length
  · rw [if_pos hcut, readCode_eq (by rw [List.length_cons]; omega) (by omega) (Nat.le_refl _),
      List.take_length, List.drop_length, List.take_of_length_le hcut.le,
      List.drop_eq_nil_of_le hcut.le]
  · rw [if_neg hcut, readCode_eq hpos hfour (Nat.le_of_not_lt hcut)]

theorem mNext_within_iff : mNext l ≠ .error .readOutside ↔ l ≠ [] := by
  cases l with
  | nil => exact iff_of_false (fun h => h rfl) fun h => h rfl
  | cons b l =>
    rw [mNext_eq]
    exact iff_of_true (fun h => nomatch h) (List.cons_ne_nil b l)

/-- However many calls there are, `MNext` stays in the buffer: it is what `MToUCS4` makes of it. -/
theorem decode_eq (n : ℕ) (l : List Byte) : decode n l = .ok (toUcs4 n l) := by
  induction n generalizing l with
  | zero => rfl
  | succ n ih =>
    cases l with
    | nil => rfl
    | cons b l =>
      have hnext := ih ((b :: l).drop (seqLen b))
      rw [toUcs4, decode, mNext_eq]
      · exact congrArg (Except.map _) hnext
      · exact List.cons_ne_nil b l

end Buffers

section Encoded
variable {codes : List ℕ}

/-- The codes are decoded again, with the null among them. -/
theorem toUcs4_encode (hvalid : ∀ code ∈ codes, isCodeValid code = true) (n : ℕ) :
    toUcs4 n (encode codes) = codes.take n := by
  induction codes generalizing n with
  | nil => cases n <;> rfl
  | cons code codes ih =>
    cases n with
    | zero => rfl
    | succ n =>
      obtain ⟨⟨b, t, heq, hlen⟩, hnext⟩ := appendCode_delimited (hvalid code List.mem_cons_self)
      have htake : (b :: (t ++ encode codes)).take (seqLen b) = b :: t := by
        rw [hlen, List.take_succ_cons, List.take_left]
      have hdrop : (b :: (t ++ encode codes)).drop (seqLen b) = encode codes := by
        rw [hlen, List.drop_succ_cons, List.drop_left]
      rw [encode_cons, heq, List.cons_append, toUcs4, htake, hdrop, ← heq, hnext,
        ih (fun c hc => hvalid c (List.mem_cons_of_mem code hc)) n, List.take_succ_cons]

/-- A null among the codes is taken for the end of them. -/
theorem lengthOf_encode_iff (hvalid : ∀ code ∈ codes, isCodeValid code = true) :
    (∀ max ≥ codes.length, lengthOf max (encode codes ++ [0]) = .ok codes.length) ↔
      0 ∉ codes := by
  constructor
  · intro h hnull
    obtain ⟨front, rest, rfl, hfront⟩ := List.eq_append_cons_of_mem hnull
    obtain ⟨text, rfl⟩ := codePoints_of_valid
      (fun c hc => hvalid c (List.mem_append_left _ hc)) hfront
    have heq : encode (text.map Subtype.val ++ 0 :: rest) ++ [0] =
        utf8Of text ++ 0 :: (encode rest ++ [0]) := by
      rw [encode_append, encode_cons, List.append_assoc, List.append_assoc]
      rfl
    have hcount := h _ (Nat.le_refl _)
    rw [heq, lengthOf_utf8Of, List.length_append, List.length_map, List.length_cons] at hcount
    have hlen := Except.ok.inj hcount
    omega
  · intro hnull max hmax
    obtain ⟨text, rfl⟩ := codePoints_of_valid hvalid hnull
    rw [List.length_map] at hmax ⊢
    exact (lengthOf_utf8Of text max []).trans (by rw [Nat.min_eq_right hmax])

variable (codes : List ℕ) (l : List Byte) (max : ℕ)

/-- What `CCodeUTF8` is for: some codes are written and read again, and of a buffer, or of so many
    codes before its null, nothing behind the end is read. -/
structure Utf8Right : Prop where
  appended : ∀ code ∈ codes, ∀ room, (appendCode code).length ≤ room →
    mAppend code room = appendCode code
  decoded : ∀ n ≥ codes.length, decode n (encode codes) = .ok codes
  counted : ∀ n ≥ codes.length, lengthOf n (encode codes ++ [0]) = .ok codes.length
  accepted : mIsBufValid l = .ok true ↔ WellFormed l
  bufWithin : mIsBufValid l ≠ .error .readOutside
  lengthWithin : lengthOf max (untilNull l ++ [0]) ≠ .error .readOutside
  nextWithin : mNext l ≠ .error .readOutside

variable {codes l max}

/-- `CCodeUTF8` is right just about codes without the null, about a buffer that is not empty, and is
    well-formed or has a barred sequence, and about a text none of whose sequences is cut off by
    its null, or not among those that are counted. -/
theorem utf8Right_iff (hvalid : ∀ code ∈ codes, isCodeValid code = true) :
    Utf8Right codes l max ↔
      0 ∉ codes ∧ (WellFormed l ∨ HasBarred l) ∧
        (max < (sequences seqLen (untilNull l)).length ∨ Ends (untilNull l)) ∧ l ≠ [] := by
  have hne : ∀ x ∈ untilNull l, x ≠ 0 := fun x hx =>
    of_decide_eq_true (List.mem_takeWhile_imp (p := fun b => decide (b ≠ 0)) hx)
  rw [← lengthOf_encode_iff hvalid, ← mIsBufValid_iff, ← lengthOf_within_iff hne,
    ← mNext_within_iff]
  constructor
  · intro h
    exact ⟨h.counted, ⟨h.accepted, h.bufWithin⟩, h.lengthWithin, h.nextWithin⟩
  · rintro ⟨hcounted, ⟨haccepted, hbuf⟩, hlength, hnext⟩
    refine ⟨fun code _ room hle => ?_, fun n hn => ?_, hcounted, haccepted, hbuf, hlength, hnext⟩
    · rw [Store.length_appendCode] at hle
      exact if_neg (Nat.not_lt.2 hle)
    · rw [decode_eq, toUcs4_encode hvalid, List.take_of_length_le hn]

/-- A character of each length, and a buffer with a surrogate in it. -/
theorem utf8Right_iff_mixed :
    Utf8Right [0x41, 0x7ff, 0xd7ff, 0x10ffff] [0xed, 0xa0, 0x80] 1 ↔
      0 ∉ [0x41, 0x7ff, 0xd7ff, 0x10ffff] ∧
        (WellFormed [0xed, 0xa0, 0x80] ∨ HasBarred [0xed, 0xa0, 0x80]) ∧
        (1 < (sequences seqLen (untilNull [0xed, 0xa0, 0x80])).length ∨
          Ends (untilNull [0xed, 0xa0, 0x80])) ∧ ([0xed, 0xa0, 0x80] : List Byte) ≠ [] :=
  utf8Right_iff (by decide)

/-- A first byte of two is the last one, which `MIsBufValid` reads past and which takes `MLengthOf`
    over the null; a byte that begins nothing, a character in too many bytes and a byte that does
    not go on with a sequence are accepted; and `MNext` reads what is not there. -/
theorem mIsBufValid_broken :
    mIsBufValid [0xc3] = .error .readOutside ∧ lengthOf 2 [0xc3, 0] = .error .readOutside ∧
      (mIsBufValid [0x80] = .ok true ∧ ¬WellFormed [0x80]) ∧
      (mIsBufValid [0xc0, 0x80] = .ok true ∧ ¬WellFormed [0xc0, 0x80]) ∧
      (mIsBufValid [0xc3, 0x41] = .ok true ∧ ¬WellFormed [0xc3, 0x41]) ∧
      mNext [] = .error .readOutside := by
  have hone : Delimited seqLen [0x80] := ⟨0x80, [], rfl, rfl⟩
  have hlong : Delimited seqLen [0xc0, 0x80] := ⟨0xc0, [0x80], rfl, rfl⟩
  have htrail : Delimited seqLen [0xc3, 0x41] := ⟨0xc3, [0x41], rfl, rfl⟩
  rw [wellFormed_delimited hone, wellFormed_delimited hlong, wellFormed_delimited htrail]
  unfold IsSequence
  decide

end Encoded

end UdtKernel.CText
