import UdtKernel.Text.EditSpecs
import Mathlib.Data.List.DropRight

set_option autoImplicit false

/-! The edits of a `CText` against those of a list. -/

namespace UdtKernel.CText
open Lib

namespace Store
variable {reserved junk : ℕ → ℕ} {s : Store}

section Fill
variable (hreserved : ∀ n, n ≤ reserved n) (hs : s.Sized) {num code : ℕ}
include hreserved hs

theorem assignFill_becomes (hroom : Room reserved s num) :
    Becomes (List.replicate num code) (s.assignFill reserved junk num code) := by
  refine (check_outcome _).bind fun _ _ => ?_
  by_cases hzero : num = 0
  · subst hzero
    rw [if_pos rfl]
    exact emptied_becomes hreserved hs hroom
  rw [if_neg hzero]
  refine (grow_outcome hreserved hs.changed (changed_shared s) hroom.changed).bind fun s' hs' => ?_
  rw [hs'.setLen]
  exact hs'.written List.length_replicate

theorem appendFill_becomes (hroom : Room reserved s (s.length + num)) :
    Becomes (s.codes ++ List.replicate num code) (s.appendFill reserved junk num code) :=
  (check_outcome _).bind fun _ _ =>
    appendWith_becomes hreserved hs List.length_replicate hroom fun _ _ _ => rfl

theorem insertFill_becomes {idx : ℕ} (hidx : s.length = 0 → idx = 0) (hnum : num ≠ 0)
    (hcode : code ≠ 0) (hroom : Room reserved s (s.length + num)) :
    Becomes (s.codes.take idx ++ List.replicate num code ++ s.codes.drop idx)
      (s.insertFill reserved junk idx num code) := by
  rw [insertFill, if_neg (not_or.2 ⟨hnum, hcode⟩)]
  exact (check_outcome _).bind fun _ _ =>
    insertWith_becomes hreserved hs hidx List.length_replicate hroom fun _ _ _ _ => rfl

theorem replaceFill_becomes (hsmall : s.length < 2 ^ 64) {idx len : ℕ}
    (hlen : len = npos ∨ idx + len < 2 ^ 64)
    (hroom : Room reserved s (s.length - s.gapOf idx len + num)) :
    Becomes (s.codes.take idx ++ List.replicate num code ++ s.codes.drop (idx + len))
      (s.replaceFill reserved junk idx len num code) :=
  (check_outcome _).bind fun _ hidx => (check_outcome _).bind fun _ _ =>
    replaceWith_becomes hreserved hs hsmall hidx hlen List.length_replicate hroom fun _ _ _ => rfl

end Fill

theorem put_nil {pos : ℕ} (h : pos ≤ s.buf.length) : s.put pos [] = .ok s := by
  rw [put, if_pos (by simpa using h), overwrite]
  simp

/-- A good text is made no longer. -/
theorem Good.setLen_becomes (h : s.Good) (hown : s.shared = false) {n : ℕ} (hn : n ≤ s.length) :
    Becomes (s.codes.take n) (s.setLen n) := by
  have hroom := h.room
  have hsmall := h.small
  refine Store.setLen_becomes h.memory (by omega) hown (by omega) ?_
  rw [codes, List.take_take, Nat.min_eq_left hn]

theorem Good.changed (h : s.Good) : s.changed.Good :=
  ⟨by simp [h.memory], by simp [h.room], by simp [h.ended], by simp [h.small]⟩

theorem erase_edited (hs : s.Good) {idx len : ℕ}
    (hlen : len = 0 ∨ len = npos ∨ idx + len ≤ s.length) :
    Edited s (s.codes.take idx ++ s.codes.drop (idx + len)) (s.erase idx len) := by
  rw [erase]
  by_cases hzero : len = 0
  · rw [if_pos hzero, hzero, Nat.add_zero, List.take_append_drop]
    exact hs.edited
  rw [if_neg hzero]
  refine (check_outcome _).bind fun _ hidx => ?_
  have hsmall : s.length < 2 ^ 64 := lt_trans hs.small (by decide)
  have hgap' : (if len = npos then s.length - idx else len) = s.gapOf idx len := by
    unfold gapOf npos at *
    split_ifs <;> omega
  have hle : idx + s.gapOf idx len ≤ s.length := by
    rw [gapOf]
    omega
  have hcount : subSize s.length (s.gapOf idx len) = s.length - s.gapOf idx len := by
    unfold subSize
    omega
  have hstart : addSize idx (s.gapOf idx len) = idx + s.gapOf idx len := Nat.mod_eq_of_lt (by omega)
  have hrest : subSize (s.length - idx) (s.gapOf idx len) = s.length - idx - s.gapOf idx len := by
    unfold subSize
    omega
  have hgrown : s.changed.Grown (s.length - s.gapOf idx len) s.changed := by
    have hroom := hs.room
    have hmax := hs.small
    exact ⟨hs.changed.memory, by rw [changed_bufLen]; omega, rfl, Nat.le_of_lt hs.changed.room, rfl,
      changed_shared s, by omega⟩
  have hgap : idx + s.gapOf idx len ≤ s.changed.length := by rwa [changed_length]
  have hn : s.length - s.gapOf idx len + s.gapOf idx len = s.changed.length + 0 := by
    rw [changed_length]
    omega
  obtain ⟨s₁, hmove, hshifted⟩ := hgrown.move hgap hn
  have hfilled : Becomes (s.changed.codes.take idx ++ [] ++
      s.changed.codes.drop (idx + s.gapOf idx len))
      (s₁.put idx [] >>= setLen (s.length - s.gapOf idx len)) :=
    hshifted.filled hs.sized.changed hgap hn rfl
  rw [changed_codes, List.append_nil, ← hs.sized.drop_gap (Nat.le_of_lt hidx)] at hfilled
  rw [changed_length, Nat.add_zero] at hmove
  have hin : idx ≤ s₁.buf.length := by
    have hroom := hshifted.room
    have hmemory := hshifted.memory
    omega
  rw [put_nil hin] at hfilled
  have herased := hfilled.edited s
  simp only [hgap', hcount, hstart, hrest, hmove]
  exact herased

theorem resize_becomes (hreserved : ∀ n, n ≤ reserved n) (hs : s.Sized) {num code : ℕ}
    (hgood : num < s.length → s.Good) (hroom : Room reserved s num) :
    Becomes (s.codes.take num ++ List.replicate (num - s.length) code)
      (s.resize reserved junk num code) := by
  rw [resize]
  by_cases hlt : num < s.length
  · have hset := (hgood hlt).changed.setLen_becomes (changed_shared s) (n := num)
      (by rw [changed_length]; omega)
    rw [if_pos hlt, Nat.sub_eq_zero_of_le (Nat.le_of_lt hlt), List.replicate_zero, List.append_nil]
    rwa [changed_codes] at hset
  · have hlen := hs.length_codes
    have hsum : s.length + (num - s.length) = num := by omega
    rw [if_neg hlt, List.take_of_length_le (by omega)]
    exact appendFill_becomes hreserved hs (by rwa [hsum])

theorem clear_edited (hs : s.Good) : Edited s [] s.clear := by
  rw [clear]
  by_cases hzero : s.length = 0
  · have hcodes : s.codes = [] := by rw [codes, hzero, List.take_zero]
    rw [if_pos hzero, ← hcodes]
    exact hs.edited
  · rw [if_neg hzero]
    exact (hs.changed.setLen_becomes (changed_shared s) (Nat.zero_le _)).edited s

theorem reserve_edited (hs : s.Good) {num : ℕ} (hne : num ≠ 0) (hlt : num < s.bufLen) :
    Edited s s.codes (s.reserve reserved junk num) := by
  rw [reserve, if_neg hne, grow]
  refine (check_outcome _).bind fun _ _ => ?_
  rw [if_neg (by rw [changed_bufLen]; omega)]
  exact ⟨hs.changed, changed_codes s, .inl (changed_shared s)⟩

end Store

theorem rdropWhile_append {α : Type} {p : α → Bool} {l t : List α} (ht : ∀ x ∈ t, p x = true) :
    (l ++ t).rdropWhile p = l.rdropWhile p := by
  induction t using List.reverseRecOn with
  | nil => rw [List.append_nil]
  | append_singleton t x ih =>
    rw [← List.append_assoc, List.rdropWhile_concat_pos _ _ _ (ht x (by simp))]
    exact ih fun y hy => ht y (List.mem_append_left _ hy)

/-- The last code point that is not the one to drop ends what is left. -/
theorem rdropWhile_of_isLast {codes : List ℕ} {code : ℕ} {r : Option ℕ}
    (h : IsLast (Holds (· ≠ code) codes) r) :
    codes.rdropWhile (· = code) = match r with
      | some i => codes.take (i + 1)
      | none => [] := by
  cases r with
  | none =>
    refine List.rdropWhile_eq_nil_iff.2 fun x hx => ?_
    obtain ⟨i, hi⟩ := List.mem_iff_getElem?.1 hx
    have hnot := h i
    rw [holds_iff hi] at hnot
    simpa using hnot
  | some i =>
    obtain ⟨⟨c, hc, hne⟩, hmax⟩ := h
    have hne' : ¬ decide (c = code) = true := by simpa using hne
    have htail : ∀ x ∈ codes.drop (i + 1), decide (x = code) = true := by
      intro x hx
      obtain ⟨j, hj⟩ := List.mem_iff_getElem?.1 hx
      rw [List.getElem?_drop] at hj
      by_contra hnot
      have hle := hmax (i + 1 + j) ⟨x, hj, by simpa using hnot⟩
      omega
    obtain ⟨hlt, hget⟩ := List.getElem?_eq_some_iff.1 hc
    have hfront : codes.take (i + 1) = codes.take i ++ [c] := by
      rw [← hget, List.take_append_getElem]
    calc codes.rdropWhile (· = code)
        = (codes.take (i + 1) ++ codes.drop (i + 1)).rdropWhile (· = code) := by
          rw [List.take_append_drop]
      _ = (codes.take (i + 1)).rdropWhile (· = code) := rdropWhile_append htail
      _ = codes.take (i + 1) := by
          rw [hfront]
          exact List.rdropWhile_concat_neg _ _ _ hne'

namespace Store
variable {s : Store}

theorem findLastNotOf_spec (hs : s.Good) (code : ℕ) :
    ∃ r, s.findLastNotOf code npos = .ok r ∧ IsLast (Holds (· ≠ code) s.codes) r := by
  have hlen := hs.sized.length_codes
  have hsmall := hs.small
  rw [findLastNotOf]
  by_cases hzero : s.length = 0
  · refine ⟨none, if_pos hzero, fun j hj => ?_⟩
    have hlt := hj.lt
    omega
  · have hlast : s.length - 1 < s.codes.length := by omega
    obtain ⟨r, hr, hspec⟩ := scanBack_spec (p := (· ≠ code)) hlast
    refine ⟨r, ?_, ?_⟩
    · rw [if_neg hzero, if_pos (by unfold maxSize at hsmall; omega), hr]
    · have hsame : ∀ j, j ≤ s.length - 1 ∧ Holds (· ≠ code) s.codes j ↔
          Holds (· ≠ code) s.codes j := by
        intro j
        refine ⟨fun h => h.2, fun h => ⟨?_, h⟩⟩
        have hlt := h.lt
        omega
      simpa only [IsLast, hsame] using hspec

theorem trimSpace_edited (hs : s.Good) :
    Edited s (s.codes.rdropWhile (· = 0x20)) s.trimSpace := by
  have hlen := hs.sized.length_codes
  rw [trimSpace]
  by_cases hzero : s.length = 0
  · have hcodes : s.codes = [] := List.eq_nil_of_length_eq_zero (hlen.trans hzero)
    rw [if_pos hzero, hcodes, List.rdropWhile_nil, ← hcodes]
    exact hs.edited
  obtain ⟨r, hr, hlast⟩ := findLastNotOf_spec hs 0x20
  rw [if_neg hzero, hr, rdropWhile_of_isLast hlast]
  cases r with
  | none => exact clear_edited hs
  | some i =>
    have hlt := hlast.1.lt
    change Edited s (s.codes.take (i + 1))
      (if i ≠ s.length - 1 then s.erase (i + 1) npos else .ok s)
    by_cases hend : i = s.length - 1
    · rw [if_neg (not_not.2 hend), List.take_of_length_le (by omega)]
      exact hs.edited
    · have hsmall := hs.small
      have herased : Edited s (s.codes.take (i + 1) ++ s.codes.drop (i + 1 + npos)) _ :=
        erase_edited hs (.inr (.inl rfl))
      rw [if_pos hend]
      rwa [List.drop_of_length_le (by unfold maxSize npos at *; omega), List.append_nil] at herased

end Store

/-- The `CText` that a call is given: the one it is made of, or one of the others. -/
inductive Operand where
  | self
  | other (k : ℕ)

/-- The characters of a `std::string`; a `size_type` tells how many bytes there are. -/
abbrev StdString := { text : List CodePoint // (utf8Of text).length < 2 ^ 64 }

inductive Arg where
  | text (str : Operand) (strIdx strNum : ℕ)
  | std (str : StdString) (strIdx strNum : ℕ)
  | utf8 (str : List CodePoint) (num : ℕ)
  | fill (num code : ℕ)

/-- The calls that edit a `CText`. -/
inductive Call where
  | assign (arg : Arg)
  | append (arg : Arg)
  | insert (idx : ℕ) (arg : Arg)
  | erase (idx len : ℕ)
  | resize (num code : ℕ)
  | replace (idx len : ℕ) (arg : Arg)
  | pushBack (code : ℕ)
  | clear
  | reserve (num : ℕ)
  | trimSpace

/-- The code points of the others are as `env` tells. -/
def Operand.source (env : ℕ → List ℕ) : Operand → Source
  | self => .self
  | other k => .other (env k)

def Store.edit (reserved junk : ℕ → ℕ) (env : ℕ → List ℕ) (s : Store) :
    Call → Except Fault Store
  | .assign (.text str strIdx strNum) =>
    s.assignText reserved junk (str.source env) strIdx strNum
  | .assign (.std str strIdx strNum) => s.assignStd reserved junk (utf8Of str.val) strIdx strNum
  | .assign (.utf8 str num) => s.assignUtf8 reserved junk (utf8Of str) num
  | .assign (.fill num code) => s.assignFill reserved junk num code
  | .append (.text str strIdx strNum) =>
    s.appendText reserved junk (str.source env) strIdx strNum
  | .append (.std str strIdx strNum) => s.appendStd reserved junk (utf8Of str.val) strIdx strNum
  | .append (.utf8 str num) => s.appendUtf8 reserved junk (utf8Of str) num
  | .append (.fill num code) => s.appendFill reserved junk num code
  | .insert idx (.text str strIdx strNum) =>
    s.insertText reserved junk idx (str.source env) strIdx strNum
  | .insert idx (.std str strIdx strNum) =>
    s.insertStd reserved junk idx (utf8Of str.val) strIdx strNum
  | .insert idx (.utf8 str num) => s.insertUtf8 reserved junk idx (utf8Of str) num
  | .insert idx (.fill num code) => s.insertFill reserved junk idx num code
  | .erase idx len => s.erase idx len
  | .resize num code => s.resize reserved junk num code
  | .replace idx len (.text str strIdx strNum) =>
    s.replaceText reserved junk idx len (str.source env) strIdx strNum
  | .replace idx len (.std str strIdx strNum) =>
    s.replaceStd reserved junk idx len (utf8Of str.val) strIdx strNum
  | .replace idx len (.utf8 str num) => s.replaceUtf8 reserved junk idx len (utf8Of str) num
  | .replace idx len (.fill num code) => s.replaceFill reserved junk idx len num code
  | .pushBack code => s.pushBack reserved junk code
  | .clear => s.clear
  | .reserve num => s.reserve reserved junk num
  | .trimSpace => s.trimSpace

/-- The code points of a text that is given to a call on one with the code points `l`. -/
def Operand.codes (env : ℕ → List ℕ) (l : List ℕ) : Operand → List ℕ
  | self => l
  | other k => env k

def Arg.piece (env : ℕ → List ℕ) (l : List ℕ) : Arg → List ℕ
  | text str strIdx strNum => part (str.codes env l) strIdx strNum
  | std str strIdx strNum => (part str.val strIdx strNum).map Subtype.val
  | utf8 str num => (str.take num).map Subtype.val
  | fill num code => List.replicate num code

/-- The same call on a list; `npos` is a number no list is longer than. -/
def Call.apply (env : ℕ → List ℕ) (l : List ℕ) : Call → List ℕ
  | assign arg => arg.piece env l
  | append arg => l ++ arg.piece env l
  | insert idx arg => l.take idx ++ arg.piece env l ++ l.drop idx
  | erase idx len => l.take idx ++ l.drop (idx + len)
  | resize num code => l.take num ++ List.replicate (num - l.length) code
  | replace idx len arg => l.take idx ++ arg.piece env l ++ l.drop (idx + len)
  | pushBack code => l ++ [code]
  | clear => []
  | reserve _ => l
  | trimSpace => l.rdropWhile (· = 0x20)

def Arg.Nothing (env : ℕ → List ℕ) (l : List ℕ) : Arg → Prop
  | text str _ _ => str.codes env l = []
  | std str _ _ => str.val = []
  | utf8 _ _ => False
  | fill num _ => num = 0

/-- A call that leaves a text with a memory of its own, though it had none. -/
def Call.Allocates (env : ℕ → List ℕ) (l : List ℕ) : Call → Prop
  | assign _ => True
  | append (.fill _ _) => True
  | append (.text str _ _) => str.codes env l ≠ []
  | append arg => arg.piece env l ≠ []
  | insert _ arg => ¬arg.Nothing env l
  | resize _ _ => True
  | replace _ _ _ => True
  | pushBack _ => True
  | _ => False

/-- What has to hold of an argument that a gap of a text takes in. -/
def Arg.FitsGap (s : Store) (idx len : ℕ) : Arg → Prop
  | text str strIdx strNum => (strNum = npos ∨ strIdx + strNum < 2 ^ 64) ∧
    match str with
    | .self => s.Apart idx len strIdx (part s.codes strIdx strNum).length
    | .other _ => True
  | std str strIdx strNum => (strNum = npos ∨ strIdx + strNum < 2 ^ 64) ∧
    ∀ c ∈ str.val.take (strIdx + strNum), isAscii c
  | utf8 str num => num ≤ str.length ∧ ∀ c ∈ str.take num, isAscii c
  | fill _ _ => True

/-- The calls whose defects are not met. -/
def Call.Fits (env : ℕ → List ℕ) (s : Store) : Call → Prop
  | assign (.text .self strIdx strNum) => (part s.codes strIdx strNum).length = 0 ∨
    (part s.codes strIdx strNum).length < strIdx
  | assign (.std str strIdx strNum) => ByteExact str.val strIdx strNum
  | assign _ => True
  | append (.std str strIdx strNum) => ByteExact str.val strIdx strNum
  | append _ => True
  | insert idx arg => (s.length = 0 → idx = 0 ∨ arg.Nothing env s.codes) ∧
    match arg with
    | .text .self strIdx strNum => (part s.codes strIdx strNum).length = 0 ∨
      strIdx + (part s.codes strIdx strNum).length ≤ idx
    | .std str strIdx strNum => strIdx ≤ str.val.length ∧ ByteExact str.val strIdx strNum
    | .fill _ code => code ≠ 0
    | _ => True
  | erase idx len => len = 0 ∨ len = npos ∨ idx + len ≤ s.length
  | replace idx len arg => (len = npos ∨ idx + len < 2 ^ 64) ∧ arg.FitsGap s idx len
  | reserve num => num ≠ 0 ∧ num < s.bufLen
  | _ => True

def Store.Fresh (s : Store) : Prop := s.buf = [] ∧ s.bufLen = 0 ∧ s.length = 0

def Store.Ready (s : Store) : Prop := s.Good ∨ s.Fresh

namespace Store.Ready
variable {s : Store}

theorem sized (h : s.Ready) : s.Sized := by
  rcases h with h | ⟨hbuf, hlen, hlength⟩
  · exact h.sized
  · exact ⟨by rw [hbuf, hlen]; rfl, by omega⟩

theorem small (h : s.Ready) : s.length < maxSize := by
  rcases h with h | ⟨-, -, hlength⟩
  · exact h.small
  · rw [hlength]
    decide

theorem length_codes (h : s.Ready) : s.codes.length = s.length := h.sized.length_codes

theorem lt_pow (h : s.Ready) : s.length < 2 ^ 64 := lt_trans h.small (by decide)

theorem le_npos (h : s.Ready) {env : ℕ → List ℕ} (henv : ∀ k, (env k).length ≤ npos)
    (str : Operand) : (s.codesOf (str.source env)).length ≤ npos := by
  cases str with
  | self =>
    change s.codes.length ≤ npos
    rw [h.length_codes]
    exact Nat.le_of_lt (lt_trans h.small (by decide))
  | other k => exact henv k

end Store.Ready

section Edit
variable {reserved junk : ℕ → ℕ} {s : Store} {env : ℕ → List ℕ}

theorem codesOf_source (s : Store) (env : ℕ → List ℕ) (str : Operand) :
    s.codesOf (str.source env) = str.codes env s.codes := by
  cases str <;> rfl

theorem length_gap (s : Store) (l : List ℕ) (idx len : ℕ) (piece : List ℕ)
    (hl : l.length = s.length) :
    (l.take idx ++ piece ++ l.drop (idx + len)).length =
      s.length - s.gapOf idx len + piece.length := by
  simp only [List.length_append, List.length_take, List.length_drop, Store.gapOf]
  omega

theorem length_insert (l : List ℕ) (idx : ℕ) (piece : List ℕ) :
    (l.take idx ++ piece ++ l.drop idx).length = l.length + piece.length := by
  simp only [List.length_append, List.length_take, List.length_drop]
  omega

/-- Nothing is done to a text with such an argument. -/
theorem insert_nothing (hs : s.Sized) {arg : Arg} {idx : ℕ} (harg : arg.Nothing env s.codes) :
    s.edit reserved junk env (.insert idx arg) = .ok s ∧ arg.piece env s.codes = [] := by
  cases arg with
  | text str strIdx strNum =>
    have hnil : s.codesOf (str.source env) = [] := (codesOf_source s env str).trans harg
    refine ⟨?_, by rw [Arg.piece, harg, part_nil]⟩
    rw [Store.edit, Store.insertText, hs.sizeOf_eq, hnil]
    rfl
  | std str strIdx strNum =>
    refine ⟨?_, by rw [Arg.piece, harg, part_nil, List.map_nil]⟩
    rw [Store.edit, Store.insertStd, harg]
    rfl
  | utf8 str num => exact harg.elim
  | fill num code =>
    refine ⟨if_pos (.inl harg), ?_⟩
    rw [Arg.piece, harg, List.replicate_zero]

variable (hreserved : ∀ n, n ≤ reserved n) (hs : s.Ready) (henv : ∀ k, (env k).length ≤ npos)
include hreserved hs henv

theorem assign_edited {arg : Arg} (hfits : (Call.assign arg).Fits env s)
    (hroom : s.Room reserved (arg.piece env s.codes).length) :
    s.Edited (arg.piece env s.codes) (s.edit reserved junk env (.assign arg)) := by
  cases arg with
  | text str strIdx strNum =>
    rw [Arg.piece, ← codesOf_source] at hroom ⊢
    refine (Store.assignText_becomes hreserved hs.sized (hs.le_npos henv str) hroom ?_).edited s
    cases str with
    | self => exact fun _ => hfits
    | other k => exact fun h => nomatch h
  | std str strIdx strNum =>
    rw [Arg.piece, List.length_map] at hroom
    exact (Store.assignStd_becomes hreserved hs.sized str.2 hfits hroom).edited s
  | utf8 str num =>
    rw [Arg.piece, List.length_map] at hroom
    exact (Store.assignUtf8_becomes hreserved hs.sized hroom).edited s
  | fill num code =>
    rw [Arg.piece, List.length_replicate] at hroom
    exact (Store.assignFill_becomes hreserved hs.sized hroom).edited s

theorem append_edited {arg : Arg} (hfits : (Call.append arg).Fits env s)
    (hbuf : s.Good ∨ (Call.append arg).Allocates env s.codes)
    (hroom : s.Room reserved (s.length + (arg.piece env s.codes).length)) :
    s.Edited (s.codes ++ arg.piece env s.codes) (s.edit reserved junk env (.append arg)) := by
  cases arg with
  | text str strIdx strNum =>
    rw [Arg.piece, ← codesOf_source] at hroom ⊢
    by_cases hempty : (s.codesOf (str.source env)).length = 0
    · have hnil := List.eq_nil_of_length_eq_zero hempty
      have hgood : s.Good := hbuf.resolve_right fun h => h (codesOf_source s env str ▸ hnil)
      rw [hnil, part_nil, List.append_nil]
      change s.Edited _ (s.appendText reserved junk _ _ _)
      rw [Store.appendText, hs.sized.sizeOf_eq, if_pos hempty]
      exact hgood.edited
    · exact (Store.appendText_becomes hreserved hs.sized (hs.le_npos henv str) hempty
        hroom).edited s
  | std str strIdx strNum =>
    rw [Arg.piece, List.length_map] at hroom
    refine Store.appendStd_edited hreserved hs.sized str.2 (hbuf.imp_right fun h hnil => h ?_) hfits
      hroom
    rw [Arg.piece, hnil, List.map_nil]
  | utf8 str num =>
    rw [Arg.piece, List.length_map] at hroom
    by_cases hzero : num = 0
    · subst hzero
      have hgood : s.Good := hbuf.resolve_right fun h => h rfl
      rw [Arg.piece, List.take_zero, List.map_nil, List.append_nil]
      exact hgood.edited
    · exact (Store.appendUtf8_becomes hreserved hs.sized hzero hroom).edited s
  | fill num code =>
    rw [Arg.piece, List.length_replicate] at hroom
    exact (Store.appendFill_becomes hreserved hs.sized hroom).edited s

theorem insert_edited {arg : Arg} {idx : ℕ} (hfits : (Call.insert idx arg).Fits env s)
    (hbuf : s.Good ∨ ¬arg.Nothing env s.codes)
    (hroom : s.Room reserved (s.length + (arg.piece env s.codes).length)) :
    s.Edited (s.codes.take idx ++ arg.piece env s.codes ++ s.codes.drop idx)
      (s.edit reserved junk env (.insert idx arg)) := by
  by_cases hnothing : arg.Nothing env s.codes
  · have hgood : s.Good := hbuf.resolve_right (not_not.2 hnothing)
    obtain ⟨hedit, hpiece⟩ := insert_nothing hs.sized hnothing
    rw [hedit, hpiece, List.append_nil, List.take_append_drop]
    exact hgood.edited
  obtain ⟨hidx, harg⟩ := hfits
  replace hidx : s.length = 0 → idx = 0 := fun h => (hidx h).resolve_right hnothing
  cases arg with
  | text str strIdx strNum =>
    rw [Arg.piece, ← codesOf_source] at hroom ⊢
    have hne : (s.codesOf (str.source env)).length ≠ 0 := fun h =>
      hnothing ((codesOf_source s env str).symm.trans (List.eq_nil_of_length_eq_zero h))
    refine (Store.insertText_becomes hreserved hs.sized (hs.le_npos henv str) hidx hne hroom
      ?_).edited s
    cases str with
    | self => exact fun _ => harg
    | other k => exact fun h => nomatch h
  | std str strIdx strNum =>
    rw [Arg.piece, List.length_map] at hroom
    exact (Store.insertStd_becomes hreserved hs.sized str.2 hidx hnothing harg.1 harg.2
      hroom).edited s
  | utf8 str num =>
    rw [Arg.piece, List.length_map] at hroom
    exact (Store.insertUtf8_becomes hreserved hs.sized hidx hroom).edited s
  | fill num code =>
    rw [Arg.piece, List.length_replicate] at hroom
    exact (Store.insertFill_becomes hreserved hs.sized hidx hnothing harg hroom).edited s

theorem replace_edited {arg : Arg} {idx len : ℕ} (hfits : (Call.replace idx len arg).Fits env s)
    (hroom : s.Room reserved (s.length - s.gapOf idx len + (arg.piece env s.codes).length)) :
    s.Edited (s.codes.take idx ++ arg.piece env s.codes ++ s.codes.drop (idx + len))
      (s.edit reserved junk env (.replace idx len arg)) := by
  obtain ⟨hlen, harg⟩ := hfits
  cases arg with
  | text str strIdx strNum =>
    rw [Arg.piece, ← codesOf_source] at hroom ⊢
    refine (Store.replaceText_becomes hreserved hs.sized (hs.le_npos henv str) hs.lt_pow hlen harg.1
      hroom ?_).edited s
    cases str with
    | self => exact fun _ => harg.2
    | other k => exact fun h => nomatch h
  | std str strIdx strNum =>
    rw [Arg.piece, List.length_map] at hroom
    exact (Store.replaceStd_becomes hreserved hs.sized str.2 hs.lt_pow hlen harg.1 harg.2
      hroom).edited s
  | utf8 str num =>
    rw [Arg.piece, List.length_map] at hroom
    exact (Store.replaceUtf8_becomes hreserved hs.sized hs.lt_pow hlen harg.1 harg.2 hroom).edited s
  | fill num code =>
    rw [Arg.piece, List.length_replicate] at hroom
    exact (Store.replaceFill_becomes hreserved hs.sized hs.lt_pow hlen hroom).edited s

variable (junk) in
/-- A call whose defects are not met does to a text what it does to a list. -/
theorem edit_edited {call : Call} (hfits : call.Fits env s)
    (hbuf : s.Good ∨ call.Allocates env s.codes)
    (hroom : s.Room reserved (call.apply env s.codes).length) :
    s.Edited (call.apply env s.codes) (s.edit reserved junk env call) := by
  have hlen := hs.length_codes
  cases call with
  | assign arg => exact assign_edited hreserved hs henv hfits hroom
  | append arg =>
    rw [Call.apply, List.length_append, hlen] at hroom
    exact append_edited hreserved hs henv hfits hbuf hroom
  | insert idx arg =>
    rw [Call.apply, length_insert, hlen] at hroom
    exact insert_edited hreserved hs henv hfits hbuf hroom
  | erase idx len => exact Store.erase_edited (hbuf.resolve_right id) hfits
  | resize num code =>
    have hsize : (s.codes.take num ++ List.replicate (num - s.length) code).length = num := by
      simp only [List.length_append, List.length_take, List.length_replicate]
      omega
    rw [Call.apply, hlen] at hroom ⊢
    rw [hsize] at hroom
    refine (Store.resize_becomes hreserved hs.sized (fun hlt => ?_) hroom).edited s
    refine hs.resolve_right fun hfresh => ?_
    have hzero := hfresh.2.2
    omega
  | replace idx len arg =>
    rw [Call.apply, length_gap s _ _ _ _ hlen] at hroom
    exact replace_edited hreserved hs henv hfits hroom
  | pushBack code =>
    rw [Call.apply, List.length_append, hlen] at hroom
    exact (Store.appendFill_becomes hreserved hs.sized hroom).edited s
  | clear => exact Store.clear_edited (hbuf.resolve_right id)
  | reserve num => exact Store.reserve_edited (hbuf.resolve_right id) hfits.1 hfits.2
  | trimSpace => exact Store.trimSpace_edited (hbuf.resolve_right id)

end Edit

end UdtKernel.CText
