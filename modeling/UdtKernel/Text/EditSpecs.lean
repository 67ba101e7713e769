import UdtKernel.Text.Reshape

set_option autoImplicit false

/-! What the edits make of the code points of a text. -/

namespace UdtKernel.CText
open Lib

namespace Store
variable {reserved junk : ℕ → ℕ} {s : Store}

/-- The text is a good one with these code points, of its own or not changed at all, or a check has
    failed. -/
def Edited (s : Store) (codes : List ℕ) (x : Except Fault Store) : Prop :=
  Outcome (· = .check) (fun s' => s'.Good ∧ s'.codes = codes ∧ (s'.shared = false ∨ s' = s)) x

theorem Becomes.edited {codes : List ℕ} {x : Except Fault Store} (h : Becomes codes x)
    (s : Store) : Edited s codes x := h.mono fun _ hs => ⟨hs.1, hs.2.1, .inl hs.2.2⟩

theorem Good.edited (h : s.Good) : Edited s s.codes (.ok s) := ⟨h, rfl, .inr rfl⟩

def codesOf (s : Store) : Source → List ℕ
  | .self => s.codes
  | .other codes => codes

theorem Sized.sizeOf_eq (hs : s.Sized) (src : Source) : s.sizeOf src = (s.codesOf src).length := by
  cases src with
  | self => exact hs.length_codes.symm
  | other codes => rfl

section Fill
variable {n idx len num : ℕ} {s₁ : Store}

/-- A part of a text is copied into a gap as it was before the shift. -/
theorem Shifted.copyFrom (h : s.Shifted n idx len num s₁) (hidx : idx + len ≤ s.length)
    {src : Source} {strIdx : ℕ} (hin : strIdx + num ≤ (s.codesOf src).length)
    (hself : src = .self → Untouched s.length idx len num strIdx num) :
    s₁.copyFrom src idx strIdx num = s₁.put idx (((s.codesOf src).drop strIdx).take num) := by
  cases src with
  | self =>
    have huntouched := hself rfl
    obtain ⟨hread, hsame⟩ := h.kept strIdx num huntouched
    have hapart : ¬(num ≠ 0 ∧ strIdx < idx + num ∧ idx < strIdx + num) := by
      have hcases := huntouched.2
      omega
    rw [Store.copyFrom, if_neg hapart, move, readAt_ok hread, hsame]
    rfl
  | other codes =>
    have hread : readAt codes strIdx num = .ok ((codes.drop strIdx).take num) := readAt_ok hin
    rw [Store.copyFrom, hread]
    rfl

theorem mToUcs4_utf8Of (text : List CodePoint) (pos destLen : ℕ) (s : Store) :
    s.mToUcs4 (utf8Of text) pos destLen 0 =
      s.put pos ((text.take destLen).map Subtype.val) := by
  rw [mToUcs4, if_pos rfl, untilNull_utf8Of, toUcs4_utf8Of]

theorem mLengthOf_utf8Of (text : List CodePoint) (max : ℕ) :
    mLengthOf (utf8Of text) max = .ok (min max text.length) := by
  rw [mLengthOf, lengthOf_utf8Of]

end Fill

theorem emptied_becomes (hreserved : ∀ n, n ≤ reserved n) (hs : s.Sized)
    (hroom : Room reserved s 0) : Becomes [] (s.emptied reserved junk) := by
  refine (grow_outcome hreserved hs.changed (changed_shared s) hroom.changed).bind fun s' hs' => ?_
  exact setLen_becomes hs'.memory hs'.room hs'.own hs'.small rfl

@[simp] theorem changed_codesOf (s : Store) (src : Source) :
    s.changed.codesOf src = s.codesOf src := by
  cases src with
  | self => exact changed_codes s
  | other codes => rfl

theorem appendWith_becomes (hreserved : ∀ n, n ≤ reserved n) (hs : s.Sized) {piece : List ℕ}
    {num : ℕ} (hpiece : piece.length = num) (hroom : Room reserved s (s.length + num))
    {fill : Store → Except Fault Store}
    (hfill : ∀ n s₁, s.changed.Shifted n s.length 0 num s₁ → fill s₁ = s₁.put s.length piece) :
    Becomes (s.codes ++ piece) (s.appendWith reserved junk num fill) := by
  subst hpiece
  have hlen := hs.length_codes
  have hsize : addSize s.length piece.length = s.length + piece.length := Nat.mod_eq_of_lt hroom.1
  have hend : s.length + 0 = s.changed.length := (changed_length s).symm
  have hgrown : Becomes (s.changed.codes.take s.length ++ piece ++
      s.changed.codes.drop (s.length + 0))
      (s.changed.grown reserved junk (s.length + piece.length) fill) :=
    grown_outcome hreserved hs.changed (changed_shared s) (Nat.le_of_eq hend) (by simp)
      hroom.changed fun s' hs' =>
        have hshifted := hs'.shifted_end hend piece.length
        ⟨s', hshifted, hfill _ s' hshifted⟩
  rw [changed_codes, Nat.add_zero, List.drop_of_length_le (Nat.le_of_eq hlen), List.append_nil,
    List.take_of_length_le (Nat.le_of_eq hlen)] at hgrown
  rwa [appendWith, hsize]

theorem insertWith_becomes (hreserved : ∀ n, n ≤ reserved n) (hs : s.Sized) {idx : ℕ}
    (hidx : s.length = 0 → idx = 0) {piece : List ℕ} {num : ℕ} (hpiece : piece.length = num)
    (hroom : Room reserved s (s.length + num)) {fill : Store → Except Fault Store}
    (hfill : ∀ n s₁, idx ≤ s.length → s.changed.Shifted n idx 0 num s₁ →
      fill s₁ = s₁.put idx piece) :
    Becomes (s.codes.take idx ++ piece ++ s.codes.drop idx)
      (s.insertWith reserved junk idx num fill) := by
  subst hpiece
  refine (check_outcome _).bind fun _ hcheck => ?_
  have hle : idx ≤ s.length := by
    by_cases hzero : s.length = 0
    · rw [hidx hzero]
      exact Nat.zero_le _
    · exact Nat.le_of_lt (hcheck hzero)
  have hlt : s.length + piece.length < 2 ^ 64 := hroom.1
  have hsize : addSize s.length piece.length = s.length + piece.length := Nat.mod_eq_of_lt hlt
  have hpos : addSize idx piece.length = idx + piece.length := Nat.mod_eq_of_lt (by omega)
  have hrest : subSize s.length idx = s.length - idx - 0 := by
    unfold subSize
    omega
  have hgap : idx + 0 ≤ s.changed.length := by rwa [changed_length]
  have hn : s.length + piece.length + 0 = s.changed.length + piece.length := by simp
  rw [hsize, ← changed_codes s]
  refine grown_outcome hreserved hs.changed (changed_shared s) hgap hn hroom.changed
    fun s' hs' => ?_
  obtain ⟨s₁, hmove, hshifted⟩ := hs'.move hgap hn
  have hlength : s'.length = s.length := hs'.length_eq.trans (changed_length s)
  rw [changed_length] at hmove
  refine ⟨s₁, hshifted, ?_⟩
  simp only [hpos, hlength, hrest]
  change (s'.move (idx + piece.length) (idx + 0) (s.length - idx - 0) >>= fill) = _
  rw [hmove]
  exact hfill _ s₁ hle hshifted

def gapOf (s : Store) (idx len : ℕ) : ℕ := min len (s.length - idx)

theorem Sized.drop_gap (hs : s.Sized) {idx : ℕ} (hidx : idx ≤ s.length) (len : ℕ) :
    s.codes.drop (idx + len) = s.codes.drop (idx + s.gapOf idx len) := by
  by_cases hle : idx + len ≤ s.length
  · rw [gapOf, Nat.min_eq_left (by omega)]
  · have hcodes := hs.length_codes
    rw [List.drop_of_length_le (by omega), gapOf, Nat.min_eq_right (by omega),
      List.drop_of_length_le (by omega)]

theorem replaceWith_becomes (hreserved : ∀ n, n ≤ reserved n) (hs : s.Sized)
    (hsmall : s.length < 2 ^ 64) {idx len : ℕ} (hidx : idx ≤ s.length)
    (hlen : len = npos ∨ idx + len < 2 ^ 64) {piece : List ℕ} {num : ℕ}
    (hpiece : piece.length = num) (hroom : Room reserved s (s.length - s.gapOf idx len + num))
    {fill : Store → Except Fault Store}
    (hfill : ∀ n s₁, s.changed.Shifted n idx (s.gapOf idx len) num s₁ →
      fill s₁ = s₁.put idx piece) :
    Becomes (s.codes.take idx ++ piece ++ s.codes.drop (idx + len))
      (s.replaceWith reserved junk idx len num fill) := by
  subst hpiece
  have hclip : (if s.length < addSize len idx ∨ len = npos then s.length - idx else len) =
      s.gapOf idx len := by
    unfold gapOf npos addSize at *
    split_ifs with h <;> omega
  have hdrop := hs.drop_gap hidx len
  have hgap : idx + s.gapOf idx len ≤ s.changed.length := by
    rw [changed_length, gapOf]
    omega
  have hle : s.gapOf idx len ≤ s.length := by
    rw [gapOf]
    omega
  have hlt : s.length - s.gapOf idx len + piece.length < 2 ^ 64 := hroom.1
  have hsize : subSize (addSize s.length piece.length) (s.gapOf idx len) =
      s.length - s.gapOf idx len + piece.length := by
    unfold subSize addSize
    omega
  have hn : s.length - s.gapOf idx len + piece.length + s.gapOf idx len =
      s.changed.length + piece.length := by
    rw [changed_length]
    omega
  rw [replaceWith, hclip, hsize, hdrop, ← changed_codes s]
  refine grown_outcome hreserved hs.changed (changed_shared s) hgap hn hroom.changed
    fun s' hs' => ?_
  have hlength : s'.length = s.length := hs'.length_eq.trans (changed_length s)
  rw [changed_length] at hgap
  have hpos : addSize idx piece.length = idx + piece.length := Nat.mod_eq_of_lt (by omega)
  have hbehind : addSize idx (s.gapOf idx len) = idx + s.gapOf idx len :=
    Nat.mod_eq_of_lt (by omega)
  have hstart : addSize (s.gapOf idx len) idx = idx + s.gapOf idx len := by
    rw [addSize, Nat.add_comm]
    exact Nat.mod_eq_of_lt (by omega)
  have hrest : subSize (s.length - idx) (s.gapOf idx len) = s.length - idx - s.gapOf idx len := by
    unfold subSize
    omega
  simp only [hpos, hbehind, hstart, hlength, hrest]
  by_cases hend : idx + s.gapOf idx len < s.length
  · obtain ⟨s₁, hmove, hshifted⟩ := hs'.move (by rwa [changed_length]) hn
    rw [changed_length] at hmove
    refine ⟨s₁, hshifted, ?_⟩
    rw [if_pos hend, hmove]
    exact hfill _ s₁ hshifted
  · have hlast : idx + s.gapOf idx len = s.changed.length := by
      rw [changed_length]
      omega
    have hshifted := hs'.shifted_end hlast piece.length
    refine ⟨s', hshifted, ?_⟩
    rw [if_neg hend]
    exact hfill _ s' hshifted

theorem Grown.setLen {n : ℕ} {s' : Store} (h : s.Grown n s') :
    s'.setLen n = .ok { s' with buf := overwrite s'.buf n [0], length := n } := by
  have hroom := h.room
  have hmemory := h.memory
  have hinside : n + [0].length ≤ s'.buf.length := by
    rw [List.length_singleton]
    omega
  exact if_pos hinside

/-- A text of a size is written over from its start. -/
theorem Grown.written {n : ℕ} {s' : Store} (h : s.Grown n s') {piece : List ℕ}
    (hpiece : piece.length = n) :
    Becomes piece (put 0 piece { s' with buf := overwrite s'.buf n [0], length := n }) := by
  have hroom := h.room
  have hmemory := h.memory
  have hinside : n + [0].length ≤ s'.buf.length := by
    rw [List.length_singleton]
    omega
  have hlen : (overwrite s'.buf n [0]).length = s'.buf.length := length_overwrite hinside
  have hall : 0 + piece.length ≤ (overwrite s'.buf n [0]).length := by omega
  rw [put, if_pos hall]
  refine ⟨⟨(length_overwrite hall).trans (hlen.trans hmemory), hroom, ?_, h.small⟩, ?_, h.own⟩
  · change (overwrite (overwrite s'.buf n [0]) 0 piece)[n]? = some 0
    rw [getElem?_overwrite (Nat.zero_le _), if_neg (by omega), if_neg (by omega),
      getElem?_overwrite (by omega), if_neg (by omega), List.length_singleton, if_pos (by omega),
      Nat.sub_self]
    rfl
  · change (overwrite (overwrite s'.buf n [0]) 0 piece).take n = piece
    rw [overwrite, List.take_zero, List.nil_append, ← hpiece, List.take_left]

end Store

def part {α : Type} (l : List α) (idx num : ℕ) : List α := (l.drop idx).take num

theorem part_clip {α : Type} {l : List α} (hl : l.length ≤ npos) (idx num : ℕ) :
    part l idx (clip num (l.length - idx)) = part l idx num := by
  unfold part clip
  split_ifs with h
  · rw [List.take_of_length_le (by rw [List.length_drop]), List.take_of_length_le]
    rw [List.length_drop]
    omega
  · rfl

theorem length_part_clip {α : Type} {l : List α} {idx : ℕ} (hidx : idx ≤ l.length) (num : ℕ) :
    (part l idx (clip num (l.length - idx))).length = clip num (l.length - idx) ∧
      idx + clip num (l.length - idx) ≤ l.length := by
  unfold part clip
  rw [List.length_take, List.length_drop]
  split_ifs <;> omega

theorem clipReplaced_eq {strIdx strNum size : ℕ} (hstr : strNum = npos ∨ strIdx + strNum < 2 ^ 64)
    (hidx : strIdx ≤ size) :
    Store.clipReplaced strIdx strNum size = clip strNum (size - strIdx) := by
  unfold Store.clipReplaced clip addSize npos at *
  split_ifs <;> omega

theorem part_nil {α : Type} (idx num : ℕ) : part ([] : List α) idx num = [] := by simp [part]

namespace Store
variable {reserved junk : ℕ → ℕ} {s : Store} (hreserved : ∀ n, n ≤ reserved n) (hs : s.Sized)
include hreserved hs

section Text
variable {src : Source} (hsrc : (s.codesOf src).length ≤ npos) {strIdx strNum : ℕ}
include hsrc

theorem assignText_becomes
    (hroom : Room reserved s (part (s.codesOf src) strIdx strNum).length)
    (hself : src = .self → (part s.codes strIdx strNum).length = 0 ∨
      (part s.codes strIdx strNum).length < strIdx) :
    Becomes (part (s.codesOf src) strIdx strNum)
      (s.assignText reserved junk src strIdx strNum) := by
  rw [assignText, hs.sizeOf_eq]
  by_cases hempty : (s.codesOf src).length = 0
  · rw [if_pos hempty]
    rw [List.eq_nil_of_length_eq_zero hempty, part_nil] at hroom ⊢
    exact emptied_becomes hreserved hs hroom
  rw [if_neg hempty]
  refine (check_outcome _).bind fun _ hlt => ?_
  obtain ⟨hlen, hin⟩ := length_part_clip (Nat.le_of_lt hlt) strNum
  have hpart := part_clip hsrc strIdx strNum
  generalize clip strNum ((s.codesOf src).length - strIdx) = n at hlen hin hpart ⊢
  rw [← hpart] at hroom ⊢
  rw [hlen] at hroom
  refine (grow_outcome hreserved hs.changed (changed_shared s) hroom.changed).bind fun s' hs' => ?_
  have hcopy : copyFrom src 0 strIdx n { s' with buf := overwrite s'.buf n [0], length := n } =
      put 0 (part (s.codesOf src) strIdx n)
        { s' with buf := overwrite s'.buf n [0], length := n } := by
    cases src with
    | self =>
      have hapart : n = 0 ∨ n < strIdx := by
        rw [← hlen, hpart]
        exact hself rfl
      have hlength : s.codes.length = s.changed.length := by rw [hs.length_codes, changed_length]
      have hle : strIdx + n ≤ s.changed.length := hlength ▸ hin
      have hbuf := hs'.le_buf
      have hroom' := hs'.room
      have hmemory := hs'.memory
      have hsame : ((overwrite s'.buf n [0]).drop strIdx).take n = part s.codes strIdx n := by
        rw [take_drop_overwrite (by omega) (by rw [List.length_singleton]; omega),
          hs'.take_drop hle, changed_codes]
        rfl
      have hread : readAt (overwrite s'.buf n [0]) strIdx n = .ok (part s.codes strIdx n) := by
        rw [readAt_ok, hsame]
        rw [length_overwrite (by rw [List.length_singleton]; omega)]
        omega
      rw [copyFrom, if_neg (by omega), move, hread]
      rfl
    | other codes =>
      have hread : readAt codes strIdx n = .ok (part codes strIdx n) := readAt_ok hin
      rw [copyFrom, hread]
      rfl
  rw [hs'.setLen]
  change Becomes _ (copyFrom src 0 strIdx n _)
  rw [hcopy]
  exact hs'.written hlen

theorem appendText_becomes (hne : (s.codesOf src).length ≠ 0)
    (hroom : Room reserved s (s.length + (part (s.codesOf src) strIdx strNum).length)) :
    Becomes (s.codes ++ part (s.codesOf src) strIdx strNum)
      (s.appendText reserved junk src strIdx strNum) := by
  rw [appendText, hs.sizeOf_eq, if_neg hne]
  refine (check_outcome _).bind fun _ hlt => ?_
  obtain ⟨hlen, hin⟩ := length_part_clip (Nat.le_of_lt hlt) strNum
  have hpart := part_clip hsrc strIdx strNum
  generalize clip strNum ((s.codesOf src).length - strIdx) = n at hlen hin hpart ⊢
  rw [← hpart] at hroom ⊢
  rw [hlen] at hroom
  refine appendWith_becomes hreserved hs hlen hroom fun m s₁ hs₁ => ?_
  rw [hs₁.copyFrom (by simp) (by simpa using hin), changed_codesOf, part]
  rintro rfl
  have hle : strIdx + n ≤ s.length := hs.length_codes ▸ hin
  exact ⟨by simpa using hle, .inr (.inl hle)⟩

theorem insertText_becomes {idx : ℕ} (hidx : s.length = 0 → idx = 0)
    (hne : (s.codesOf src).length ≠ 0)
    (hroom : Room reserved s (s.length + (part (s.codesOf src) strIdx strNum).length))
    (hself : src = .self → (part s.codes strIdx strNum).length = 0 ∨
      strIdx + (part s.codes strIdx strNum).length ≤ idx) :
    Becomes (s.codes.take idx ++ part (s.codesOf src) strIdx strNum ++ s.codes.drop idx)
      (s.insertText reserved junk idx src strIdx strNum) := by
  rw [insertText, hs.sizeOf_eq, if_neg hne]
  refine (check_outcome _).bind fun _ hlt => ?_
  obtain ⟨hlen, hin⟩ := length_part_clip (Nat.le_of_lt hlt) strNum
  have hpart := part_clip hsrc strIdx strNum
  generalize clip strNum ((s.codesOf src).length - strIdx) = n at hlen hin hpart ⊢
  rw [← hpart] at hroom ⊢
  rw [hlen] at hroom
  refine insertWith_becomes hreserved hs hidx hlen hroom fun m s₁ hle hs₁ => ?_
  rw [hs₁.copyFrom (by simpa using hle) (by simpa using hin), changed_codesOf, part]
  rintro rfl
  have hself' := hself rfl
  have hin' : strIdx + n ≤ s.length := hs.length_codes ▸ hin
  have hlen' : (part s.codes strIdx strNum).length = n := hpart ▸ hlen
  rw [hlen'] at hself'
  exact ⟨by simpa using hin', hself'.imp_right .inl⟩

/-- Where a text gives a part of itself for a gap: what the part holds is neither shifted nor
    written over. -/
def Apart (s : Store) (idx len strIdx n : ℕ) : Prop :=
  n = 0 ∨ strIdx + n ≤ idx ∨ s.length - s.gapOf idx len + n ≤ strIdx ∨
    (n = s.gapOf idx len ∧ idx + n ≤ strIdx)

theorem replaceText_becomes (hsmall : s.length < 2 ^ 64) {idx len : ℕ}
    (hlen : len = npos ∨ idx + len < 2 ^ 64) (hstr : strNum = npos ∨ strIdx + strNum < 2 ^ 64)
    (hroom : Room reserved s
      (s.length - s.gapOf idx len + (part (s.codesOf src) strIdx strNum).length))
    (hself : src = .self → s.Apart idx len strIdx (part s.codes strIdx strNum).length) :
    Becomes (s.codes.take idx ++ part (s.codesOf src) strIdx strNum ++ s.codes.drop (idx + len))
      (s.replaceText reserved junk idx len src strIdx strNum) := by
  rw [replaceText, hs.sizeOf_eq]
  refine (check_outcome _).bind fun _ hidx => (check_outcome _).bind fun _ hle => ?_
  obtain ⟨hlength, hin⟩ := length_part_clip hle strNum
  have hpart := part_clip hsrc strIdx strNum
  rw [clipReplaced_eq hstr hle]
  generalize clip strNum ((s.codesOf src).length - strIdx) = n at hlength hin hpart ⊢
  rw [← hpart] at hroom ⊢
  rw [hlength] at hroom
  refine replaceWith_becomes hreserved hs hsmall hidx hlen hlength hroom fun m s₁ hs₁ => ?_
  have hgap : idx + s.gapOf idx len ≤ s.changed.length := by
    rw [changed_length, gapOf]
    omega
  rw [hs₁.copyFrom hgap (by simpa using hin), changed_codesOf, part]
  rintro rfl
  have hself' := hself rfl
  have hin' : strIdx + n ≤ s.length := hs.length_codes ▸ hin
  have hlen' : (part s.codes strIdx strNum).length = n := hpart ▸ hlength
  rw [hlen'] at hself'
  exact ⟨by simpa using hin', by simpa [Apart] using hself'⟩

end Text

section Utf8
variable {text : List CodePoint} {num : ℕ}

theorem assignUtf8_becomes (hroom : Room reserved s (text.take num).length) :
    Becomes ((text.take num).map Subtype.val)
      (s.assignUtf8 reserved junk (utf8Of text) num) := by
  rw [assignUtf8]
  by_cases hzero : num = 0
  · subst hzero
    rw [if_pos rfl]
    exact emptied_becomes hreserved hs hroom
  rw [if_neg hzero, mLengthOf_utf8Of]
  refine (check_outcome _).bind fun _ _ => (check_outcome _).bind fun _ hle => ?_
  have hlen : (text.take num).length = num := by
    rw [List.length_take]
    omega
  rw [hlen] at hroom
  refine (grow_outcome hreserved hs.changed (changed_shared s) hroom.changed).bind fun s' hs' => ?_
  have hroom' := hs'.room
  have hmemory := hs'.memory
  have hinside : 0 + ((text.take s'.bufLen).map Subtype.val).length ≤ s'.buf.length := by
    rw [List.length_map, List.length_take]
    omega
  let s₂ : Store :=
    { s' with buf := overwrite s'.buf 0 ((text.take s'.bufLen).map Subtype.val) }
  have hput : s'.put 0 ((text.take s'.bufLen).map Subtype.val) = .ok s₂ := if_pos hinside
  have hmemory₂ : s₂.buf.length = s₂.bufLen := (length_overwrite hinside).trans hmemory
  change Becomes _ (s'.mToUcs4 (utf8Of text) 0 s'.bufLen 0 >>= setLen num)
  rw [mToUcs4_utf8Of, hput]
  refine setLen_becomes hmemory₂ hroom' hs'.own hs'.small ?_
  change (overwrite s'.buf 0 _).take num = _
  rw [overwrite, List.take_zero, List.nil_append, List.take_append_of_le_length, ← List.map_take,
    List.take_take, Nat.min_eq_left (Nat.le_of_lt hroom')]
  rw [List.length_map, List.length_take]
  omega

theorem appendUtf8_becomes (hne : num ≠ 0)
    (hroom : Room reserved s (s.length + (text.take num).length)) :
    Becomes (s.codes ++ (text.take num).map Subtype.val)
      (s.appendUtf8 reserved junk (utf8Of text) num) := by
  rw [appendUtf8, if_neg hne, mLengthOf_utf8Of]
  refine (check_outcome _).bind fun _ _ => (check_outcome _).bind fun _ hle => ?_
  have hlen : (text.take num).length = num := by
    rw [List.length_take]
    omega
  rw [hlen] at hroom
  exact appendWith_becomes hreserved hs (by rw [List.length_map, hlen]) hroom
    fun m s₁ _ => mToUcs4_utf8Of text s.length num s₁

theorem insertUtf8_becomes {idx : ℕ} (hidx : s.length = 0 → idx = 0)
    (hroom : Room reserved s (s.length + (text.take num).length)) :
    Becomes (s.codes.take idx ++ (text.take num).map Subtype.val ++ s.codes.drop idx)
      (s.insertUtf8 reserved junk idx (utf8Of text) num) := by
  rw [insertUtf8, mLengthOf_utf8Of]
  refine (check_outcome _).bind fun _ _ => (check_outcome _).bind fun _ hle => ?_
  have hlen : (text.take num).length = num := by
    rw [List.length_take]
    omega
  rw [hlen] at hroom
  exact insertWith_becomes hreserved hs hidx (by rw [List.length_map, hlen]) hroom
    fun m s₁ _ _ => mToUcs4_utf8Of text idx num s₁

theorem replaceUtf8_becomes (hsmall : s.length < 2 ^ 64) {idx len : ℕ}
    (hlen : len = npos ∨ idx + len < 2 ^ 64) (hnum : num ≤ text.length)
    (hascii : ∀ c ∈ text.take num, isAscii c)
    (hroom : Room reserved s (s.length - s.gapOf idx len + (text.take num).length)) :
    Becomes (s.codes.take idx ++ (text.take num).map Subtype.val ++ s.codes.drop (idx + len))
      (s.replaceUtf8 reserved junk idx len (utf8Of text) num) := by
  rw [replaceUtf8, mLengthOf_utf8Of]
  refine (check_outcome _).bind fun _ hidx => (check_outcome _).bind fun _ _ =>
    (check_outcome _).bind fun _ _ => ?_
  have hlength : (text.take num).length = num := by
    rw [List.length_take]
    omega
  rw [hlength] at hroom
  refine replaceWith_becomes hreserved hs hsmall hidx hlen (by rw [List.length_map, hlength]) hroom
    fun m s₁ _ => ?_
  -- so many bytes are as many characters
  rw [mToUcs4]
  by_cases hzero : num = 0
  · rw [if_pos hzero, hzero]
    rfl
  · have hbytes := length_le_utf8Of text
    rw [if_neg hzero, if_pos (by omega), List.take_append_of_le_length (by omega),
      utf8Of_take hascii, toUcs4_utf8Of, List.take_take, Nat.min_self]

end Utf8

end Store

/-- An index and a number of characters that a `std::string` takes for bytes, and yet takes
    right: no character before the index is of more than one byte, and a number that goes over
    the end is no less than the number of the characters. -/
def ByteExact (text : List CodePoint) (strIdx strNum : ℕ) : Prop :=
  (∀ c ∈ text.take strIdx, isAscii c) ∧
    (strNum = npos ∨ strIdx + strNum ≤ (utf8Of text).length ∨ text.length ≤ strNum)

theorem tailOf_utf8Of {text : List CodePoint} (htext : (utf8Of text).length < 2 ^ 64)
    {strIdx strNum : ℕ} (hidx : strIdx ≤ text.length) (hexact : ByteExact text strIdx strNum) :
    ∃ k, Store.tailOf (utf8Of text) strIdx strNum = .ok (utf8Of (text.drop strIdx), k) ∧
      (text.drop strIdx).take k = part text strIdx strNum := by
  obtain ⟨hascii, hnum⟩ := hexact
  have hbytes := length_le_utf8Of text
  have hin : strIdx ≤ (utf8Of text).length := by omega
  have hrest : subSize (utf8Of text).length strIdx = (utf8Of text).length - strIdx := by
    unfold subSize
    omega
  have hcount : subSize text.length strIdx = text.length - strIdx := by
    unfold subSize
    omega
  rw [Store.tailOf, hrest]
  by_cases hover : strNum = npos ∨ (utf8Of text).length - strIdx < strNum
  · have hall : text.length ≤ strNum := by
      unfold npos at *
      omega
    refine ⟨text.length - strIdx, ?_, ?_⟩
    · rw [if_pos hover, Store.mLengthOf_utf8Of, Nat.min_eq_right hall, ← hcount]
      change (if strIdx ≤ (utf8Of text).length then _ else _) = _
      rw [if_pos hin, utf8Of_drop hascii]
    · rw [part, List.take_of_length_le (by rw [List.length_drop]),
        List.take_of_length_le (by rw [List.length_drop]; omega)]
  · refine ⟨strNum, ?_, rfl⟩
    rw [if_neg hover]
    change (if strIdx ≤ (utf8Of text).length then _ else _) = _
    rw [if_pos hin, utf8Of_drop hascii]

/-- An index inside of the bytes is one inside of the characters. -/
theorem le_length_of_lt {text : List CodePoint} {strIdx : ℕ}
    (hascii : ∀ c ∈ text.take strIdx, isAscii c) (hlt : strIdx < (utf8Of text).length) :
    strIdx ≤ text.length := by
  by_contra hover
  rw [List.take_of_length_le (by omega)] at hascii
  rw [length_utf8Of hascii] at hlt
  omega

namespace Store
variable {reserved junk : ℕ → ℕ} {s : Store} (hreserved : ∀ n, n ≤ reserved n) (hs : s.Sized)
  {text : List CodePoint} (htext : (utf8Of text).length < 2 ^ 64) {strIdx strNum : ℕ}
include hreserved hs htext

theorem assignStd_becomes (hexact : ByteExact text strIdx strNum)
    (hroom : Room reserved s (part text strIdx strNum).length) :
    Becomes ((part text strIdx strNum).map Subtype.val)
      (s.assignStd reserved junk (utf8Of text) strIdx strNum) := by
  rw [assignStd]
  by_cases hempty : utf8Of text = []
  · rw [if_pos hempty]
    obtain rfl := utf8Of_eq_nil.1 hempty
    rw [part_nil] at hroom ⊢
    exact emptied_becomes hreserved hs hroom
  rw [if_neg hempty]
  refine (check_outcome _).bind fun _ hlt => ?_
  obtain ⟨k, htail, hpart⟩ := tailOf_utf8Of htext (le_length_of_lt hexact.1 hlt) hexact
  rw [← hpart] at hroom ⊢
  rw [htail]
  exact assignUtf8_becomes hreserved hs hroom

theorem appendStd_edited (hbuf : s.Good ∨ part text strIdx strNum ≠ [])
    (hexact : ByteExact text strIdx strNum)
    (hroom : Room reserved s (s.length + (part text strIdx strNum).length)) :
    Edited s (s.codes ++ (part text strIdx strNum).map Subtype.val)
      (s.appendStd reserved junk (utf8Of text) strIdx strNum) := by
  rw [appendStd]
  by_cases hempty : utf8Of text = []
  · obtain rfl := utf8Of_eq_nil.1 hempty
    rw [part_nil] at hbuf ⊢
    rw [if_pos hempty, List.map_nil, List.append_nil]
    exact (hbuf.resolve_right fun h => h rfl).edited
  rw [if_neg hempty]
  refine (check_outcome _).bind fun _ hlt => ?_
  obtain ⟨k, htail, hpart⟩ := tailOf_utf8Of htext (le_length_of_lt hexact.1 hlt) hexact
  rw [← hpart] at hroom hbuf ⊢
  rw [htail]
  by_cases hzero : k = 0
  · subst hzero
    rw [List.take_zero] at hbuf ⊢
    rw [List.map_nil, List.append_nil]
    exact (hbuf.resolve_right fun h => h rfl).edited
  · exact (appendUtf8_becomes hreserved hs hzero hroom).edited s

theorem insertStd_becomes {idx : ℕ} (hidx : s.length = 0 → idx = 0) (hne : text ≠ [])
    (hin : strIdx ≤ text.length) (hexact : ByteExact text strIdx strNum)
    (hroom : Room reserved s (s.length + (part text strIdx strNum).length)) :
    Becomes (s.codes.take idx ++ (part text strIdx strNum).map Subtype.val ++ s.codes.drop idx)
      (s.insertStd reserved junk idx (utf8Of text) strIdx strNum) := by
  rw [insertStd, if_neg (mt utf8Of_eq_nil.1 hne)]
  obtain ⟨k, htail, hpart⟩ := tailOf_utf8Of htext hin hexact
  rw [← hpart] at hroom ⊢
  rw [htail]
  exact insertUtf8_becomes hreserved hs hidx hroom

theorem replaceStd_becomes (hsmall : s.length < 2 ^ 64) {idx len : ℕ}
    (hlen : len = npos ∨ idx + len < 2 ^ 64) (hstr : strNum = npos ∨ strIdx + strNum < 2 ^ 64)
    (hascii : ∀ c ∈ text.take (strIdx + strNum), isAscii c)
    (hroom : Room reserved s (s.length - s.gapOf idx len + (part text strIdx strNum).length)) :
    Becomes (s.codes.take idx ++ (part text strIdx strNum).map Subtype.val ++
      s.codes.drop (idx + len))
      (s.replaceStd reserved junk idx len (utf8Of text) strIdx strNum) := by
  rw [replaceStd]
  refine (check_outcome _).bind fun _ hidx => (check_outcome _).bind fun _ hle => ?_
  rw [clipReplaced_eq hstr hle]
  have hsize : ((utf8Of text).map Fin.val).length = (utf8Of text).length := List.length_map _
  have hbytes : part ((utf8Of text).map Fin.val) strIdx strNum =
      (part text strIdx strNum).map Subtype.val := by
    have htake : part (utf8Of text) strIdx strNum =
        ((utf8Of text).take (strIdx + strNum)).drop strIdx := by
      rw [part, List.drop_take, Nat.add_sub_cancel_left]
    have hfront : ∀ c ∈ (text.take (strIdx + strNum)).take strIdx, isAscii c :=
      fun c hc => hascii c (List.mem_of_mem_take hc)
    have hpart : part text strIdx strNum = (text.take (strIdx + strNum)).drop strIdx := by
      rw [part, List.drop_take, Nat.add_sub_cancel_left]
    rw [hpart, ← utf8Of_val fun c hc => hascii c (List.mem_of_mem_drop hc), ← utf8Of_drop hfront,
      ← utf8Of_take hascii, ← htake, part, part, List.map_take, List.map_drop]
  rw [← hsize] at hle ⊢
  obtain ⟨hlength, hin⟩ := length_part_clip hle strNum
  have hpart := part_clip (l := (utf8Of text).map Fin.val) (by unfold npos; omega) strIdx strNum
  generalize clip strNum (((utf8Of text).map Fin.val).length - strIdx) = n at hlength hin hpart ⊢
  have hcount : (part text strIdx strNum).length = n := by
    rw [← hlength, hpart, hbytes, List.length_map]
  rw [hcount] at hroom
  refine replaceWith_becomes hreserved hs hsmall hidx hlen (by rw [List.length_map, hcount]) hroom
    fun m s₁ _ => ?_
  have hread : readAt ((utf8Of text).map Fin.val) strIdx n =
      .ok (part ((utf8Of text).map Fin.val) strIdx n) := readAt_ok hin
  rw [hread, hpart, hbytes]
  rfl

end Store

end UdtKernel.CText
