import UdtKernel.Text.Edits
import Mathlib.Data.List.Infix

set_option autoImplicit false

/-! The overloads of `compare`. -/

namespace UdtKernel.CText

/-- The order of a part of a text beside an empty one. -/
def emptyOrder (aLen size : ℕ) : ℤ := if min aLen size ≠ 0 then 1 else 0

def lengthOrder (aLen aStrLen : ℕ) : ℤ :=
  if aLen < aStrLen then -1 else if aLen = aStrLen then 0 else 1

def codeOrder (a b : ℕ) : ℤ := if a < b then -1 else 1

section Compare
variable (codes : List ℕ)

def comparePairs (str : List ℕ) : ℕ → ℕ → ℕ → Except Fault (Option ℤ)
  | 0, _, _ => .ok none
  | n + 1, i, j => do
    let a ← codeAt codes i
    let b ← codeAt str j
    if a ≠ b then return some (codeOrder a b) else comparePairs str n (i + 1) (j + 1)

/-- The loop over code points and the characters of a string. -/
def compareBytes : ℕ → ℕ → List Byte → Except Fault (Option ℤ)
  | 0, _, _ => .ok none
  | _ + 1, _, [] => .ok none
  | n + 1, i, b :: l => do
    let _code := nextCode ((b :: l).take (seqLen b))
    let a ← codeAt codes i
    if a ≠ _code then return some (codeOrder a _code)
    else compareBytes n (i + 1) ((b :: l).drop (seqLen b))

def compareText (aFirst aLen : ℕ) (aStr : List ℕ) (aStrFirst aStrLen : ℕ) : Except Fault ℤ :=
  if aStr = [] then .ok (emptyOrder aLen codes.length)
  else if codes = [] then .ok (-1)
  else do
    check (aFirst < codes.length)
    check (aStrFirst < aStr.length)
    let aStrLen := if aStrLen = npos ∨ aStr.length < addSize aStrFirst aStrLen
      then aStr.length - aStrFirst else aStrLen
    let r ← comparePairs codes aStr (min aLen aStrLen) aFirst aStrFirst
    return r.getD (lengthOrder aLen aStrLen)

/-- The `compare` for UTF-8, of which the bytes before the null are given. -/
def compareUtf8 (aFirst aLen : ℕ) (aRhtStr : List Byte) (aStrLen : ℕ) : Except Fault ℤ :=
  if aStrLen = 0 then .ok (emptyOrder aLen codes.length)
  else if codes = [] then .ok (-1)
  else do
    check (aFirst < codes.length)
    check (aStrLen ≠ npos)
    let aLen := if aLen = npos ∨ codes.length < addSize aFirst aLen
      then codes.length - aFirst else aLen
    let r ← compareBytes codes (min aLen aStrLen) aFirst aRhtStr
    return r.getD (lengthOrder aLen aStrLen)

def compareStd (aFirst aLen : ℕ) (std_str : List Byte) (str_idx str_len : ℕ) : Except Fault ℤ :=
  if std_str = [] then .ok (emptyOrder aLen codes.length)
  else if codes = [] then .ok (-1)
  else do
    check (aFirst < codes.length)
    check (str_idx < std_str.length)
    let str_len ← if str_len = npos ∨ std_str.length < addSize str_idx str_len then
        (mLengthOf std_str str_len).map fun len => subSize len str_idx
      else .ok str_len
    compareUtf8 codes aFirst aLen (untilNull (std_str.drop str_idx)) str_len

end Compare

def firstDiff : List ℕ → List ℕ → Option ℤ
  | a :: l, b :: m => if a ≠ b then some (codeOrder a b) else firstDiff l m
  | _, _ => none

section Fold
variable (fold : ℕ → ℕ)

/-- The loop over the code points of two texts that tests a form of them and ranks them as they
    are. -/
def pairsBy (codes str : List ℕ) : ℕ → ℕ → ℕ → Except Fault (Option ℤ)
  | 0, _, _ => .ok none
  | n + 1, i, j => do
    let a ← codeAt codes i
    let b ← codeAt str j
    if fold a ≠ fold b then return some (codeOrder a b) else pairsBy codes str n (i + 1) (j + 1)

def diffBy : List ℕ → List ℕ → Option ℤ
  | a :: l, b :: m => if fold a ≠ fold b then some (codeOrder a b) else diffBy l m
  | _, _ => none

end Fold

section Specs
variable {codes str : List ℕ} {i j n : ℕ}

theorem codeOrder_ne_zero (a b : ℕ) : codeOrder a b ≠ 0 := by
  unfold codeOrder
  split_ifs <;> decide

theorem lengthOrder_eq_zero : lengthOrder i j = 0 ↔ i = j := by
  unfold lengthOrder
  split_ifs with hlt heq
  · exact iff_of_false (by decide) (Nat.ne_of_lt hlt)
  · exact iff_of_true rfl heq
  · exact iff_of_false (by decide) heq

theorem firstDiff_ne_zero (l m : List ℕ) : ∀ r ∈ firstDiff l m, r ≠ 0 := by
  induction l generalizing m with
  | nil => exact fun r hr => nomatch hr
  | cons a l ih =>
    cases m with
    | nil => exact fun r hr => nomatch hr
    | cons b m =>
      rw [firstDiff]
      split_ifs
      · rintro r ⟨⟩
        exact codeOrder_ne_zero a b
      · exact ih m

theorem firstDiff_eq_none {l m : List ℕ} (h : l.length = m.length) :
    firstDiff l m = none ↔ l = m := by
  induction l generalizing m with
  | nil =>
    obtain rfl := List.length_eq_zero_iff.1 h.symm
    exact ⟨fun _ => rfl, fun _ => rfl⟩
  | cons a l ih =>
    cases m with
    | nil => exact absurd h (Nat.succ_ne_zero _)
    | cons b m =>
      rw [firstDiff]
      by_cases hab : a = b
      · rw [if_neg (not_not_intro hab), ih (Nat.succ.inj h), hab, List.cons_eq_cons]
        exact (and_iff_right rfl).symm
      · rw [if_pos hab]
        exact iff_of_false (fun hnone => nomatch hnone) fun heq => hab (List.cons.inj heq).1

/-- Two texts of one length are ranked as equal just when they are. -/
theorem firstDiff_lengthOrder {l m : List ℕ} (h : l.length = m.length) (k : ℕ) :
    (firstDiff l m).getD (lengthOrder k k) = 0 ↔ l = m := by
  rw [← firstDiff_eq_none h]
  cases hdiff : firstDiff l m with
  | none => exact iff_of_true (lengthOrder_eq_zero.2 rfl) rfl
  | some r => exact iff_of_false (firstDiff_ne_zero l m r hdiff) (fun hnone => nomatch hnone)

theorem drop_of_codeAt {code : ℕ} (h : codes[i]? = some code) :
    codes.drop i = code :: codes.drop (i + 1) := by
  obtain ⟨hlt, hcode⟩ := List.getElem?_eq_some_iff.1 h
  rw [← hcode]
  exact List.drop_eq_getElem_cons hlt

/-- The loop over two texts ranks them where they differ first. -/
theorem pairsBy_eq {fold : ℕ → ℕ} (hi : i + n ≤ codes.length) (hj : j + n ≤ str.length) :
    pairsBy fold codes str n i j =
      .ok (diffBy fold ((codes.drop i).take n) ((str.drop j).take n)) := by
  induction n generalizing i j with
  | zero => rfl
  | succ n ih =>
    obtain ⟨a, ha, hreada⟩ := codeAt_ok (show i < codes.length by omega)
    obtain ⟨b, hb, hreadb⟩ := codeAt_ok (show j < str.length by omega)
    rw [pairsBy, hreada, hreadb, drop_of_codeAt ha, drop_of_codeAt hb, List.take_succ_cons,
      List.take_succ_cons, diffBy]
    change (if fold a ≠ fold b then _ else _) = _
    split_ifs
    · rfl
    · exact ih (by omega) (by omega)

theorem pairsBy_id : pairsBy id codes str n i j = comparePairs codes str n i j := by
  induction n generalizing i j with
  | zero => rfl
  | succ n ih =>
    rw [pairsBy, comparePairs]
    simp only [id, ih]

theorem diffBy_id (l m : List ℕ) : diffBy id l m = firstDiff l m := by
  fun_induction firstDiff l m with
  | case1 a l b m hne => exact if_pos hne
  | case2 a l b m hsame ih => exact (if_neg hsame).trans ih
  | case3 l m hshort => exact diffBy.eq_2 id l m hshort

theorem comparePairs_eq (hi : i + n ≤ codes.length) (hj : j + n ≤ str.length) :
    comparePairs codes str n i j =
      .ok (firstDiff ((codes.drop i).take n) ((str.drop j).take n)) := by
  rw [← pairsBy_id, pairsBy_eq hi hj, diffBy_id]

/-- A part of a text is as another text just when that one stands there. -/
theorem compareText_at (hne : str ≠ []) (hin : i + str.length ≤ codes.length) :
    ∃ r, compareText codes i str.length str 0 npos = .ok r ∧ (r = 0 ↔ str <+: codes.drop i) := by
  have hpos := List.length_pos_iff.2 hne
  have hcodes : codes ≠ [] := List.ne_nil_of_length_pos (by omega)
  have hpart : ((codes.drop i).take str.length).length = str.length := by
    rw [List.length_take, List.length_drop]
    omega
  have hall : 0 + str.length ≤ str.length := by omega
  rw [compareText, if_neg hne, if_neg hcodes, check, if_pos (by omega), check, if_pos hpos]
  simp only [true_or, if_true, Nat.sub_zero, Nat.min_self, bind, Except.bind,
    comparePairs_eq hin hall, List.drop_zero, List.take_length]
  refine ⟨_, rfl, ?_⟩
  rw [firstDiff_lengthOrder hpart, List.prefix_iff_eq_take]
  exact eq_comm

/-- The characters of a string are compared by their codes. -/
theorem compareBytes_eq {text : List CodePoint} (hi : i + n ≤ codes.length)
    (hn : n ≤ text.length) :
    compareBytes codes n i (utf8Of text) =
      .ok (firstDiff ((codes.drop i).take n) ((text.map Subtype.val).take n)) := by
  induction n generalizing i text with
  | zero => rfl
  | succ n ih =>
    cases text with
    | nil => exact absurd hn (Nat.not_succ_le_zero n)
    | cons c text =>
      obtain ⟨b, l, heq, hseq, hnext, -⟩ := appendCode_codePoint c
      obtain ⟨a, ha, hread⟩ := codeAt_ok (show i < codes.length by omega)
      have htake : (b :: (l ++ utf8Of text)).take (seqLen b) = b :: l := by
        rw [hseq, List.take_succ_cons, List.take_left]
      have hdrop : (b :: (l ++ utf8Of text)).drop (seqLen b) = utf8Of text := by
        rw [hseq, List.drop_succ_cons, List.drop_left]
      rw [utf8Of_cons, heq, List.cons_append, compareBytes, hread, htake, hdrop, hnext,
        drop_of_codeAt ha, List.map_cons, List.take_succ_cons, List.take_succ_cons, firstDiff]
      change (if a ≠ c.val then _ else _) = _
      split_ifs
      · rfl
      · exact ih (by omega) (Nat.le_of_succ_le_succ hn)

/-- A part of a text is as some characters of a string just when those stand there; they may be
    more than are left of the text. -/
theorem compareUtf8_at {text : List CodePoint} (hi : i < codes.length) (hpos : 0 < n)
    (hn : n ≤ text.length) (hsmall : codes.length + n < npos) :
    ∃ r, compareUtf8 codes i n (utf8Of text) n = .ok r ∧
      (r = 0 ↔ (text.map Subtype.val).take n <+: codes.drop i) := by
  have hcodes : codes ≠ [] := List.ne_nil_of_length_pos (by omega)
  have hlen : ((text.map Subtype.val).take n).length = n := by
    rw [List.length_take, List.length_map, Nat.min_eq_left hn]
  have hsum : addSize i n = i + n := Nat.mod_eq_of_lt (by unfold npos at hsmall; omega)
  rw [compareUtf8, if_neg (Nat.ne_of_gt hpos), if_neg hcodes, check, if_pos hi, check,
    if_pos (by omega)]
  simp only [bind, Except.bind, hsum]
  by_cases hover : n = npos ∨ codes.length < i + n
  · have hleft : codes.length - i < n := by omega
    have hrest : i + (codes.length - i) ≤ codes.length := by omega
    simp only [if_pos hover, Nat.min_eq_left (Nat.le_of_lt hleft),
      compareBytes_eq hrest (Nat.le_trans (Nat.le_of_lt hleft) hn)]
    refine ⟨_, rfl, iff_of_false ?_ fun hfront => ?_⟩
    · cases hdiff : firstDiff _ _ with
      | none => rw [Option.getD_none, lengthOrder_eq_zero]; exact Nat.ne_of_lt hleft
      | some r => exact firstDiff_ne_zero _ _ r hdiff
    · have hle := hfront.length_le
      rw [hlen, List.length_drop] at hle
      omega
  · have hin : i + n ≤ codes.length := by omega
    simp only [if_neg hover, Nat.min_self, compareBytes_eq hin hn]
    refine ⟨_, rfl, ?_⟩
    rw [firstDiff_lengthOrder (by rw [hlen, List.length_take, List.length_drop]; omega),
      List.prefix_iff_eq_take, hlen]
    exact eq_comm

end Specs

end UdtKernel.CText
