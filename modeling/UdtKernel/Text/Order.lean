import UdtKernel.Text.EditSpecs
import UdtKernel.Text.Compare
import UdtKernel.Lib.ThreeWay
import Mathlib.Data.List.Lex
import Mathlib.Order.Lattice.Nat

set_option autoImplicit false

/-! The orders of two whole texts. -/

namespace UdtKernel.CText
open Lib

/-- `ucs4_tolower`; a code that it does not know is logged and stays. -/
def ucs4Tolower (c : ℕ) : ℕ :=
  if c = 0 then c
  else if 0x41 ≤ c ∧ c ≤ 0x5a then c + 0x20
  else if 0x410 ≤ c ∧ c ≤ 0x42f then c + 0x20
  else if c = 0x401 then c + 0x50
  else c

section Compare
variable (codes : List ℕ)

def compareNoCase (aFirst aLen : ℕ) (aStr : List ℕ) (aStrFirst aStrLen : ℕ) : Except Fault ℤ :=
  if codes = [] ∧ aFirst = 0 ∧ aStr = [] then .ok 0
  else do
    check (aFirst < codes.length)
    check (aStrFirst < aStr.length)
    let aStrLen := if aStrLen = npos ∨ aStr.length < addSize aStrFirst aStrLen
      then aStr.length - aStrFirst else aStrLen
    let r ← pairsBy ucs4Tolower codes aStr (min aLen aStrLen) aFirst aStrFirst
    return r.getD (lengthOrder aLen aStrLen)

def compareAll (str : List ℕ) : Except Fault ℤ := compareText codes 0 codes.length str 0 npos

def compareAllStd (std_str : List Byte) : Except Fault ℤ :=
  compareStd codes 0 codes.length std_str 0 npos

def compareAllCStr (cstr : List Byte) : Except Fault ℤ := do
  compareUtf8 codes 0 codes.length (untilNull cstr) (← mLengthOf cstr npos)

def mCompareNoCase (str : List ℕ) : Except Fault ℤ := compareNoCase codes 0 codes.length str 0 npos

end Compare

def memcmp (l m : List Byte) : ℤ := (firstDiff (l.map Fin.val) (m.map Fin.val)).getD 0

/-- `CStringFastLessCompare` of texts that have one buffer or not. -/
def cStringFastLessCompare (me : Endian) (sameBuf : Bool) (a b : List ℕ) : Bool :=
  if a.length = b.length ∧ a.length ≠ 0 then
    if sameBuf then false
    else decide (memcmp (a.flatMap (me.bytes 4)) (b.flatMap (me.bytes 4)) < 0)
  else decide (a.length < b.length)

section Ranks

/-- Codes are ranked as numbers, and texts by the first code that differs, then by their size. -/
theorem codeOrder_eq {a b : ℕ} (h : a ≠ b) : codeOrder a b = rank a b := by
  rcases Nat.lt_or_gt_of_ne h with hlt | hgt
  · rw [rank_of_lt hlt]
    exact if_pos hlt
  · rw [rank_of_gt hgt]
    exact if_neg (Nat.lt_asymm hgt)

theorem lengthOrder_succ (m n : ℕ) : lengthOrder (m + 1) (n + 1) = lengthOrder m n := by
  simp only [lengthOrder, Nat.succ_lt_succ_iff, Nat.add_right_cancel_iff]

theorem rank_cons (a : ℕ) (l m : List ℕ) : rank (a :: l) (a :: m) = rank l m := by
  rcases lt_trichotomy l m with hlt | rfl | hgt
  · have hlist : a :: l < a :: m := List.cons_lt_cons_self.2 hlt
    rw [rank_of_lt hlt, rank_of_lt hlist]
  · rw [rank_self, rank_self]
  · have hlist : a :: m < a :: l := List.cons_lt_cons_self.2 hgt
    rw [rank_of_gt hgt, rank_of_gt hlist]

theorem firstDiff_rank (l m : List ℕ) :
    (firstDiff l m).getD (lengthOrder l.length m.length) = rank l m := by
  induction l generalizing m with
  | nil =>
    cases m with
    | nil => exact (rank_self []).symm
    | cons b m => exact (rank_of_lt (List.nil_lt_cons b m)).symm
  | cons a l ih =>
    cases m with
    | nil => exact (rank_of_gt (List.nil_lt_cons a l)).symm
    | cons b m =>
      rw [firstDiff, List.length_cons, List.length_cons, lengthOrder_succ]
      rcases lt_trichotomy a b with hlt | rfl | hgt
      · have hlist : a :: l < b :: m := List.cons_lt_cons_iff.2 (.inl hlt)
        rw [if_pos (Nat.ne_of_lt hlt), Option.getD_some, codeOrder_eq (Nat.ne_of_lt hlt),
          rank_of_lt hlt, rank_of_lt hlist]
      · rw [if_neg (not_not_intro rfl), ih m, rank_cons]
      · have hlist : b :: m < a :: l := List.cons_lt_cons_iff.2 (.inl hgt)
        rw [if_pos (Nat.ne_of_gt hgt), Option.getD_some, codeOrder_eq (Nat.ne_of_gt hgt),
          rank_of_gt hgt, rank_of_gt hlist]

/-- Where the shorter of two texts ends, the loop has seen all that it looks at. -/
theorem diffBy_take (fold : ℕ → ℕ) (l m : List ℕ) :
    diffBy fold (l.take (min l.length m.length)) (m.take (min l.length m.length)) =
      diffBy fold l m := by
  induction l generalizing m with
  | nil => rfl
  | cons a l ih =>
    cases m with
    | nil => rfl
    | cons b m =>
      rw [List.length_cons, List.length_cons, Nat.succ_min_succ, List.take_succ_cons,
        List.take_succ_cons, diffBy, diffBy, ih m]

theorem emptyOrder_rank (codes : List ℕ) :
    emptyOrder codes.length codes.length = rank codes [] := by
  cases codes with
  | nil => exact (rank_self []).symm
  | cons a l =>
    rw [rank_of_gt (List.nil_lt_cons a l), emptyOrder, Nat.min_self]
    exact if_pos (Nat.succ_ne_zero _)

theorem nil_rank {str : List ℕ} (hne : str ≠ []) : rank [] str = -1 := by
  obtain ⟨b, m, rfl⟩ := List.exists_cons_of_ne_nil hne
  exact rank_of_lt (List.nil_lt_cons b m)

end Ranks

section Whole
variable {codes str : List ℕ}

/-- `compare` of two texts is their order. -/
theorem compareAll_eq (codes str : List ℕ) : compareAll codes str = .ok (rank codes str) := by
  rw [compareAll, compareText]
  by_cases hstr : str = []
  · rw [if_pos hstr, hstr, emptyOrder_rank]
  rw [if_neg hstr]
  by_cases hcodes : codes = []
  · rw [if_pos hcodes, hcodes, nil_rank hstr]
  · rw [if_neg hcodes, check, if_pos (List.length_pos_iff.2 hcodes), check,
      if_pos (List.length_pos_iff.2 hstr)]
    have hleft : 0 + min codes.length str.length ≤ codes.length := by omega
    have hright : 0 + min codes.length str.length ≤ str.length := by omega
    simp only [true_or, if_true, Nat.sub_zero, bind, Except.bind, comparePairs_eq hleft hright,
      List.drop_zero, ← diffBy_id, diffBy_take]
    rw [diffBy_id, firstDiff_rank]
    rfl

/-- `MCompareNoCase` of two texts, neither of them empty or both. -/
theorem mCompareNoCase_eq (h : codes = [] ↔ str = []) :
    mCompareNoCase codes str =
      .ok ((diffBy ucs4Tolower codes str).getD (lengthOrder codes.length str.length)) := by
  rw [mCompareNoCase, compareNoCase]
  by_cases hcodes : codes = []
  · rw [if_pos ⟨hcodes, rfl, h.1 hcodes⟩, hcodes, h.1 hcodes]
    rfl
  · have hstr : str ≠ [] := mt h.2 hcodes
    rw [if_neg fun hempty => hcodes hempty.1, check, if_pos (List.length_pos_iff.2 hcodes), check,
      if_pos (List.length_pos_iff.2 hstr)]
    have hleft : 0 + min codes.length str.length ≤ codes.length := by omega
    have hright : 0 + min codes.length str.length ≤ str.length := by omega
    simp only [true_or, if_true, Nat.sub_zero, bind, Except.bind, pairsBy_eq hleft hright,
      List.drop_zero, diffBy_take]
    rfl

/-- A check fails where just one of the texts is empty. -/
theorem mCompareNoCase_nil (hne : str ≠ []) : mCompareNoCase [] str = .error .check := by
  rw [mCompareNoCase, compareNoCase, if_neg fun hempty => hne hempty.2.2]
  rfl

section Utf8
variable {text : List CodePoint} (hcodes : codes.length < npos) (htext : text.length < npos)
include hcodes htext

theorem compareUtf8_eq :
    compareUtf8 codes 0 codes.length (utf8Of text) text.length =
      .ok (rank codes (text.map Subtype.val)) := by
  rw [compareUtf8]
  by_cases hempty : text = []
  · rw [if_pos (List.length_eq_zero_iff.2 hempty), hempty, emptyOrder_rank]
    rfl
  rw [if_neg (mt List.length_eq_zero_iff.1 hempty)]
  have hstr : text.map Subtype.val ≠ [] := mt List.map_eq_nil_iff.1 hempty
  by_cases hnil : codes = []
  · rw [if_pos hnil, hnil, nil_rank hstr]
  · have hsize : ¬(codes.length = npos ∨ codes.length < addSize 0 codes.length) := by
      have hsum : addSize 0 codes.length = codes.length := by
        rw [addSize, Nat.zero_add]
        exact Nat.mod_eq_of_lt (by unfold npos at hcodes; omega)
      omega
    rw [if_neg hnil, check, if_pos (List.length_pos_iff.2 hnil), check, if_pos (by omega)]
    have hleft : 0 + min codes.length text.length ≤ codes.length := by omega
    have hmin : min codes.length text.length = min codes.length (text.map Subtype.val).length := by
      rw [List.length_map]
    simp only [if_neg hsize, bind, Except.bind, compareBytes_eq hleft (Nat.min_le_right _ _),
      List.drop_zero]
    rw [hmin, ← diffBy_id, diffBy_take, diffBy_id, ← firstDiff_rank, List.length_map]
    rfl

theorem compareAllCStr_eq :
    compareAllCStr codes (utf8Of text) = .ok (rank codes (text.map Subtype.val)) := by
  have hlen : mLengthOf (utf8Of text) npos = .ok text.length := by
    rw [Store.mLengthOf_utf8Of, Nat.min_eq_right (Nat.le_of_lt htext)]
  rw [compareAllCStr, hlen, untilNull_utf8Of]
  exact compareUtf8_eq hcodes htext

theorem compareAllStd_eq :
    compareAllStd codes (utf8Of text) = .ok (rank codes (text.map Subtype.val)) := by
  rw [compareAllStd, compareStd]
  by_cases hempty : text = []
  · rw [if_pos (utf8Of_eq_nil.2 hempty), hempty, emptyOrder_rank]
    rfl
  have hbytes : utf8Of text ≠ [] := mt utf8Of_eq_nil.1 hempty
  have hstr : text.map Subtype.val ≠ [] := mt List.map_eq_nil_iff.1 hempty
  rw [if_neg hbytes]
  by_cases hnil : codes = []
  · rw [if_pos hnil, hnil, nil_rank hstr]
  · have hlen : mLengthOf (utf8Of text) npos = .ok text.length := by
      rw [Store.mLengthOf_utf8Of, Nat.min_eq_right (Nat.le_of_lt htext)]
    have hsub : subSize text.length 0 = text.length := by
      unfold subSize
      unfold npos at htext
      omega
    rw [if_neg hnil, check, if_pos (List.length_pos_iff.2 hnil), check,
      if_pos (List.length_pos_iff.2 hbytes)]
    simp only [true_or, if_true, hlen, Except.map, hsub, bind, Except.bind, List.drop_zero,
      untilNull_utf8Of]
    exact compareUtf8_eq hcodes htext

end Utf8

end Whole

end UdtKernel.CText
