import UdtKernel.Text.Find
import UdtKernel.Text.EditSpecs

set_option autoImplicit false

/-! The overloads of the searches in a `CText`. -/

namespace UdtKernel.CText

section Code
variable (codes : List ℕ) (code_point aIndx : ℕ)

def findCode : Except Fault (Option ℕ) :=
  if codes.length ≤ aIndx then .ok none
  else scanForward (· = code_point) codes (codes.length - aIndx) aIndx

/-- `rfind` for a code point; an index is clipped twice. -/
def rfindCode : Except Fault (Option ℕ) :=
  if codes = [] then .ok none
  else
    let aIndx := if codes.length ≤ aIndx then codes.length - 1 else aIndx
    scanBack (· = code_point) codes (if aIndx < codes.length - 1 then aIndx else codes.length - 1)

def findFirstOfCode : Except Fault (Option ℕ) := findCode codes code_point aIndx

/-- `find_first_not_of` for a code point, which begins with the text. -/
def findFirstNotOfCode : Except Fault (Option ℕ) :=
  if codes.length ≤ aIndx then .ok none
  else scanForward (· ≠ code_point) codes codes.length 0

def findLastOfCode : Except Fault (Option ℕ) := rfindCode codes code_point aIndx

def findLastNotOfCode : Except Fault (Option ℕ) :=
  if codes = [] then .ok none
  else scanBack (· ≠ code_point) codes
    (if codes.length ≤ aIndx then codes.length - 1 else aIndx)

end Code

section Loops
variable (codes : List ℕ) (found : ℕ → Except Fault Bool) (aIndx : ℕ)

/-- What is asked about the code point at a position. -/
def codeFound (i : ℕ) : Except Fault Bool := do found (← codeAt codes i)

/-- The loop of `find_first_of` and `find_first_not_of`. -/
def firstFound : Except Fault (Option ℕ) :=
  findLoop (codeFound codes found) (codes.length - aIndx) aIndx

/-- The loop of `find_last_of` and `find_last_not_of`, in a text that is not empty. -/
def lastFound : Except Fault (Option ℕ) :=
  if codes = [] then .ok none
  else rfindLoop (codeFound codes found) (if codes.length ≤ aIndx then codes.length - 1 else aIndx)

end Loops

section Text
variable (codes str : List ℕ) (aIndx : ℕ)

def isInText (code : ℕ) : Except Fault Bool := do
  return decide ((← findCode str code 0) ≠ none)

def isNotInText (code : ℕ) : Except Fault Bool := do
  return decide ((← findCode str code 0) = none)

def findFirstOfText : Except Fault (Option ℕ) :=
  if codes.length ≤ aIndx then .ok none else firstFound codes (isInText str) aIndx

def findFirstNotOfText : Except Fault (Option ℕ) :=
  if codes.length ≤ aIndx then .ok none else firstFound codes (isNotInText str) aIndx

def findLastOfText : Except Fault (Option ℕ) := lastFound codes (isInText str) aIndx

def findLastNotOfText : Except Fault (Option ℕ) := lastFound codes (isNotInText str) aIndx

end Text

section Utf8
variable (codes : List ℕ) (utf8_str : List Byte) (aIndx str_len : ℕ)

def checkLength : Except Fault Unit := do check (str_len ≤ (← mLengthOf utf8_str str_len))

/-- The characters stand at a position, by `compare`. -/
def utf8At (i : ℕ) : Except Fault Bool := do
  return decide ((← compareUtf8 codes i str_len (untilNull utf8_str) str_len) = 0)

def findUtf8 : Except Fault (Option ℕ) := do
  check (str_len ≠ npos)
  checkLength utf8_str str_len
  if codes.length ≤ aIndx ∨ str_len = 0 then return none
  else findLoop (utf8At codes utf8_str str_len) (codes.length + 1 - str_len - aIndx) aIndx

def rfindUtf8 : Except Fault (Option ℕ) := do
  check (str_len ≠ npos)
  checkLength utf8_str str_len
  if codes.length ≤ aIndx ∨ str_len = 0 then return none
  else rfindLoop (utf8At codes utf8_str str_len) (min (subSize codes.length str_len) aIndx)

/-- `MFindCodepoint`; the number of characters is not looked at. -/
def mFindCodepoint (_chars_len code_point : ℕ) : Option ℕ :=
  (toUcs4 (untilNull utf8_str).length (untilNull utf8_str)).findIdx? (· = code_point)

def isInUtf8 (code : ℕ) : Except Fault Bool :=
  .ok (decide (mFindCodepoint utf8_str str_len code ≠ none))

def isNotInUtf8 (code : ℕ) : Except Fault Bool :=
  .ok (decide (mFindCodepoint utf8_str str_len code = none))

/-- `find_first_of` and `find_first_not_of` for a number of characters. -/
def firstOfUtf8 (found : ℕ → Except Fault Bool) : Except Fault (Option ℕ) := do
  check (str_len ≠ npos)
  if codes.length ≤ aIndx then return none
  else do
    checkLength utf8_str str_len
    firstFound codes found aIndx

/-- `find_last_of` and `find_last_not_of` for a number of characters. -/
def lastOfUtf8 (found : ℕ → Except Fault Bool) : Except Fault (Option ℕ) := do
  check (str_len ≠ npos)
  checkLength utf8_str str_len
  lastFound codes found aIndx

def findFirstOfUtf8 : Except Fault (Option ℕ) :=
  firstOfUtf8 codes utf8_str aIndx str_len (isInUtf8 utf8_str str_len)

def findFirstNotOfUtf8 : Except Fault (Option ℕ) :=
  firstOfUtf8 codes utf8_str aIndx str_len (isNotInUtf8 utf8_str str_len)

def findLastOfUtf8 : Except Fault (Option ℕ) :=
  lastOfUtf8 codes utf8_str aIndx str_len (isInUtf8 utf8_str str_len)

def findLastNotOfUtf8 : Except Fault (Option ℕ) :=
  lastOfUtf8 codes utf8_str aIndx str_len (isNotInUtf8 utf8_str str_len)

end Utf8

section CStr
variable (codes : List ℕ) (cstr : List Byte) (idx : ℕ)

def findCStr : Except Fault (Option ℕ) := do findUtf8 codes cstr idx (← mLengthOf cstr npos)

def rfindCStr : Except Fault (Option ℕ) := do rfindUtf8 codes cstr idx (← mLengthOf cstr npos)

def findFirstOfCStr : Except Fault (Option ℕ) := do
  findFirstOfUtf8 codes cstr idx (← mLengthOf cstr npos)

def findFirstNotOfCStr : Except Fault (Option ℕ) := do
  findFirstNotOfUtf8 codes cstr idx (← mLengthOf cstr npos)

def findLastOfCStr : Except Fault (Option ℕ) := do
  findLastOfUtf8 codes cstr idx (← mLengthOf cstr npos)

def findLastNotOfCStr : Except Fault (Option ℕ) := do
  findLastNotOfUtf8 codes cstr idx (← mLengthOf cstr npos)

end CStr

section Std
variable (codes : List ℕ) (std_str : List Byte) (idx : ℕ)

def findStd : Except Fault (Option ℕ) :=
  if std_str.length = 0 ∧ idx < codes.length then .ok (some idx)
  else findUtf8 codes std_str idx std_str.length

def rfindStd : Except Fault (Option ℕ) :=
  if std_str.length = 0 then .ok (some (if idx < codes.length then idx else codes.length))
  else rfindUtf8 codes std_str idx std_str.length

def findFirstOfStd : Except Fault (Option ℕ) :=
  if codes.length ≤ idx then .ok none else findFirstOfUtf8 codes std_str idx std_str.length

def findFirstNotOfStd : Except Fault (Option ℕ) :=
  if codes.length ≤ idx then .ok none else findFirstNotOfUtf8 codes std_str idx std_str.length

def findLastOfStd : Except Fault (Option ℕ) := findLastOfUtf8 codes std_str idx std_str.length

def findLastNotOfStd : Except Fault (Option ℕ) := findLastNotOfUtf8 codes std_str idx std_str.length

end Std

def StandsAt (codes : List ℕ) (Q : ℕ → Prop) (i : ℕ) : Prop :=
  ∃ code, codes[i]? = some code ∧ Q code

section LoopSpecs
variable {codes : List ℕ} {found : ℕ → Except Fault Bool} {Q : ℕ → Prop} {i : ℕ}

theorem StandsAt.lt (h : StandsAt codes Q i) : i < codes.length := by
  obtain ⟨code, hcode, -⟩ := h
  exact (List.getElem?_eq_some_iff.1 hcode).1

theorem codeFound_decides (h : ∀ code, Decides found Q code) (hi : i < codes.length) :
    Decides (codeFound codes found) (StandsAt codes Q) i := by
  obtain ⟨code, hcode, hread⟩ := codeAt_ok hi
  obtain ⟨b, hb, hQ⟩ := h code
  refine ⟨b, by rw [codeFound, hread]; exact hb, hQ.trans ⟨fun h => ⟨code, hcode, h⟩, ?_⟩⟩
  rintro ⟨d, hd, hd'⟩
  rw [hcode] at hd
  exact Option.some.inj hd ▸ hd'

/-- Nothing is found from the end of the text on. -/
theorem isFirst_none (h : codes.length ≤ i) :
    IsFirst (fun j => i ≤ j ∧ StandsAt codes Q j) none := by
  rintro j ⟨hle, hstands⟩
  have hlt := hstands.lt
  omega

theorem isLast_none (h : codes = []) : IsLast (fun j => j ≤ i ∧ StandsAt codes Q j) none := by
  rintro j ⟨-, hstands⟩
  have hlt := hstands.lt
  rw [h] at hlt
  exact Nat.not_lt_zero j hlt

/-- The position that a search back begins with. -/
theorem clip_last (idx j : ℕ) :
    j ≤ idx ∧ StandsAt codes Q j ↔
      j ≤ (if codes.length ≤ idx then codes.length - 1 else idx) ∧ StandsAt codes Q j := by
  refine and_congr_left fun hstands => ?_
  have hlt := hstands.lt
  split_ifs <;> omega

theorem firstFound_spec (h : ∀ code, Decides found Q code) (idx : ℕ) :
    ∃ r, firstFound codes found idx = .ok r ∧
      IsFirst (fun j => idx ≤ j ∧ StandsAt codes Q j) r :=
  findFit_spec 1 codes.length (fun _ hj => codeFound_decides h hj)
    (fun _ hj => hj.lt) idx

theorem firstFound_guarded (codes : List ℕ) (found : ℕ → Except Fault Bool) (idx : ℕ) :
    (if codes.length ≤ idx then .ok none else firstFound codes found idx) =
      firstFound codes found idx := by
  refine ite_eq_right_iff.2 fun hout => ?_
  rw [firstFound, Nat.sub_eq_zero_of_le hout, findLoop]

theorem lastFound_spec (h : ∀ code, Decides found Q code) (idx : ℕ) :
    ∃ r, lastFound codes found idx = .ok r ∧
      IsLast (fun j => j ≤ idx ∧ StandsAt codes Q j) r := by
  rw [lastFound]
  by_cases hne : codes = []
  · exact ⟨none, if_pos hne, isLast_none hne⟩
  · rw [if_neg hne]
    have hpos := List.length_pos_iff.2 hne
    exact rfindUpTo_spec _ _ (fun j hj => codeFound_decides h (by split_ifs at hj <;> omega))
      (clip_last idx)

end LoopSpecs

section CodeSpecs
variable (codes : List ℕ) (code idx : ℕ)

theorem holds_iff_standsAt {p : ℕ → Bool} {Q : ℕ → Prop} (h : ∀ d, p d = true ↔ Q d) (j : ℕ) :
    Holds p codes j ↔ StandsAt codes Q j :=
  exists_congr fun d => and_congr_right fun _ => h d

theorem scanForward_stands {p : ℕ → Bool} {Q : ℕ → Prop} (h : ∀ d, p d = true ↔ Q d) {idx n : ℕ}
    (hn : idx + n = codes.length) :
    ∃ r, scanForward p codes n idx = .ok r ∧
      IsFirst (fun j => idx ≤ j ∧ StandsAt codes Q j) r := by
  simpa only [holds_iff_standsAt codes h] using scanForward_spec (p := p) hn

theorem scanBack_stands {p : ℕ → Bool} {Q : ℕ → Prop} (h : ∀ d, p d = true ↔ Q d)
    (hne : codes ≠ []) (idx : ℕ) :
    ∃ r, scanBack p codes (if codes.length ≤ idx then codes.length - 1 else idx) = .ok r ∧
      IsLast (fun j => j ≤ idx ∧ StandsAt codes Q j) r := by
  have hpos := List.length_pos_iff.2 hne
  have hin : (if codes.length ≤ idx then codes.length - 1 else idx) < codes.length := by
    split_ifs <;> omega
  simpa only [holds_iff_standsAt codes h, ← clip_last] using scanBack_spec (p := p) hin

theorem findCode_spec :
    ∃ r, findCode codes code idx = .ok r ∧
      IsFirst (fun j => idx ≤ j ∧ StandsAt codes (· ∈ [code]) j) r := by
  rw [findCode]
  split_ifs with hout
  · exact ⟨none, rfl, isFirst_none hout⟩
  · exact scanForward_stands codes (by simp) (by omega)

theorem rfindCode_spec :
    ∃ r, rfindCode codes code idx = .ok r ∧
      IsLast (fun j => j ≤ idx ∧ StandsAt codes (· ∈ [code]) j) r := by
  rw [rfindCode]
  by_cases hne : codes = []
  · exact ⟨none, if_pos hne, isLast_none hne⟩
  · have htwice : ∀ k, k ≤ codes.length - 1 →
        (if k < codes.length - 1 then k else codes.length - 1) = k := by
      intro k hk
      split_ifs <;> omega
    rw [if_neg hne]
    dsimp only
    rw [htwice _ (by split_ifs <;> omega)]
    exact scanBack_stands codes (by simp) hne idx

/-- The search for another code point begins with the text, whatever the index. -/
theorem findFirstNotOfCode_spec :
    ∃ r, findFirstNotOfCode codes code idx = .ok r ∧
      IsFirst (fun j => idx < codes.length ∧ StandsAt codes (· ∉ [code]) j) r := by
  rw [findFirstNotOfCode]
  split_ifs with hout
  · exact ⟨none, rfl, fun j hj => absurd hj.1 (Nat.not_lt.2 hout)⟩
  · have hin := Nat.lt_of_not_le hout
    simpa only [hin, true_and, Nat.zero_le] using
      scanForward_stands codes (p := (· ≠ code)) (Q := (· ∉ [code])) (by simp)
        (Nat.zero_add codes.length)

theorem findLastNotOfCode_spec :
    ∃ r, findLastNotOfCode codes code idx = .ok r ∧
      IsLast (fun j => j ≤ idx ∧ StandsAt codes (· ∉ [code]) j) r := by
  rw [findLastNotOfCode]
  by_cases hne : codes = []
  · exact ⟨none, if_pos hne, isLast_none hne⟩
  · rw [if_neg hne]
    exact scanBack_stands codes (by simp) hne idx

end CodeSpecs

section TextSpecs
variable (codes str : List ℕ) (code idx : ℕ)

theorem findCode_eq_none : ∃ r, findCode str code 0 = .ok r ∧ (r = none ↔ code ∉ str) := by
  obtain ⟨r, hr, hfirst⟩ := findCode_spec str code 0
  refine ⟨r, hr, ?_⟩
  cases r with
  | none =>
    refine iff_of_true rfl fun hmem => ?_
    obtain ⟨j, hj⟩ := List.mem_iff_getElem?.1 hmem
    exact hfirst j ⟨Nat.zero_le j, code, hj, List.mem_singleton_self code⟩
  | some j =>
    obtain ⟨-, d, hd, hcode⟩ := hfirst.1
    refine iff_of_false (fun h => nomatch h) fun hmem => hmem ?_
    exact List.mem_singleton.1 hcode ▸ List.mem_of_getElem? hd

theorem isInText_decides : Decides (isInText str) (· ∈ str) code := by
  obtain ⟨r, hr, hnone⟩ := findCode_eq_none str code
  refine ⟨decide (r ≠ none), by rw [isInText, hr]; rfl, ?_⟩
  rw [decide_eq_true_iff, ne_eq, hnone, not_not]

theorem isNotInText_decides : Decides (isNotInText str) (· ∉ str) code := by
  obtain ⟨r, hr, hnone⟩ := findCode_eq_none str code
  exact ⟨decide (r = none), by rw [isNotInText, hr]; rfl, by rw [decide_eq_true_iff, hnone]⟩

end TextSpecs

section Utf8Specs
variable {codes : List ℕ} {text : List CodePoint} {n : ℕ}

theorem checkLength_utf8Of (hn : n ≤ text.length) : checkLength (utf8Of text) n = .ok () := by
  rw [checkLength, Store.mLengthOf_utf8Of, Nat.min_eq_left hn]
  exact if_pos le_rfl

theorem mFindCodepoint_eq_none (text : List CodePoint) (n code : ℕ) :
    mFindCodepoint (utf8Of text) n code = none ↔ code ∉ text.map Subtype.val := by
  rw [mFindCodepoint, untilNull_utf8Of, toUcs4_utf8Of,
    List.take_of_length_le (length_le_utf8Of text), List.findIdx?_eq_none_iff]
  constructor
  · intro h hmem
    exact of_decide_eq_false (h code hmem) rfl
  · rintro h d hd
    exact decide_eq_false fun heq => h (heq ▸ hd)

theorem isInUtf8_decides (text : List CodePoint) (n code : ℕ) :
    Decides (isInUtf8 (utf8Of text) n) (· ∈ text.map Subtype.val) code :=
  ⟨_, rfl, by rw [decide_eq_true_iff, ne_eq, mFindCodepoint_eq_none, not_not]⟩

theorem isNotInUtf8_decides (text : List CodePoint) (n code : ℕ) :
    Decides (isNotInUtf8 (utf8Of text) n) (· ∉ text.map Subtype.val) code :=
  ⟨_, rfl, by rw [decide_eq_true_iff, mFindCodepoint_eq_none]⟩

section Of
variable (hn : n ≤ text.length) (hsize : n ≠ npos) (idx : ℕ) {found : ℕ → Except Fault Bool}
  {Q : ℕ → Prop}
include hn hsize

theorem firstOfUtf8_spec (h : ∀ code, Decides found Q code) :
    ∃ r, firstOfUtf8 codes (utf8Of text) idx n found = .ok r ∧
      IsFirst (fun j => idx ≤ j ∧ StandsAt codes Q j) r := by
  have hcheck : check (n ≠ npos) = .ok () := if_pos hsize
  rw [firstOfUtf8, hcheck, checkLength_utf8Of hn]
  by_cases hout : codes.length ≤ idx
  · exact ⟨none, if_pos hout, isFirst_none hout⟩
  · obtain ⟨r, hr, hfirst⟩ := @firstFound_spec codes found Q h idx
    exact ⟨r, (if_neg hout).trans hr, hfirst⟩

theorem lastOfUtf8_spec (h : ∀ code, Decides found Q code) :
    ∃ r, lastOfUtf8 codes (utf8Of text) idx n found = .ok r ∧
      IsLast (fun j => j ≤ idx ∧ StandsAt codes Q j) r := by
  have hcheck : check (n ≠ npos) = .ok () := if_pos hsize
  rw [lastOfUtf8, hcheck, checkLength_utf8Of hn]
  exact lastFound_spec h idx

end Of

theorem fits_of_stands (hpos : 0 < n) (hn : n ≤ text.length) {j : ℕ}
    (h : (text.map Subtype.val).take n <+: codes.drop j) :
    j + n ≤ codes.length := by
  have hlen : ((text.map Subtype.val).take n).length = n := by
    rw [List.length_take, List.length_map, Nat.min_eq_left hn]
  have hne : (text.map Subtype.val).take n ≠ [] := List.ne_nil_of_length_pos (by omega)
  have hin := le_length_of_stands hne h
  rwa [hlen] at hin

section At
variable (hpos : 0 < n) (hn : n ≤ text.length) (hsmall : codes.length + n < npos)
include hpos hn hsmall

theorem utf8At_decides {i : ℕ} (hi : i < codes.length) :
    Decides (utf8At codes (utf8Of text) n)
      (fun j => (text.map Subtype.val).take n <+: codes.drop j) i := by
  obtain ⟨r, hcompare, hr⟩ := compareUtf8_at hi hpos hn hsmall
  refine ⟨decide (r = 0), ?_, by rw [decide_eq_true_iff, hr]⟩
  rw [utf8At, untilNull_utf8Of, hcompare]
  rfl

theorem findUtf8_spec (idx : ℕ) :
    ∃ r, findUtf8 codes (utf8Of text) idx n = .ok r ∧
      IsFirst (fun j => idx ≤ j ∧ (text.map Subtype.val).take n <+: codes.drop j) r := by
  have hcheck : check (n ≠ npos) = .ok () := if_pos (by omega)
  have hfits := @fits_of_stands codes text n hpos hn
  rw [findUtf8, hcheck, checkLength_utf8Of hn]
  by_cases hout : codes.length ≤ idx ∨ n = 0
  · refine ⟨none, if_pos hout, fun j hj => ?_⟩
    have hin := hfits hj.2
    omega
  · obtain ⟨r, hr, hfirst⟩ := findFit_spec n codes.length
      (fun j hj => utf8At_decides (i := j) hpos hn hsmall (by omega)) (fun _ => hfits) idx
    exact ⟨r, (if_neg hout).trans hr, hfirst⟩

/-- Characters are found back from an index inside of the text only. -/
theorem rfindUtf8_spec (idx : ℕ) :
    ∃ r, rfindUtf8 codes (utf8Of text) idx n = .ok r ∧
      IsLast (fun j => (idx < codes.length ∧ j ≤ idx) ∧
        (text.map Subtype.val).take n <+: codes.drop j) r := by
  have hcheck : check (n ≠ npos) = .ok () := if_pos (by omega)
  have hfits := @fits_of_stands codes text n hpos hn
  rw [rfindUtf8, hcheck, checkLength_utf8Of hn]
  by_cases hout : codes.length ≤ idx ∨ n = 0
  · refine ⟨none, if_pos hout, fun j hj => ?_⟩
    omega
  · have hin : idx < codes.length := by omega
    obtain ⟨r, hr, hlast⟩ := rfindUpTo_spec
      (min (subSize codes.length n) idx) idx
      (fun j hj => utf8At_decides (i := j) hpos hn hsmall (by omega)) fun j =>
        and_congr_left fun hj => by
          have hle := hfits hj
          have hsub : subSize codes.length n = codes.length - n := by
            unfold subSize
            unfold npos at hsmall
            omega
          omega
    refine ⟨r, (if_neg hout).trans hr, ?_⟩
    simpa only [hin, true_and] using hlast

end At

end Utf8Specs

end UdtKernel.CText
