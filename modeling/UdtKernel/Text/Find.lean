import UdtKernel.Text.Compare

set_option autoImplicit false

/-! The searches for a text in another one. -/

namespace UdtKernel.CText

section Loops
variable (found : ℕ → Except Fault Bool)

def findLoop : ℕ → ℕ → Except Fault (Option ℕ)
  | 0, _ => .ok none
  | n + 1, i => do if ← found i then return some i else findLoop n (i + 1)

def rfindLoop : ℕ → Except Fault (Option ℕ)
  | 0 => do if ← found 0 then return some 0 else return none
  | i + 1 => do if ← found (i + 1) then return some (i + 1) else rfindLoop i

end Loops

section Text
variable (codes str : List ℕ)

/-- The text stands at a position, by `compare`. -/
def textAt (i : ℕ) : Except Fault Bool := do
  return decide ((← compareText codes i str.length str 0 npos) = 0)

def findText (aIndx : ℕ) : Except Fault (Option ℕ) :=
  if str = [] ∧ aIndx < codes.length ∨ codes.length ≤ aIndx then .ok none
  else findLoop (textAt codes str) (codes.length + 1 - str.length - aIndx) aIndx

def rfindText (idx : ℕ) : Except Fault (Option ℕ) :=
  if str = [] then .ok (some (if idx < codes.length then idx else codes.length))
  else if codes.length < str.length then .ok none
  else rfindLoop (textAt codes str)
    (if codes.length - str.length < idx then codes.length - str.length else idx)

end Text

/-- What is tried at a position tells whether something is so. -/
def Decides (found : ℕ → Except Fault Bool) (P : ℕ → Prop) (i : ℕ) : Prop :=
  ∃ b, found i = .ok b ∧ (b = true ↔ P i)

section Specs
variable {found : ℕ → Except Fault Bool} {P : ℕ → Prop} {i n : ℕ}

theorem Decides.cases {α : Type} (h : Decides found P i) (x y : Except Fault α) :
    (P i ∧ (do if ← found i then x else y) = x) ∨ (¬P i ∧ (do if ← found i then x else y) = y) := by
  obtain ⟨b, hfound, hb⟩ := h
  rw [hfound]
  cases b with
  | true => exact .inl ⟨hb.1 rfl, rfl⟩
  | false => exact .inr ⟨fun hP => (nomatch hb.2 hP), rfl⟩

theorem findLoop_spec (h : ∀ j, i ≤ j → j < i + n → Decides found P j) :
    ∃ r, findLoop found n i = .ok r ∧ IsFirst (fun j => (i ≤ j ∧ j < i + n) ∧ P j) r := by
  induction n generalizing i with
  | zero =>
    refine ⟨none, rfl, fun j hj => ?_⟩
    omega
  | succ n ih =>
    rcases (h i le_rfl (by omega)).cases (.ok (some i)) (findLoop found n (i + 1)) with
      ⟨hP, hturn⟩ | ⟨hP, hturn⟩
    · refine ⟨some i, hturn, ⟨⟨le_rfl, by omega⟩, hP⟩, fun j hj hbefore => ?_⟩
      omega
    · obtain ⟨r, hr, hfirst⟩ := ih (i := i + 1) fun j hle hlt => h j (by omega) (by omega)
      refine ⟨r, hturn.trans hr, ?_⟩
      have hsame : ∀ j, ((i ≤ j ∧ j < i + (n + 1)) ∧ P j) ↔
          ((i + 1 ≤ j ∧ j < i + 1 + n) ∧ P j) := by
        refine fun j => and_congr_left fun hj => ?_
        have hne : i ≠ j := fun heq => hP (heq ▸ hj)
        omega
      simpa only [IsFirst, hsame] using hfirst

theorem rfindLoop_spec (h : ∀ j ≤ i, Decides found P j) :
    ∃ r, rfindLoop found i = .ok r ∧ IsLast (fun j => j ≤ i ∧ P j) r := by
  induction i with
  | zero =>
    rcases (h 0 le_rfl).cases (.ok (some 0)) (.ok none) with ⟨hP, hturn⟩ | ⟨hP, hturn⟩
    · exact ⟨some 0, hturn, ⟨le_rfl, hP⟩, fun j hj => hj.1⟩
    · refine ⟨none, hturn, fun j hj => ?_⟩
      obtain rfl := Nat.le_zero.1 hj.1
      exact hP hj.2
  | succ i ih =>
    rcases (h (i + 1) le_rfl).cases (.ok (some (i + 1))) (rfindLoop found i) with
      ⟨hP, hturn⟩ | ⟨hP, hturn⟩
    · exact ⟨some (i + 1), hturn, ⟨le_rfl, hP⟩, fun j hj => hj.1⟩
    · obtain ⟨r, hr, hlast⟩ := ih fun j hj => h j (Nat.le_succ_of_le hj)
      refine ⟨r, hturn.trans hr, ?_⟩
      have hsame : ∀ j, (j ≤ i + 1 ∧ P j) ↔ (j ≤ i ∧ P j) := by
        refine fun j => and_congr_left fun hj => ?_
        have hne : i + 1 ≠ j := fun heq => hP (heq ▸ hj)
        omega
      simpa only [IsLast, hsame] using hlast

/-- The loop over the positions from one on where so many code points are left. -/
theorem findFit_spec (m size : ℕ) (h : ∀ j, j + m ≤ size → Decides found P j)
    (hfits : ∀ j, P j → j + m ≤ size) (idx : ℕ) :
    ∃ r, findLoop found (size + 1 - m - idx) idx = .ok r ∧ IsFirst (fun j => idx ≤ j ∧ P j) r := by
  obtain ⟨r, hr, hfirst⟩ := findLoop_spec (i := idx) (n := size + 1 - m - idx)
    fun j hle hlt => h j (by omega)
  refine ⟨r, hr, ?_⟩
  have hsame : ∀ j, ((idx ≤ j ∧ j < idx + (size + 1 - m - idx)) ∧ P j) ↔ (idx ≤ j ∧ P j) := by
    refine fun j => and_congr_left fun hj => and_iff_left_of_imp fun hle => ?_
    have hin := hfits j hj
    omega
  simpa only [IsFirst, hsame] using hfirst

/-- The loop back from a position that none is found behind. -/
theorem rfindUpTo_spec (start idx : ℕ) (h : ∀ j ≤ start, Decides found P j)
    (hstart : ∀ j, j ≤ idx ∧ P j ↔ j ≤ start ∧ P j) :
    ∃ r, rfindLoop found start = .ok r ∧ IsLast (fun j => j ≤ idx ∧ P j) r := by
  simpa only [hstart] using rfindLoop_spec h

end Specs

section Text
variable {codes str : List ℕ}

theorem textAt_decides (hne : str ≠ []) {i : ℕ} (hin : i + str.length ≤ codes.length) :
    Decides (textAt codes str) (fun j => str <+: codes.drop j) i := by
  obtain ⟨r, hcompare, hr⟩ := compareText_at hne hin
  exact ⟨decide (r = 0), by rw [textAt, hcompare]; rfl, by rw [decide_eq_true_iff, hr]⟩

/-- A text stands only where it is not longer than what is left. -/
theorem le_length_of_stands {i : ℕ} (hne : str ≠ []) (h : str <+: codes.drop i) :
    i + str.length ≤ codes.length := by
  have hlen := h.length_le
  have hpos := List.length_pos_iff.2 hne
  rw [List.length_drop] at hlen
  omega

theorem findText_spec (hne : str ≠ []) (idx : ℕ) :
    ∃ r, findText codes str idx = .ok r ∧
      IsFirst (fun j => idx ≤ j ∧ str <+: codes.drop j) r := by
  rw [findText]
  split_ifs with hout
  · refine ⟨none, rfl, fun j hj => ?_⟩
    have hin := le_length_of_stands hne hj.2
    have hpos := List.length_pos_iff.2 hne
    have hend := hout.resolve_left fun h => hne h.1
    omega
  · exact findFit_spec _ _ (fun j hj => textAt_decides hne hj)
      (fun j hj => le_length_of_stands hne hj) idx

theorem rfindText_spec (hne : str ≠ []) (idx : ℕ) :
    ∃ r, rfindText codes str idx = .ok r ∧
      IsLast (fun j => j ≤ idx ∧ str <+: codes.drop j) r := by
  rw [rfindText, if_neg hne]
  split_ifs with hlong hend
  · refine ⟨none, rfl, fun j hj => ?_⟩
    have hin := le_length_of_stands hne hj.2
    omega
  · refine rfindUpTo_spec _ _ (fun j hj => textAt_decides hne (by omega)) fun j =>
      and_congr_left fun hj => ?_
    have hin := le_length_of_stands hne hj
    omega
  · exact rfindLoop_spec fun j hle => textAt_decides hne (by omega)

end Text

end UdtKernel.CText
