import UdtKernel.Text.Find
import UdtKernel.Text.Stream
import UdtKernel.Lib.Loop

set_option autoImplicit false

/-! The loop of `MReplaceAll`. -/

namespace UdtKernel.CText
open Lib

namespace Store
variable (reserved junk : ℕ → ℕ) (aSubStr aReplaceTo : List ℕ)

/-- A turn of the loop of `MReplaceAll`. -/
def replaceTurn : ℕ × Store → Except Fault ((ℕ × Store) ⊕ Store)
  | (_pos, s) =>
    if _pos = s.length then .ok (.inr s)
    else do match ← findText s.codes aSubStr _pos with
      | none => return .inr s
      | some _pos =>
        let s ← s.replaceText reserved junk _pos aSubStr.length (.other aReplaceTo) 0 npos
        return .inl (_pos, s)

/-- `MReplaceAll`, none when the fuel runs out first. The index is checked and not used, and the
    length is not even checked. -/
def mReplaceAll (fuel idx _len : ℕ) (s : Store) : Option (Except Fault Store) :=
  if s.length = 0 then some (.ok s)
  else if aSubStr = [] then some (.ok s)
  else if idx < s.length then loop (replaceTurn reserved junk aSubStr aReplaceTo) fuel (0, s)
  else some (.error .check)

/-- The loop ends, and no search in it finds the sub-text before a bound: the index at first, and
    the end of what was put in last after that. -/
inductive EndsInOrder : ℕ → ℕ × Store → Store → Prop
  | last {bound : ℕ} {x : ℕ × Store} {s : Store}
      (hturn : replaceTurn reserved junk aSubStr aReplaceTo x = .ok (.inr s)) :
      EndsInOrder bound x s
  | turn {bound _pos : ℕ} {x : ℕ × Store} {s s' : Store}
      (hturn : replaceTurn reserved junk aSubStr aReplaceTo x = .ok (.inl (_pos, s)))
      (hbound : bound ≤ _pos) (hrest : EndsInOrder (_pos + aReplaceTo.length) (_pos, s) s') :
      EndsInOrder bound x s'

end Store

section Lists
variable (sub rep : List ℕ)

/-- The sub-text is replaced from left to right, after so many code points that are passed over. -/
def replaceLeft : ℕ → List ℕ → List ℕ
  | _, [] => []
  | k + 1, _ :: text => replaceLeft k text
  | 0, c :: text =>
    if sub <+: c :: text then rep ++ replaceLeft (sub.length - 1) text
    else c :: replaceLeft 0 text

/-- No sub-text begins in the replacement, with what comes behind it. -/
def NoneInside (rest : List ℕ) : Prop := ∀ i < rep.length, ¬sub <+: (rep ++ rest).drop i

/-- No sub-text begins in a replacement that is put in from left to right. -/
def StaysClear : ℕ → List ℕ → Prop
  | _, [] => True
  | k + 1, _ :: text => StaysClear k text
  | 0, c :: text =>
    if sub <+: c :: text then
      NoneInside sub rep (text.drop (sub.length - 1)) ∧ StaysClear (sub.length - 1) text
    else StaysClear 0 text

instance (rest : List ℕ) : Decidable (NoneInside sub rep rest) :=
  inferInstanceAs (Decidable (∀ i < rep.length, _))

instance decidableStaysClear : (k : ℕ) → (text : List ℕ) → Decidable (StaysClear sub rep k text)
  | 0, [] | _ + 1, [] => isTrue trivial
  | k + 1, _ :: text => decidableStaysClear k text
  | 0, c :: text =>
    have := decidableStaysClear (sub.length - 1) text
    have := decidableStaysClear 0 text
    inferInstanceAs (Decidable (if sub <+: c :: text then
      NoneInside sub rep (text.drop (sub.length - 1)) ∧ StaysClear sub rep (sub.length - 1) text
      else StaysClear sub rep 0 text))

variable {sub rep} {text : List ℕ}

theorem replaceLeft_skip (k : ℕ) (text : List ℕ) :
    replaceLeft sub rep k text = replaceLeft sub rep 0 (text.drop k) := by
  induction k generalizing text with
  | zero => rfl
  | succ k ih =>
    cases text with
    | nil => rfl
    | cons c text => exact ih text

theorem staysClear_skip (k : ℕ) (text : List ℕ) :
    StaysClear sub rep k text ↔ StaysClear sub rep 0 (text.drop k) := by
  induction k generalizing text with
  | zero => exact Iff.rfl
  | succ k ih =>
    cases text with
    | nil => exact Iff.rfl
    | cons c text => exact ih text

theorem replaceLeft_none (h : ∀ j, ¬sub <+: text.drop j) : replaceLeft sub rep 0 text = text := by
  induction text with
  | nil => rfl
  | cons c text ih =>
    have hhere : ¬sub <+: c :: text := h 0
    rw [replaceLeft, if_neg hhere, ih fun j => h (j + 1)]

theorem staysClear_none (h : ∀ j, ¬sub <+: text.drop j) : StaysClear sub rep 0 text := by
  induction text with
  | nil => trivial
  | cons c text ih =>
    have hhere : ¬sub <+: c :: text := h 0
    rw [StaysClear, if_neg hhere]
    exact ih fun j => h (j + 1)

/-- The first sub-text is replaced, and then those in the rest. -/
theorem replaceLeft_first (hne : sub ≠ []) {k : ℕ}
    (h : IsFirst (fun j => sub <+: text.drop j) (some k)) :
    replaceLeft sub rep 0 text =
        text.take k ++ rep ++ replaceLeft sub rep 0 (text.drop (k + sub.length)) ∧
      (StaysClear sub rep 0 text ↔ NoneInside sub rep (text.drop (k + sub.length)) ∧
        StaysClear sub rep 0 (text.drop (k + sub.length))) := by
  obtain ⟨hat, hfirst⟩ := h
  induction text generalizing k with
  | nil =>
    rw [List.drop_nil, List.prefix_nil] at hat
    exact absurd hat hne
  | cons c text ih =>
    have hpos := List.length_pos_iff.2 hne
    cases k with
    | zero =>
      have hdrop : (c :: text).drop (0 + sub.length) = text.drop (sub.length - 1) := by
        rw [Nat.zero_add, ← Nat.succ_pred_eq_of_pos hpos]
        rfl
      have hhere : sub <+: c :: text := hat
      rw [replaceLeft, StaysClear, if_pos hhere, if_pos hhere, replaceLeft_skip, staysClear_skip,
        hdrop]
      exact ⟨rfl, Iff.rfl⟩
    | succ k =>
      have hhere : ¬sub <+: c :: text := hfirst 0 (Nat.succ_pos k)
      obtain ⟨hleft, hclear⟩ := ih hat fun j hj => hfirst (j + 1) (Nat.succ_lt_succ hj)
      have hdrop : (c :: text).drop (k + 1 + sub.length) = text.drop (k + sub.length) := by
        rw [Nat.add_right_comm]
        rfl
      rw [replaceLeft, StaysClear, if_neg hhere, if_neg hhere, hleft, hclear, hdrop]
      exact ⟨rfl, Iff.rfl⟩

section Split
variable {done : List ℕ} {k : ℕ}

/-- The first sub-text from a position on, behind a part in which none is found, is the first one
    of the rest. -/
theorem first_behind {_pos : ℕ} (hpos : _pos ≤ done.length)
    (h : IsFirst (fun j => _pos ≤ j ∧ sub <+: (done ++ text).drop j) (some (done.length + k))) :
    IsFirst (fun j => sub <+: text.drop j) (some k) := by
  obtain ⟨⟨-, hat⟩, hfirst⟩ := h
  rw [List.drop_length_add_append] at hat
  refine ⟨hat, fun j hj hbefore => hfirst (done.length + j) (by omega) ⟨by omega, ?_⟩⟩
  rwa [List.drop_length_add_append]

theorem none_behind {_pos : ℕ} (hpos : _pos ≤ done.length)
    (h : IsFirst (fun j => _pos ≤ j ∧ sub <+: (done ++ text).drop j) none) (j : ℕ) :
    ¬sub <+: text.drop j := by
  intro hat
  refine h (done.length + j) ⟨by omega, ?_⟩
  rwa [List.drop_length_add_append]

/-- A text with a replacement in the place of a part of its rest. -/
theorem spliced (m : ℕ) :
    (done ++ text).take (done.length + k) ++ rep ++ (done ++ text).drop (done.length + k + m) =
      (done ++ text.take k) ++ rep ++ text.drop (k + m) := by
  rw [List.take_length_add_append, Nat.add_assoc, List.drop_length_add_append]

theorem noneInside_iff (front rest : List ℕ) :
    (∀ j, front.length ≤ j → j < front.length + rep.length →
      ¬sub <+: (front ++ rep ++ rest).drop j) ↔ NoneInside sub rep rest := by
  rw [List.append_assoc]
  constructor
  · intro h i hi hat
    refine h (front.length + i) (by omega) (by omega) ?_
    rwa [List.drop_length_add_append]
  · intro h j hle hlt hat
    obtain ⟨i, rfl⟩ := Nat.exists_eq_add_of_le hle
    rw [List.drop_length_add_append] at hat
    exact h i (by omega) hat

variable (rep done) in
/-- What a text may grow to goes down where one of its parts is replaced. -/
theorem length_bound {m : ℕ} (hm : 0 < m) (hk : k + m ≤ text.length) :
    (done ++ text.take k ++ rep).length + (text.drop (k + m)).length * (rep.length + 1) ≤
      done.length + text.length * (rep.length + 1) := by
  obtain ⟨q, hq⟩ := Nat.exists_eq_add_of_le hk
  have hfront : k ≤ k * (rep.length + 1) := Nat.le_mul_of_pos_right k (Nat.succ_pos _)
  have hpart : rep.length + 1 ≤ m * (rep.length + 1) := Nat.le_mul_of_pos_left _ hm
  rw [List.length_append, List.length_append, List.length_take, List.length_drop, hq,
    Nat.add_mul, Nat.add_mul, Nat.add_sub_cancel_left]
  omega

end Split

end Lists

namespace Store
variable {reserved junk : ℕ → ℕ} {sub rep : List ℕ} {s : Store}

/-- A text may have so many code points, and the memory for it is not more than a `size_type`
    tells. -/
def MayHave (reserved : ℕ → ℕ) (n : ℕ) : Prop :=
  n < maxSize ∧ ∀ k ≤ n, reserved (k + 1) * 4 < 2 ^ 64

theorem unchecked_replaceText {idx len : ℕ} (hidx : idx ≤ s.length)
    (hsize : subSize (addSize s.length rep.length)
      (if s.length < addSize len idx ∨ len = npos then s.length - idx else len) < maxSize) :
    Unchecked (s.replaceText reserved junk idx len (.other rep) 0 npos) := by
  rw [replaceText]
  refine (unchecked_check hidx).bind fun _ => (unchecked_check (Nat.zero_le _)).bind fun _ => ?_
  have hnum : clipReplaced 0 npos (s.sizeOf (.other rep)) = rep.length := by
    rw [clipReplaced, if_pos (.inr rfl)]
    rfl
  rw [hnum, replaceWith]
  refine (unchecked_grow hsize _).bind fun s₁ => Unchecked.bind ?_ fun s₂ => unchecked_put _ _ _
  have hcopy : ∀ s₂ : Store, Unchecked (s₂.copyFrom (.other rep) idx 0 rep.length) := fun s₂ =>
    (unchecked_readAt _ _ _).bind fun xs => unchecked_put _ xs _
  dsimp only
  split_ifs
  · exact Unchecked.bind ((unchecked_readAt _ _ _).bind fun xs => unchecked_put _ xs _) hcopy
  · exact hcopy s₁
  · exact Unchecked.bind ((unchecked_readAt _ _ _).bind fun xs => unchecked_put _ xs _) hcopy
  · exact hcopy s₁

variable (junk) in
/-- A sub-text is replaced where it stands. -/
theorem replaceText_occurrence (hreserved : ∀ n, n ≤ reserved n) (hs : s.Sized)
    (hsmall : s.length < maxSize) (hne : sub ≠ []) {p : ℕ} (hat : sub <+: s.codes.drop p)
    (hroom : MayHave reserved (s.length - sub.length + rep.length)) :
    ∃ s', s.replaceText reserved junk p sub.length (.other rep) 0 npos = .ok s' ∧ s'.Good ∧
      s'.codes = s.codes.take p ++ rep ++ s.codes.drop (p + sub.length) := by
  have hin := le_length_of_stands hne hat
  have hpos := List.length_pos_iff.2 hne
  rw [hs.length_codes] at hin
  obtain ⟨hlimit, hmemory⟩ := hroom
  have hmax : maxSize < 2 ^ 62 := by decide
  have hnpos : npos = 2 ^ 64 - 1 := rfl
  have hpart : part rep 0 npos = rep := by
    rw [part, List.drop_zero, List.take_of_length_le (by omega)]
  have hgap : s.gapOf p sub.length = sub.length := by
    rw [gapOf]
    omega
  have hsize : subSize (addSize s.length rep.length)
      (if s.length < addSize sub.length p ∨ sub.length = npos then s.length - p
        else sub.length) < maxSize := by
    have hsum : addSize sub.length p = sub.length + p := Nat.mod_eq_of_lt (by omega)
    rw [hsum, if_neg (by omega), addSize, subSize]
    omega
  have hnew : Room reserved s
      (s.length - s.gapOf p sub.length + (part (s.codesOf (.other rep)) 0 npos).length) := by
    change Room reserved s (_ + (part rep 0 npos).length)
    rw [hgap, hpart]
    exact ⟨by omega, .inr (hmemory _ le_rfl)⟩
  have hsrc : (s.codesOf (.other rep)).length ≤ npos := by
    change rep.length ≤ npos
    omega
  have hbecomes : Becomes (s.codes.take p ++ part rep 0 npos ++ s.codes.drop (p + sub.length))
      (s.replaceText reserved junk p sub.length (.other rep) 0 npos) :=
    replaceText_becomes hreserved hs hsrc (by omega) (.inr (by omega)) (.inl rfl)
      hnew fun hself => by cases hself
  rw [hpart] at hbecomes
  exact hbecomes.exists_ok (unchecked_replaceText (by omega) hsize)

variable (reserved junk rep) in
/-- A turn searches from its position on and replaces what it finds. -/
theorem replaceTurn_eq (hs : s.Sized) (hne : sub ≠ []) (_pos : ℕ) :
    ∃ r, IsFirst (fun j => _pos ≤ j ∧ sub <+: s.codes.drop j) r ∧
      replaceTurn reserved junk sub rep (_pos, s) = match r with
        | none => .ok (.inr s)
        | some p => (s.replaceText reserved junk p sub.length (.other rep) 0 npos).map fun s' =>
          .inl (p, s') := by
  obtain ⟨r, hfind, hfirst⟩ := @findText_spec s.codes sub hne _pos
  refine ⟨r, hfirst, ?_⟩
  rw [replaceTurn]
  split_ifs with hend
  · cases r with
    | none => rfl
    | some p =>
      obtain ⟨⟨hle, hat⟩, -⟩ := hfirst
      have hin := le_length_of_stands hne hat
      have hpos := List.length_pos_iff.2 hne
      rw [hs.length_codes] at hin
      omega
  · rw [hfind]
    cases r with
    | none => rfl
    | some p =>
      change (do
        let s' ← s.replaceText reserved junk p sub.length (.other rep) 0 npos
        return Sum.inl (p, s')) =
          (s.replaceText reserved junk p sub.length (.other rep) 0 npos).map _
      cases s.replaceText reserved junk p sub.length (.other rep) 0 npos <;> rfl

section Runs
variable (hreserved : ∀ n, n ≤ reserved n) (hne : sub ≠ []) {M : ℕ} (hroom : MayHave reserved M)
include hreserved hne hroom

variable (junk) in
/-- The loop replaces the first sub-text behind what is done, and what it leaves is of the same
    kind. -/
theorem replaceTurn_found {done text : List ℕ} {k : ℕ} (hs : s.Sized)
    (hcodes : s.codes = done ++ text) (hat : sub <+: text.drop k)
    (hM : done.length + text.length * (rep.length + 1) ≤ M) :
    ∃ s', s.replaceText reserved junk (done.length + k) sub.length (.other rep) 0 npos = .ok s' ∧
      s'.Sized ∧ s'.codes = (done ++ text.take k) ++ rep ++ text.drop (k + sub.length) ∧
      (done ++ text.take k).length = done.length + k ∧
      (done ++ text.take k ++ rep).length +
        (text.drop (k + sub.length)).length * (rep.length + 1) ≤ M ∧
      (text.drop (k + sub.length)).length < text.length := by
  have hpos := List.length_pos_iff.2 hne
  have hin := le_length_of_stands hne hat
  have hlength := hs.length_codes
  have hbound := length_bound rep done hpos hin
  rw [hcodes, List.length_append] at hlength
  have hsize : s.length - sub.length + rep.length ≤
      (done ++ text.take k ++ rep).length +
        (text.drop (k + sub.length)).length * (rep.length + 1) := by
    have hrest : (text.drop (k + sub.length)).length ≤
        (text.drop (k + sub.length)).length * (rep.length + 1) :=
      Nat.le_mul_of_pos_right _ (Nat.succ_pos _)
    rw [List.length_drop] at hrest ⊢
    rw [List.length_append, List.length_append, List.length_take]
    omega
  have hsmall : s.length < maxSize := by
    have hle : text.length ≤ text.length * (rep.length + 1) :=
      Nat.le_mul_of_pos_right _ (Nat.succ_pos _)
    have hlt := hroom.1
    omega
  have hat' : sub <+: s.codes.drop (done.length + k) := by
    rwa [hcodes, List.drop_length_add_append]
  have hroom' : MayHave reserved (s.length - sub.length + rep.length) :=
    ⟨lt_of_le_of_lt (by omega) hroom.1, fun i hi => hroom.2 i (by omega)⟩
  obtain ⟨s', hreplace, hgood, hcodes'⟩ :=
    replaceText_occurrence junk hreserved hs hsmall hne hat' hroom'
  rw [hcodes, spliced] at hcodes'
  refine ⟨s', hreplace, hgood.sized, hcodes', ?_, by omega, ?_⟩
  · rw [List.length_append, List.length_take]
    omega
  · rw [List.length_drop]
    omega

variable (junk) in
/-- Where no sub-text begins in a replacement, the loop ends with the sub-texts replaced from left
    to right. -/
theorem ends_of_clear (n : ℕ) : ∀ {done text : List ℕ} {s : Store} {_pos : ℕ}, text.length < n →
    s.Sized → s.codes = done ++ text → _pos ≤ done.length →
    done.length + text.length * (rep.length + 1) ≤ M →
    (∀ j, _pos ≤ j → j < done.length → ¬sub <+: s.codes.drop j) → StaysClear sub rep 0 text →
    ∃ s', loop (replaceTurn reserved junk sub rep) n (_pos, s) = some (.ok s') ∧
      EndsInOrder reserved junk sub rep done.length (_pos, s) s' ∧
      s'.codes = done ++ replaceLeft sub rep 0 text := by
  induction n with
  | zero => exact fun h => absurd h (Nat.not_lt_zero _)
  | succ n ih =>
    intro done text s _pos hn hs hcodes hpos hM hnone hclear
    obtain ⟨r, hfirst, hturn⟩ :=
      replaceTurn_eq reserved junk rep hs hne _pos
    rw [hcodes] at hfirst
    cases r with
    | none =>
      refine ⟨s, by rw [loop, hturn], .last hturn, ?_⟩
      rw [hcodes, replaceLeft_none (none_behind hpos hfirst)]
    | some p =>
      have hle : done.length ≤ p := by
        by_contra hlt
        exact hnone p hfirst.1.1 (Nat.lt_of_not_le hlt) (hcodes ▸ hfirst.1.2)
      obtain ⟨k, rfl⟩ := Nat.exists_eq_add_of_le hle
      have hfirst' := first_behind hpos hfirst
      obtain ⟨hleft, hclear'⟩ := @replaceLeft_first sub rep text hne k hfirst'
      obtain ⟨hinside, hrest⟩ := hclear'.1 hclear
      obtain ⟨s₁, hreplace, hs₁, hcodes₁, hlen, hM₁, hless⟩ :=
        replaceTurn_found junk hreserved hne hroom hs hcodes hfirst'.1 hM
      dsimp only at hturn
      rw [hreplace] at hturn
      have hend : (done ++ text.take k ++ rep).length = done.length + k + rep.length := by
        rw [List.length_append, hlen]
      obtain ⟨s', hloop, hends, hcodes'⟩ := @ih _ _ _ (done.length + k) (by omega) hs₁ hcodes₁
        (by omega) hM₁ (fun j hj hlt => by
          rw [hcodes₁]
          exact (noneInside_iff _ _).2 hinside j (by omega) (by omega)) hrest
      rw [hend] at hends
      refine ⟨s', by rw [loop, hturn]; exact hloop, .turn hturn hle hends, ?_⟩
      rw [hcodes', hleft]
      simp only [List.append_assoc]

/-- A loop that finds no sub-text before its bounds meets none that begins in a replacement. -/
theorem clear_of_ends {bound : ℕ} {x : ℕ × Store} {s' : Store}
    (h : EndsInOrder reserved junk sub rep bound x s') {done text : List ℕ} (hs : x.2.Sized)
    (hcodes : x.2.codes = done ++ text) (hbound : bound = done.length) (hpos : x.1 ≤ done.length)
    (hM : done.length + text.length * (rep.length + 1) ≤ M) :
    (∀ j, x.1 ≤ j → j < done.length → ¬sub <+: x.2.codes.drop j) ∧ StaysClear sub rep 0 text := by
  induction h generalizing done text with
  | @last bound x s hturn =>
    obtain ⟨_pos, s⟩ := x
    obtain ⟨r, hfirst, hturn'⟩ :=
      replaceTurn_eq reserved junk rep hs hne _pos
    rw [hturn'] at hturn
    cases r with
    | none =>
      refine ⟨fun j hj _ hat => hfirst j ⟨hj, hat⟩, staysClear_none ?_⟩
      rw [hcodes] at hfirst
      exact none_behind hpos hfirst
    | some p =>
      dsimp only at hturn
      cases hreplace : s.replaceText reserved junk p sub.length (.other rep) 0 npos with
      | error e => rw [hreplace] at hturn; exact nomatch hturn
      | ok s₁ => rw [hreplace] at hturn; exact nomatch hturn
  | @turn bound p x s₁ s' hturn hle hrest ih =>
    obtain ⟨_pos, s⟩ := x
    obtain ⟨r, hfirst, hturn'⟩ :=
      replaceTurn_eq reserved junk rep hs hne _pos
    rw [hturn'] at hturn
    cases r with
    | none => exact nomatch hturn
    | some q =>
      dsimp only at hturn
      cases hreplace : s.replaceText reserved junk q sub.length (.other rep) 0 npos with
      | error e => rw [hreplace] at hturn; exact nomatch hturn
      | ok s₂ =>
        rw [hreplace] at hturn
        cases hturn
        subst hbound
        refine ⟨fun j hj hlt hat => hfirst.2 j (by omega) ⟨hj, hat⟩, ?_⟩
        obtain ⟨k, rfl⟩ := Nat.exists_eq_add_of_le hle
        dsimp only at hcodes
        rw [hcodes] at hfirst
        have hfirst' := first_behind hpos hfirst
        obtain ⟨s₂, hreplace', hs₂, hcodes₂, hlen, hM₂, -⟩ :=
          replaceTurn_found junk hreserved hne hroom hs hcodes hfirst'.1 hM
        rw [hreplace] at hreplace'
        cases hreplace'
        have hend : done.length + k + rep.length = (done ++ text.take k ++ rep).length := by
          rw [List.length_append, hlen]
        obtain ⟨hinside, hrest'⟩ := ih hs₂ hcodes₂ hend (by dsimp only; omega) hM₂
        refine (replaceLeft_first hne hfirst').2.2
          ⟨(noneInside_iff (done ++ text.take k) _).1 fun j hj hlt => ?_, hrest'⟩
        rw [← hcodes₂]
        exact hinside j (by dsimp only; omega) (by omega)

end Runs

theorem splice_self {codes : List ℕ} {p : ℕ} (hat : sub <+: codes.drop p) :
    codes.take p ++ sub ++ codes.drop (p + sub.length) = codes := by
  obtain ⟨rest, hrest⟩ := hat
  have hdrop : codes.drop (p + sub.length) = rest := by
    rw [← List.drop_drop, ← hrest, List.drop_left]
  rw [hdrop, List.append_assoc, hrest, List.take_append_drop]

/-- A sub-text that is replaced by itself is found again and again. -/
theorem loop_self (hreserved : ∀ n, n ≤ reserved n) (hne : sub ≠ []) (n : ℕ) :
    ∀ {s : Store} {p _pos : ℕ}, s.Sized → MayHave reserved s.length → sub <+: s.codes.drop p →
      _pos ≤ p → loop (replaceTurn reserved junk sub sub) n (_pos, s) = none := by
  induction n with
  | zero => exact fun _ _ _ _ => rfl
  | succ n ih =>
    intro s p _pos hs hroom hat hle
    obtain ⟨r, hfirst, hturn⟩ :=
      replaceTurn_eq reserved junk sub hs hne _pos
    cases r with
    | none => exact absurd ⟨hle, hat⟩ (hfirst p)
    | some q =>
      have hat' := hfirst.1.2
      have hin := le_length_of_stands hne hat'
      have hlength := hs.length_codes
      have hsame : s.length - sub.length + sub.length = s.length := by omega
      obtain ⟨s', hreplace, hgood, hcodes⟩ := replaceText_occurrence junk hreserved hs
        hroom.1 hne hat' (hsame.symm ▸ hroom)
      rw [splice_self hat'] at hcodes
      dsimp only at hturn
      rw [hreplace] at hturn
      rw [loop, hturn]
      refine ih hgood.sized ?_ (p := q) (hcodes.symm ▸ hat') le_rfl
      rwa [← hgood.sized.length_codes, hcodes, hlength]

/-- `MReplaceAll` ends with the sub-texts replaced from left to right, and none is found before the
    index or in a replacement, just when none begins there. -/
theorem mReplaceAll_inOrder_iff (hreserved : ∀ n, n ≤ reserved n) (hs : s.Sized) (hne : sub ≠ [])
    {idx : ℕ} (hidx : idx < s.length) (hroom : MayHave reserved (s.length * (rep.length + 1)))
    (len : ℕ) :
    (∃ n s', s.mReplaceAll reserved junk sub rep n idx len = some (.ok s') ∧
        EndsInOrder reserved junk sub rep idx (0, s) s' ∧
        s'.codes = s.codes.take idx ++ replaceLeft sub rep 0 (s.codes.drop idx)) ↔
      (∀ j < idx, ¬sub <+: s.codes.drop j) ∧ StaysClear sub rep 0 (s.codes.drop idx) := by
  have hlength := hs.length_codes
  have hcodes : s.codes = s.codes.take idx ++ s.codes.drop idx := (List.take_append_drop _ _).symm
  have hfront : (s.codes.take idx).length = idx := by
    rw [List.length_take]
    omega
  have hM : (s.codes.take idx).length + (s.codes.drop idx).length * (rep.length + 1) ≤
      s.length * (rep.length + 1) := by
    obtain ⟨q, hq⟩ := Nat.exists_eq_add_of_le (Nat.le_of_lt hidx)
    have hle : idx ≤ idx * (rep.length + 1) := Nat.le_mul_of_pos_right _ (Nat.succ_pos _)
    rw [hfront, List.length_drop, hlength, hq, Nat.add_sub_cancel_left, Nat.add_mul]
    omega
  have hstart : ∀ n, s.mReplaceAll reserved junk sub rep n idx len =
      loop (replaceTurn reserved junk sub rep) n (0, s) := by
    intro n
    rw [mReplaceAll, if_neg (by omega), if_neg hne, if_pos hidx]
  constructor
  · rintro ⟨-, s', -, hends, -⟩
    obtain ⟨hnone, hclear⟩ := clear_of_ends hreserved hne hroom hends hs hcodes hfront.symm
      (Nat.zero_le _) hM
    exact ⟨fun j hj => hnone j (Nat.zero_le j) (by omega), hclear⟩
  · rintro ⟨hnone, hclear⟩
    obtain ⟨s', hloop, hends, hcodes'⟩ := ends_of_clear junk hreserved hne hroom _
      (Nat.lt_succ_self _) hs hcodes (Nat.zero_le _) hM
      (fun j _ hlt => hnone j (by omega)) hclear
    rw [hfront] at hends
    exact ⟨_, s', (hstart _).trans hloop, hends, hcodes'⟩

theorem mayHave_small {n : ℕ} (h : n < 2 ^ 32) : MayHave (fun n => n * 13 / 10) n := by
  have hmax : 2 ^ 32 < maxSize := by decide
  refine ⟨lt_trans h hmax, fun k hk => ?_⟩
  dsimp only
  omega

/-- A text of two characters, with memory for three. -/
def twoChars : Store := ⟨⟨[97, 98, 0], 3, none, 0, 0⟩, false, 2⟩

theorem mReplaceAll_inOrder_twoChars : ∃ n s',
    twoChars.mReplaceAll (fun n => n * 13 / 10) (fun _ => 7) [97] [99, 99] n 0 npos =
      some (.ok s') ∧
    EndsInOrder (fun n => n * 13 / 10) (fun _ => 7) [97] [99, 99] 0 (0, twoChars) s' ∧
    s'.codes = [99, 99, 98] :=
  (mReplaceAll_inOrder_iff (fun n => by omega) ⟨rfl, by decide⟩ (List.cons_ne_nil _ _)
    (by decide) (mayHave_small (by decide)) npos).2
    ⟨fun j hj => absurd hj (Nat.not_lt_zero j), by decide⟩

theorem mReplaceAll_endless : ¬∃ n, twoChars.mReplaceAll (fun n => n * 13 / 10) (fun _ => 7)
    [97] [97] n 0 npos ≠ none := by
  rintro ⟨n, hends⟩
  exact hends (loop_self (fun n => by omega) (List.cons_ne_nil _ _) n (s := twoChars) (p := 0)
    ⟨rfl, by decide⟩ (mayHave_small (by decide)) (by decide) (Nat.zero_le _))

end Store

end UdtKernel.CText
