import UdtKernel.Text.Search

set_option autoImplicit false

/-! The searches of a `CText`, in all of their overloads. -/

namespace UdtKernel.CText

inductive Search where
  | find
  | rfind
  | firstOf
  | firstNotOf
  | lastOf
  | lastNotOf

/-- What a search is given: a `CText`, a `std::string`, some characters of a string and their
    number, a string, or one code point. -/
inductive Pattern where
  | text (str : List ℕ)
  | std (str : List ℕ)
  | chars (str : List CodePoint) (n : ℕ)
  | cstr (str : List CodePoint)
  | code (c : ℕ)

namespace Pattern

def codes : Pattern → List ℕ
  | text str | std str => str
  | chars str n => (str.map Subtype.val).take n
  | cstr str => str.map Subtype.val
  | code c => [c]

/-- A pattern of valid code points that is not empty; no more characters are asked for than the
    string has, and they are elements of an object. -/
structure Valid (p : Pattern) : Prop where
  some : p.codes ≠ []
  valid : ∀ c ∈ p.codes, isCodeValid c = true
  small : p.codes.length < 2 ^ 63
  counted : ∀ str n, p = chars str n → n ≤ str.length

end Pattern

namespace Search
open Pattern

section Run
variable (codes : List ℕ) (idx : ℕ)

def run : Search → Pattern → Except Fault (Option ℕ)
  | find, text str => findText codes str idx
  | find, std str => findStd codes (encode str) idx
  | find, chars str n => findUtf8 codes (utf8Of str) idx n
  | find, cstr str => findCStr codes (utf8Of str) idx
  | find, code c => findCode codes c idx
  | rfind, text str => rfindText codes str idx
  | rfind, std str => rfindStd codes (encode str) idx
  | rfind, chars str n => rfindUtf8 codes (utf8Of str) idx n
  | rfind, cstr str => rfindCStr codes (utf8Of str) idx
  | rfind, code c => rfindCode codes c idx
  | firstOf, text str => findFirstOfText codes str idx
  | firstOf, std str => findFirstOfStd codes (encode str) idx
  | firstOf, chars str n => findFirstOfUtf8 codes (utf8Of str) idx n
  | firstOf, cstr str => findFirstOfCStr codes (utf8Of str) idx
  | firstOf, code c => findFirstOfCode codes c idx
  | firstNotOf, text str => findFirstNotOfText codes str idx
  | firstNotOf, std str => findFirstNotOfStd codes (encode str) idx
  | firstNotOf, chars str n => findFirstNotOfUtf8 codes (utf8Of str) idx n
  | firstNotOf, cstr str => findFirstNotOfCStr codes (utf8Of str) idx
  | firstNotOf, code c => findFirstNotOfCode codes c idx
  | lastOf, text str => findLastOfText codes str idx
  | lastOf, std str => findLastOfStd codes (encode str) idx
  | lastOf, chars str n => findLastOfUtf8 codes (utf8Of str) idx n
  | lastOf, cstr str => findLastOfCStr codes (utf8Of str) idx
  | lastOf, code c => findLastOfCode codes c idx
  | lastNotOf, text str => findLastNotOfText codes str idx
  | lastNotOf, std str => findLastNotOfStd codes (encode str) idx
  | lastNotOf, chars str n => findLastNotOfUtf8 codes (utf8Of str) idx n
  | lastNotOf, cstr str => findLastNotOfCStr codes (utf8Of str) idx
  | lastNotOf, code c => findLastNotOfCode codes c idx

end Run

/-- A position on the side of the index that is searched. -/
def Side : Search → ℕ → ℕ → Prop
  | find, idx, j | firstOf, idx, j | firstNotOf, idx, j => idx ≤ j
  | rfind, idx, j | lastOf, idx, j | lastNotOf, idx, j => j ≤ idx

/-- A position is nearer than another one to the index. -/
def Nearer : Search → ℕ → ℕ → Prop
  | find, j, k | firstOf, j, k | firstNotOf, j, k => j < k
  | rfind, j, k | lastOf, j, k | lastNotOf, j, k => k < j

def Hit : Search → List ℕ → List ℕ → ℕ → Prop
  | find, pat, codes, j | rfind, pat, codes, j => pat <+: codes.drop j
  | firstOf, pat, codes, j | lastOf, pat, codes, j => StandsAt codes (· ∈ pat) j
  | firstNotOf, pat, codes, j | lastNotOf, pat, codes, j => StandsAt codes (· ∉ pat) j

/-- The result is the nearest of some positions, `npos` when there is none. -/
def Nearest (s : Search) (P : ℕ → Prop) (r : Option ℕ) : Prop :=
  match r with
  | some i => P i ∧ ∀ j, s.Nearer j i → ¬P j
  | none => ∀ j, ¬P j

def Right (s : Search) (pat codes : List ℕ) (idx : ℕ) (r : Option ℕ) : Prop :=
  s.Nearest (fun j => s.Side idx j ∧ s.Hit pat codes j) r

/-- The positions that are searched: characters are searched back for from a position of the text
    only. -/
def Within : Search → Pattern → List ℕ → ℕ → ℕ → Prop
  | rfind, std _, codes, idx, j | rfind, chars _ _, codes, idx, j | rfind, cstr _, codes, idx, j =>
    idx < codes.length ∧ j ≤ idx
  | s, _, _, idx, j => s.Side idx j

def Gives (s : Search) (p : Pattern) (codes : List ℕ) (idx : ℕ) (r : Option ℕ) : Prop :=
  s.Nearest (fun j => s.Within p codes idx j ∧ s.Hit p.codes codes j) r

def Plain (str : List ℕ) : Prop := ∀ c ∈ str, c ≠ 0 ∧ c < 0x80

/-- Where a position is a hit for some code points and not for others, one for both is nearer. -/
def Agree (s : Search) (part all codes : List ℕ) (idx : ℕ) : Prop :=
  ∀ j, s.Side idx j → (s.Hit part codes j ↔ s.Hit all codes j) ∨
    ∃ k, s.Side idx k ∧ s.Nearer k j ∧ s.Hit part codes k ∧ s.Hit all codes k

/-- What keeps a call from going wrong: a `std::string` is plain, unless its bytes are not counted;
    the characters behind the number of them do not matter; and no code point before the index is
    found when the search begins with the text. -/
def Spared : Search → Pattern → List ℕ → ℕ → Prop
  | firstOf, std str, codes, idx | firstNotOf, std str, codes, idx =>
    codes.length ≤ idx ∨ Plain str
  | _, std str, _, _ => Plain str
  | find, chars _ _, _, _ | rfind, chars _ _, _, _ => True
  | s, chars str n, codes, idx =>
    s.Agree ((str.map Subtype.val).take n) (str.map Subtype.val) codes idx
  | firstNotOf, code c, codes, idx => codes.length ≤ idx ∨ ∀ d ∈ codes.take idx, d = c
  | _, _, _, _ => True

section Nearest
variable {s : Search} {A B : ℕ → Prop} {r : Option ℕ} {i j k : ℕ}

theorem nearer_or (s : Search) (h : j ≠ k) : s.Nearer j k ∨ s.Nearer k j := by
  cases s <;> simp only [Nearer] <;> omega

theorem Nearer.trans (h : s.Nearer i j) (h' : s.Nearer j k) : s.Nearer i k := by
  cases s <;> simp only [Nearer] at * <;> omega

/-- The nearest of some positions is that of others just when a nearer one is of both kinds
    wherever they differ. -/
theorem nearest_iff (h : s.Nearest B r) :
    s.Nearest A r ↔ ∀ j, (A j ↔ B j) ∨ ∃ k, s.Nearer k j ∧ A k ∧ B k := by
  cases r with
  | none =>
    constructor
    · exact fun hA j => .inl (iff_of_false (hA j) (h j))
    · intro hagree j hj
      rcases hagree j with hsame | ⟨k, -, -, hk⟩
      · exact h j (hsame.1 hj)
      · exact h k hk
  | some i =>
    obtain ⟨hB, hnone⟩ := h
    constructor
    · rintro ⟨hA, hnone'⟩ j
      by_cases hji : j = i
      · exact .inl (hji ▸ iff_of_true hA hB)
      · rcases s.nearer_or hji with hj | hj
        · exact .inl (iff_of_false (hnone' j hj) (hnone j hj))
        · exact .inr ⟨i, hj, hA, hB⟩
    · intro hagree
      refine ⟨?_, fun j hj hA => ?_⟩
      · rcases hagree i with hsame | ⟨k, hk, -, hBk⟩
        · exact hsame.2 hB
        · exact absurd hBk (hnone k hk)
      · rcases hagree j with hsame | ⟨k, hk, -, hBk⟩
        · exact hnone j hj (hsame.1 hA)
        · exact hnone k (hk.trans hj) hBk

variable {x : Except Fault (Option ℕ)}

theorem nearest_of_first (hs : s.Nearer = (· < ·)) (h : ∃ r, x = .ok r ∧ IsFirst A r) :
    ∃ r, x = .ok r ∧ s.Nearest A r := by
  obtain ⟨r, hr, hfirst⟩ := h
  refine ⟨r, hr, ?_⟩
  cases r with
  | none => exact hfirst
  | some i => exact ⟨hfirst.1, fun j hj => hfirst.2 j (by rwa [hs] at hj)⟩

theorem nearest_of_last (hs : s.Nearer = fun j k => k < j) (h : ∃ r, x = .ok r ∧ IsLast A r) :
    ∃ r, x = .ok r ∧ s.Nearest A r := by
  obtain ⟨r, hr, hlast⟩ := h
  refine ⟨r, hr, ?_⟩
  cases r with
  | none => exact hlast
  | some i =>
    refine ⟨hlast.1, fun j hj hA => ?_⟩
    rw [hs] at hj
    exact Nat.not_lt.2 (hlast.2 j hA) hj

theorem gives_iff (h : ∃ r, x = .ok r ∧ s.Nearest B r) :
    (∃ r, x = .ok r ∧ s.Nearest A r) ↔ ∀ j, (A j ↔ B j) ∨ ∃ k, s.Nearer k j ∧ A k ∧ B k := by
  obtain ⟨r, rfl, hB⟩ := h
  rw [← nearest_iff hB]
  constructor
  · rintro ⟨r', hr, hA⟩
    exact Except.ok.inj hr ▸ hA
  · exact fun hA => ⟨r, rfl, hA⟩

/-- The positions that are not on the side of the index do not matter. -/
theorem agree_iff (s : Search) (part all codes : List ℕ) (idx : ℕ) :
    (∀ j, (s.Side idx j ∧ s.Hit part codes j ↔ s.Side idx j ∧ s.Hit all codes j) ∨
      ∃ k, s.Nearer k j ∧ (s.Side idx k ∧ s.Hit part codes k) ∧ s.Side idx k ∧ s.Hit all codes k) ↔
      s.Agree part all codes idx := by
  constructor
  · intro h j hside
    rcases h j with hsame | ⟨k, hk, ⟨hside', hpart⟩, -, hall⟩
    · exact .inl (by simpa only [hside, true_and] using hsame)
    · exact .inr ⟨k, hside', hk, hpart, hall⟩
  · intro h j
    by_cases hside : s.Side idx j
    · rcases h j hside with hsame | ⟨k, hside', hk, hpart, hall⟩
      · exact .inl (and_congr_right fun _ => hsame)
      · exact .inr ⟨k, hk, ⟨hside', hpart⟩, hside', hall⟩
    · exact .inl (iff_of_false (fun h => hside h.1) fun h => hside h.1)

end Nearest

/-- A call ends well, with what it is to give. -/
def Meets (s : Search) (p : Pattern) (codes : List ℕ) (idx : ℕ) : Prop :=
  ∃ r, s.run codes idx p = .ok r ∧ s.Gives p codes idx r

section Calls
variable (s : Search) {codes : List ℕ} {idx : ℕ}

theorem meets_text {str : List ℕ} (hne : str ≠ []) : s.Meets (text str) codes idx := by
  have hin := isInText_decides str
  have hout := isNotInText_decides str
  cases s with
  | find => exact nearest_of_first rfl (findText_spec hne idx)
  | rfind => exact nearest_of_last rfl (rfindText_spec hne idx)
  | firstOf =>
    refine nearest_of_first rfl ?_
    rw [run, findFirstOfText, firstFound_guarded]
    exact firstFound_spec hin idx
  | firstNotOf =>
    refine nearest_of_first rfl ?_
    rw [run, findFirstNotOfText, firstFound_guarded]
    exact firstFound_spec hout idx
  | lastOf => exact nearest_of_last rfl (lastFound_spec hin idx)
  | lastNotOf => exact nearest_of_last rfl (lastFound_spec hout idx)

theorem prefix_singleton {c j : ℕ} : [c] <+: codes.drop j ↔ StandsAt codes (· ∈ [c]) j := by
  constructor
  · rintro ⟨l, hl⟩
    have hget : (codes.drop j)[0]? = some c := by rw [← hl]; rfl
    rw [List.getElem?_drop, Nat.add_zero] at hget
    exact ⟨c, hget, List.mem_singleton_self c⟩
  · rintro ⟨d, hd, hmem⟩
    rw [drop_of_codeAt (List.mem_singleton.1 hmem ▸ hd)]
    exact ⟨_, rfl⟩

/-- The search for the first other code point is right when it need not begin at the index. -/
theorem meets_firstNotOf_code (c : ℕ) :
    firstNotOf.Meets (code c) codes idx ↔
      codes.length ≤ idx ∨ ∀ d ∈ codes.take idx, d = c := by
  refine (gives_iff (nearest_of_first rfl (findFirstNotOfCode_spec codes c idx))).trans ?_
  constructor
  · intro h
    rw [or_iff_not_imp_left, Nat.not_le]
    intro hin d hd
    obtain ⟨j, hj⟩ := List.mem_iff_getElem?.1 hd
    rw [List.getElem?_take] at hj
    by_cases hlt : j < idx
    · rw [if_pos hlt] at hj
      by_contra hne
      have hother : StandsAt codes (· ∉ [c]) j := ⟨d, hj, mt List.mem_singleton.1 hne⟩
      rcases h j with hsame | ⟨k, hk, ⟨hside, -⟩, -⟩
      · exact absurd (hsame.2 ⟨hin, hother⟩).1 (Nat.not_le.2 hlt)
      · exact absurd (Nat.lt_of_le_of_lt hside hk) (Nat.lt_asymm hlt)
    · rw [if_neg hlt] at hj
      exact nomatch hj
  · intro h j
    refine .inl (and_congr_left fun hother => ?_)
    obtain ⟨d, hd, hne⟩ := hother
    have hlt := (List.getElem?_eq_some_iff.1 hd).1
    constructor
    · intro (hside : idx ≤ j)
      omega
    · intro hin
      by_contra hside
      have hbefore : j < idx := Nat.lt_of_not_le hside
      have hmem : d ∈ codes.take idx :=
        List.mem_of_getElem? (i := j) (by rw [List.getElem?_take, if_pos hbefore, hd])
      exact hne (List.mem_singleton.2 (h.resolve_left (Nat.not_le.2 hin) d hmem))

theorem meets_code (c : ℕ) : s.Meets (code c) codes idx ↔ s.Spared (code c) codes idx := by
  cases s with
  | find =>
    have hcode := findCode_spec codes c idx
    simp only [← prefix_singleton] at hcode
    exact iff_of_true (nearest_of_first rfl hcode) trivial
  | rfind =>
    have hcode := rfindCode_spec codes c idx
    simp only [← prefix_singleton] at hcode
    exact iff_of_true (nearest_of_last rfl hcode) trivial
  | firstOf => exact iff_of_true (nearest_of_first rfl (findCode_spec codes c idx)) trivial
  | firstNotOf => exact meets_firstNotOf_code c
  | lastOf => exact iff_of_true (nearest_of_last rfl (rfindCode_spec codes c idx)) trivial
  | lastNotOf =>
    exact iff_of_true (nearest_of_last rfl (findLastNotOfCode_spec codes c idx)) trivial

theorem meets_chars {str : List CodePoint} {n : ℕ} (hpos : 0 < n) (hn : n ≤ str.length)
    (hsmall : codes.length + n < npos) :
    s.Meets (chars str n) codes idx ↔ s.Spared (chars str n) codes idx := by
  have hagree := fun s : Search =>
    s.agree_iff ((str.map Subtype.val).take n) (str.map Subtype.val) codes idx
  have hsize : n ≠ npos := by omega
  have hin := isInUtf8_decides str n
  have hout := isNotInUtf8_decides str n
  cases s with
  | find => exact iff_of_true (nearest_of_first rfl (findUtf8_spec hpos hn hsmall idx)) trivial
  | rfind => exact iff_of_true (nearest_of_last rfl (rfindUtf8_spec hpos hn hsmall idx)) trivial
  | firstOf =>
    exact (gives_iff (nearest_of_first rfl (firstOfUtf8_spec hn hsize idx hin))).trans
      (hagree firstOf)
  | firstNotOf =>
    exact (gives_iff (nearest_of_first rfl (firstOfUtf8_spec hn hsize idx hout))).trans
      (hagree firstNotOf)
  | lastOf =>
    exact (gives_iff (nearest_of_last rfl (lastOfUtf8_spec hn hsize idx hin))).trans
      (hagree lastOf)
  | lastNotOf =>
    exact (gives_iff (nearest_of_last rfl (lastOfUtf8_spec hn hsize idx hout))).trans
      (hagree lastNotOf)

theorem run_cstr {str : List CodePoint} (hsmall : str.length < npos) :
    s.run codes idx (cstr str) = s.run codes idx (chars str str.length) := by
  have hlen : mLengthOf (utf8Of str) npos = .ok str.length := by
    rw [Store.mLengthOf_utf8Of, Nat.min_eq_right (Nat.le_of_lt hsmall)]
  cases s <;> simp only [run, findCStr, rfindCStr, findFirstOfCStr, findFirstNotOfCStr,
    findLastOfCStr, findLastNotOfCStr, hlen] <;> rfl

theorem gives_cstr {str : List CodePoint} {r : Option ℕ} :
    s.Gives (cstr str) codes idx r ↔ s.Gives (chars str str.length) codes idx r := by
  have hcodes : (chars str str.length).codes = (cstr str).codes :=
    List.take_of_length_le (List.length_map _).le
  rw [Gives, Gives, hcodes]
  cases s <;> rfl

theorem meets_cstr {str : List CodePoint} (hne : str ≠ [])
    (hsmall : codes.length + str.length < npos) : s.Meets (cstr str) codes idx := by
  have hspared : s.Spared (chars str str.length) codes idx := by
    have hall : (str.map Subtype.val).take str.length = str.map Subtype.val :=
      List.take_of_length_le (List.length_map _).le
    cases s <;> first
      | trivial
      | exact fun j _ => .inl (by rw [hall])
  obtain ⟨r, hr, hgives⟩ :=
    (s.meets_chars (List.length_pos_iff.2 hne) le_rfl hsmall).2 hspared
  exact ⟨r, by rw [run_cstr s (by omega), hr], (gives_cstr s).2 hgives⟩

end Calls

theorem check_bind_error {p : Prop} [Decidable p] {α β : Type} (f : α → Except Fault β) :
    (do check p; (Except.error Fault.check : Except Fault α) >>= f) = .error .check := by
  unfold check
  split_ifs <;> rfl

/-- Nothing is checked but the number where the index is behind the text. -/
theorem firstOfUtf8_guarded (codes : List ℕ) (str : List Byte) (idx : ℕ)
    (found : ℕ → Except Fault Bool) {n : ℕ} (hsize : n ≠ npos) :
    (if codes.length ≤ idx then .ok none else firstOfUtf8 codes str idx n found) =
      firstOfUtf8 codes str idx n found := by
  have hcheck : check (n ≠ npos) = .ok () := if_pos hsize
  refine ite_eq_right_iff.2 fun hout => ?_
  rw [firstOfUtf8, hcheck, if_pos hout]
  rfl

section Std
variable (s : Search) {codes : List ℕ} {idx : ℕ} {str : List ℕ}

theorem isAscii_of_length_le {l : List CodePoint} (h : (utf8Of l).length ≤ l.length) :
    ∀ c ∈ l, isAscii c := by
  induction l with
  | nil => exact fun c hc => nomatch hc
  | cons c l ih =>
    have hrest := length_le_utf8Of l
    rw [utf8Of_cons, List.length_append, List.length_cons] at h
    have hc : c.val < 0x80 := by
      obtain ⟨hc, -⟩ | ⟨-, -, heq⟩ | ⟨-, -, heq⟩ | ⟨-, heq⟩ := appendCode_cases (codePoint_lt c)
      · exact hc
      all_goals
        rw [heq] at h
        simp only [List.length_cons, List.length_nil] at h
        omega
    have hone : (appendCode c.val).length = 1 := by rw [appendCode, if_pos hc]; rfl
    intro d hd
    rcases List.mem_cons.1 hd with rfl | hd
    · exact hc
    · exact ih (by omega) d hd

/-- The number of the bytes of a string is one of characters that it has just when it is plain. -/
theorem checkLength_encode (hvalid : ∀ c ∈ str, isCodeValid c = true) (hplain : ¬Plain str) :
    checkLength (encode str) (encode str).length = .error .check := by
  suffices hcount : ∃ n, mLengthOf (encode str) (encode str).length = .ok n ∧
      n < (encode str).length by
    obtain ⟨n, hn, hlt⟩ := hcount
    rw [checkLength, hn]
    exact if_neg (Nat.not_le.2 hlt)
  by_cases hnull : 0 ∈ str
  · obtain ⟨l, rest, rfl, hl⟩ := List.eq_append_cons_of_mem hnull
    obtain ⟨l, rfl⟩ := codePoints_of_valid
      (fun c hc => hvalid c (List.mem_append_left _ hc)) hl
    have hbytes : encode (l.map Subtype.val ++ 0 :: rest) = utf8Of l ++ 0 :: encode rest := by
      rw [encode_append, encode_cons]
      rfl
    have hle := length_le_utf8Of l
    rw [hbytes, mLengthOf, List.append_assoc, List.cons_append, lengthOf_utf8Of]
    refine ⟨_, rfl, ?_⟩
    rw [List.length_append, List.length_cons]
    omega
  · obtain ⟨l, rfl⟩ := codePoints_of_valid hvalid hnull
    change ∃ n, mLengthOf (utf8Of l) (utf8Of l).length = .ok n ∧ n < (utf8Of l).length
    refine ⟨_, Store.mLengthOf_utf8Of l _, ?_⟩
    refine Nat.lt_of_le_of_lt (Nat.min_le_right _ _) (Nat.lt_of_not_le fun hle => hplain ?_)
    intro c hc
    obtain ⟨d, hd, rfl⟩ := List.mem_map.1 hc
    exact ⟨d.2.1, isAscii_of_length_le hle d hd⟩

/-- For a plain string the searches are those for all of its characters. -/
theorem run_std {l : List CodePoint} (hne : l ≠ []) (hascii : ∀ c ∈ l, isAscii c)
    (hsmall : l.length < npos) :
    s.run codes idx (std (l.map Subtype.val)) = s.run codes idx (chars l l.length) := by
  have hbytes : encode (l.map Subtype.val) = utf8Of l := rfl
  have hlen : (utf8Of l).length = l.length := length_utf8Of hascii
  have hsome : l.length ≠ 0 := mt List.length_eq_zero_iff.1 hne
  have hguard := fun found => firstOfUtf8_guarded codes (utf8Of l) idx found (Nat.ne_of_lt hsmall)
  cases s with
  | find => rw [run, run, findStd, hbytes, hlen, if_neg (fun h => hsome h.1)]
  | rfind => rw [run, run, rfindStd, hbytes, hlen, if_neg hsome]
  | firstOf => rw [run, run, findFirstOfStd, hbytes, hlen, findFirstOfUtf8, hguard]
  | firstNotOf => rw [run, run, findFirstNotOfStd, hbytes, hlen, findFirstNotOfUtf8, hguard]
  | lastOf => rw [run, run, findLastOfStd, hbytes, hlen]
  | lastNotOf => rw [run, run, findLastNotOfStd, hbytes, hlen]

theorem meets_std (hne : str ≠ []) (hvalid : ∀ c ∈ str, isCodeValid c = true)
    (hsmall : codes.length + str.length < npos) :
    s.Meets (std str) codes idx ↔ s.Spared (std str) codes idx := by
  by_cases hplain : Plain str
  · have hspared : s.Spared (std str) codes idx := by
      cases s <;> first
        | exact hplain
        | exact .inr hplain
    refine iff_of_true ?_ hspared
    obtain ⟨l, rfl⟩ := codePoints_of_valid hvalid fun hnull => (hplain 0 hnull).1 rfl
    rw [List.length_map] at hsmall
    have hl : l ≠ [] := fun h => hne (h ▸ rfl)
    have hascii : ∀ c ∈ l, isAscii c := fun c hc => (hplain c (List.mem_map_of_mem hc)).2
    obtain ⟨r, hr, hgives⟩ : s.Meets (cstr l) codes idx := s.meets_cstr hl hsmall
    rw [run_cstr s (by omega), ← run_std s hl hascii (by omega)] at hr
    exact ⟨r, hr, by cases s <;> exact hgives⟩
  · have hcheck := checkLength_encode hvalid hplain
    have hbytes : (encode str).length ≠ 0 := by
      intro hzero
      rw [List.length_eq_zero_iff.1 hzero] at hcheck
      exact nomatch hcheck
    have hfails : ∀ {x : Except Fault (Option ℕ)} {A : ℕ → Prop}, x = .error .check →
        ¬∃ r, x = .ok r ∧ s.Nearest A r := by
      rintro x A rfl ⟨r, hr, -⟩
      exact nomatch hr
    have hout : (s = firstOf ∨ s = firstNotOf) → codes.length ≤ idx →
        s.Nearest (fun j => s.Within (std str) codes idx j ∧ s.Hit str codes j) none := by
      rintro (rfl | rfl) hout
      · exact isFirst_none hout
      · exact isFirst_none hout
    cases s with
    | find =>
      refine iff_of_false (hfails ?_) hplain
      rw [run, findStd, if_neg (fun h => hbytes h.1), findUtf8, hcheck, check_bind_error]
    | rfind =>
      refine iff_of_false (hfails ?_) hplain
      rw [run, rfindStd, if_neg hbytes, rfindUtf8, hcheck, check_bind_error]
    | firstOf =>
      by_cases hend : codes.length ≤ idx
      · exact iff_of_true ⟨none, if_pos hend, hout (.inl rfl) hend⟩ (.inl hend)
      · refine iff_of_false (hfails ?_) (not_or.2 ⟨hend, hplain⟩)
        rw [run, findFirstOfStd, if_neg hend, findFirstOfUtf8, firstOfUtf8, if_neg hend, hcheck,
          check_bind_error]
    | firstNotOf =>
      by_cases hend : codes.length ≤ idx
      · exact iff_of_true ⟨none, if_pos hend, hout (.inr rfl) hend⟩ (.inl hend)
      · refine iff_of_false (hfails ?_) (not_or.2 ⟨hend, hplain⟩)
        rw [run, findFirstNotOfStd, if_neg hend, findFirstNotOfUtf8, firstOfUtf8, if_neg hend,
          hcheck, check_bind_error]
    | lastOf =>
      refine iff_of_false (hfails ?_) hplain
      rw [run, findLastOfStd, findLastOfUtf8, lastOfUtf8, hcheck, check_bind_error]
    | lastNotOf =>
      refine iff_of_false (hfails ?_) hplain
      rw [run, findLastNotOfStd, findLastNotOfUtf8, lastOfUtf8, hcheck, check_bind_error]

end Std

/-- When a call finds what it is to find. -/
theorem meets_iff (s : Search) {p : Pattern} (hp : p.Valid) {codes : List ℕ}
    (hcodes : codes.length < maxSize) (idx : ℕ) :
    s.Meets p codes idx ↔ s.Spared p codes idx := by
  have hsmall : codes.length + p.codes.length < npos := by
    have hsize := hp.small
    unfold maxSize npos at *
    omega
  have hne := hp.some
  cases p with
  | text str => exact iff_of_true (s.meets_text hne) (by cases s <;> trivial)
  | std str => exact s.meets_std hne hp.valid hsmall
  | chars str n =>
    have hn := hp.counted str n rfl
    have hlen : (chars str n).codes.length = n := by
      rw [Pattern.codes, List.length_take, List.length_map, Nat.min_eq_left hn]
    have hpos : 0 < n := by
      rw [← hlen]
      exact List.length_pos_iff.2 hne
    rw [hlen] at hsmall
    exact s.meets_chars hpos hn hsmall
  | cstr str =>
    have hstr : str ≠ [] := fun h => hne (h ▸ rfl)
    rw [Pattern.codes, List.length_map] at hsmall
    exact iff_of_true (s.meets_cstr hstr hsmall) (by cases s <;> trivial)
  | code c => exact s.meets_code c

/-- Every search gives the nearest position on its side of the index, and back from an index
    behind the text none for a pattern of characters. -/
theorem search_nearest (s : Search) {p : Pattern} (hp : p.Valid) {codes : List ℕ}
    (hcodes : codes.length < maxSize) {idx : ℕ} (h : s.Spared p codes idx) :
    ∃ r, s.run codes idx p = .ok r ∧ s.Gives p codes idx r := (s.meets_iff hp hcodes idx).2 h

theorem search_nearest_ll :
    ∃ r, find.run [0x48, 0x65, 0x6c, 0x6c, 0x6f] 1 (std [0x6c, 0x6c]) = .ok r ∧
      find.Gives (std [0x6c, 0x6c]) [0x48, 0x65, 0x6c, 0x6c, 0x6f] 1 r :=
  have hp : Valid (std [0x6c, 0x6c]) :=
    ⟨List.cons_ne_nil _ _, by decide, by decide, fun _ _ h => nomatch h⟩
  search_nearest find hp (by decide) (by unfold Spared Plain; decide)

/-- `a` is in the text `a`, but not for a search back from behind it. -/
theorem rfind_behindEnd :
    rfind.run [0x61] 1 (cstr [⟨0x61, by decide⟩]) = .ok none ∧
      rfind.run [0x61] 1 (text [0x61]) = .ok (some 0) ∧
      ¬rfind.Right [0x61] [0x61] 1 none :=
  ⟨rfl, rfl, fun h => h 0 ⟨Nat.zero_le 1, List.prefix_rfl⟩⟩

end Search

end UdtKernel.CText
