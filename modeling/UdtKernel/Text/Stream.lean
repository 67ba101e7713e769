import UdtKernel.Text.Kept

set_option autoImplicit false

/-! The stream of a `CText`, which is given the bytes of its characters one by one. -/

namespace UdtKernel.CText
open Lib

/-- `CTextBuf`: the four bytes of `FStr`, `FSize` and `FBufI`. -/
structure TextBuf where
  str : List Byte
  size : ℕ
  bufI : ℕ

namespace TextBuf
variable (reserved junk : ℕ → ℕ)

def overflow (x : TextBuf × Store) (c : Byte) : Except Fault (TextBuf × Store) :=
  let (b, s) := x
  if b.bufI ≠ 0 then do
    let str ← putBytes b.str b.bufI [c]
    if b.bufI + 1 = b.size then
      let str ← putBytes str (b.bufI + 1) [0]
      let s ← s.appendUtf8 reserved junk (← cString str) 1
      return (⟨str, 0, 0⟩, s)
    else return (⟨str, b.size, b.bufI + 1⟩, s)
  else if 1 < seqLen c then do
    let str ← putBytes b.str b.bufI [c]
    return (⟨str, seqLen c, b.bufI + 1⟩, s)
  else return (⟨b.str, seqLen c, b.bufI⟩, ← s.pushBack reserved junk c.val)

def write (bytes : List Byte) (x : TextBuf × Store) : Except Fault (TextBuf × Store) :=
  bytes.foldlM (overflow reserved junk) x

/-- No character has been begun. -/
structure Idle (b : TextBuf) : Prop where
  bufI : b.bufI = 0
  four : b.str.length = 4

end TextBuf

/-- No check fails. -/
def Unchecked {α : Type} (x : Except Fault α) : Prop := Outcome (· ≠ .check) (fun _ => True) x

theorem Unchecked.bind {α β : Type} {x : Except Fault α} {f : α → Except Fault β}
    (h : Unchecked x) (hf : ∀ a, Unchecked (f a)) : Unchecked (x >>= f) :=
  Outcome.bind h fun a _ => hf a

theorem unchecked_check {p : Prop} [Decidable p] (h : p) : Unchecked (check p) := by
  rw [check, if_pos h]
  trivial

theorem unchecked_readAt (l : List ℕ) (pos n : ℕ) : Unchecked (readAt l pos n) := by
  unfold readAt
  split_ifs
  · trivial
  · exact Fault.noConfusion

namespace Store
variable {reserved junk : ℕ → ℕ} {s : Store}

theorem unchecked_put (pos : ℕ) (xs : List ℕ) (s : Store) : Unchecked (s.put pos xs) := by
  unfold put
  split_ifs
  · trivial
  · exact Fault.noConfusion

/-- Only the size of a text is checked where it grows. -/
theorem unchecked_grow {n : ℕ} (hn : n < maxSize) (s : Store) :
    Unchecked (s.grow reserved junk n) := by
  refine (unchecked_check hn).bind fun _ => ?_
  split_ifs
  · exact (unchecked_readAt _ _ _).bind fun xs => unchecked_put _ xs _
  · trivial

theorem unchecked_appendWith {num : ℕ} (hnum : s.length + num < maxSize)
    {fill : Store → Except Fault Store} (hfill : ∀ s, Unchecked (fill s)) :
    Unchecked (s.appendWith reserved junk num fill) := by
  have hsize : addSize s.length num = s.length + num :=
    Nat.mod_eq_of_lt (lt_trans hnum (by decide))
  rw [appendWith, hsize]
  exact (unchecked_grow hnum _).bind fun s₁ => (hfill s₁).bind fun s₂ => unchecked_put _ _ _

theorem unchecked_mToUcs4 (str : List Byte) (pos destLen : ℕ) (s : Store) :
    Unchecked (s.mToUcs4 str pos destLen 0) := by
  rw [mToUcs4, if_pos rfl]
  exact unchecked_put _ _ _

theorem Becomes.exists_ok {codes : List ℕ} {x : Except Fault Store} (h : Becomes codes x)
    (hchecks : Unchecked x) : ∃ s, x = .ok s ∧ s.Good ∧ s.codes = codes := by
  cases x with
  | ok s => exact ⟨s, rfl, h.1, h.2.1⟩
  | error e => exact absurd h hchecks

/-- A character can be added to a text: the memory that it needs is not more than a `size_type`
    tells. -/
def RoomFor (reserved : ℕ → ℕ) (s : Store) (n : ℕ) : Prop :=
  s.length + n < maxSize ∧ ∀ k ≤ s.length + n, reserved (k + 1) * 4 < 2 ^ 64

theorem RoomFor.room {n : ℕ} (h : s.RoomFor reserved n) : Room reserved s (s.length + n) :=
  ⟨lt_trans h.1 (by decide), .inr (h.2 _ le_rfl)⟩

section Add
variable (hreserved : ∀ n, n ≤ reserved n) (hs : s.Sized) (hcached : s.Cached)
  (hroom : s.RoomFor reserved 1)
include hreserved hs hcached hroom

variable (junk) in
theorem pushBack_adds (code : ℕ) : ∃ s', s.pushBack reserved junk code = .ok s' ∧ s'.Good ∧
    s'.codes = s.codes ++ [code] ∧ s'.Cached := by
  have hchecks : Unchecked (s.appendFill reserved junk 1 code) :=
    (unchecked_check (by decide)).bind fun _ =>
      unchecked_appendWith hroom.1 fun s₁ => unchecked_put _ _ s₁
  obtain ⟨s', hpush, hgood, hcodes⟩ :=
    (appendFill_becomes hreserved hs hroom.room).exists_ok hchecks
  have hkept : Drops (s.appendFill reserved junk 1 code) := hcached.appendFill 1 code
  rw [hpush] at hkept
  exact ⟨s', hpush, hgood, hcodes, hkept.cached⟩

variable (junk) in
theorem appendUtf8_adds (c : CodePoint) :
    ∃ s', s.appendUtf8 reserved junk (utf8Of [c]) 1 = .ok s' ∧ s'.Good ∧
      s'.codes = s.codes ++ [c.val] ∧ s'.Cached := by
  have hchecks : Unchecked (s.appendUtf8 reserved junk (utf8Of [c]) 1) := by
    rw [appendUtf8, if_neg one_ne_zero, mLengthOf_utf8Of]
    refine (unchecked_check (by decide)).bind fun _ => ?_
    have hone : 1 ≤ min 1 [c].length := le_rfl
    exact (unchecked_check hone).bind fun _ =>
      unchecked_appendWith hroom.1 fun s₁ => unchecked_mToUcs4 _ _ _ s₁
  have hbecomes : Becomes (s.codes ++ [c.val]) (s.appendUtf8 reserved junk (utf8Of [c]) 1) :=
    appendUtf8_becomes hreserved hs one_ne_zero hroom.room
  obtain ⟨s', happend, hgood, hcodes⟩ := hbecomes.exists_ok hchecks
  have hkept : Saves (s.appendUtf8 reserved junk (utf8Of [c]) 1) := hcached.appendUtf8 _ 1
  rw [happend] at hkept
  exact ⟨s', happend, hgood, hcodes, hkept⟩

end Add

end Store

namespace TextBuf
variable {reserved junk : ℕ → ℕ}

theorem putBytes_next (str : List Byte) {k : ℕ} (h : k < str.length) (c : Byte) :
    ∃ str', putBytes str k [c] = .ok str' ∧ str'.length = str.length ∧
      str'.take (k + 1) = str.take k ++ [c] := by
  have hin : k + [c].length ≤ str.length := h
  refine ⟨_, if_pos hin, length_overwrite hin, ?_⟩
  have hlen : (str.take k ++ [c]).length = k + 1 := by
    rw [List.length_append, List.length_take, List.length_singleton]
    omega
  rw [overwrite, ← hlen, List.take_left]

section Overflow
variable {str str₁ str₂ bytes : List Byte} {n k : ℕ} {s s' : Store} {x : Byte}

theorem overflow_collects (hk : k ≠ 0) (hput : putBytes str k [x] = .ok str₁) (hlast : k + 1 ≠ n) :
    overflow reserved junk (⟨str, n, k⟩, s) x = .ok (⟨str₁, n, k + 1⟩, s) := by
  unfold overflow
  dsimp only
  rw [if_pos hk, hput]
  exact if_neg hlast

theorem overflow_appends (hk : k ≠ 0) (hput : putBytes str k [x] = .ok str₁) (hlast : k + 1 = n)
    (hend : putBytes str₁ (k + 1) [0] = .ok str₂) (hstring : cString str₂ = .ok bytes)
    (happend : s.appendUtf8 reserved junk bytes 1 = .ok s') :
    overflow reserved junk (⟨str, n, k⟩, s) x = .ok (⟨str₂, 0, 0⟩, s') := by
  unfold overflow
  dsimp only
  rw [if_pos hk, hput]
  change (if k + 1 = n then _ else _) = _
  rw [if_pos hlast, hend]
  simp only [bind, Except.bind, hstring, happend]
  rfl

theorem overflow_begins (hseq : 1 < seqLen x) (hput : putBytes str 0 [x] = .ok str₁) :
    overflow reserved junk (⟨str, n, 0⟩, s) x = .ok (⟨str₁, seqLen x, 1⟩, s) := by
  unfold overflow
  dsimp only
  rw [if_neg (not_not_intro rfl), if_pos hseq, hput]
  rfl

theorem overflow_single (hseq : ¬1 < seqLen x) (hpush : s.pushBack reserved junk x.val = .ok s') :
    overflow reserved junk (⟨str, n, 0⟩, s) x = .ok (⟨str, seqLen x, 0⟩, s') := by
  unfold overflow
  dsimp only
  rw [if_neg (not_not_intro rfl), if_neg hseq, hpush]
  rfl

theorem write_cons {y z : TextBuf × Store} (h : overflow reserved junk y x = .ok z)
    (bytes : List Byte) : write reserved junk (x :: bytes) y = write reserved junk bytes z := by
  rw [write, List.foldlM_cons, h]
  rfl

theorem write_append {y z : TextBuf × Store} (h : write reserved junk bytes y = .ok z)
    (bytes' : List Byte) :
    write reserved junk (bytes ++ bytes') y = write reserved junk bytes' z := by
  rw [write] at h
  rw [write, List.foldlM_append, h]
  rfl

end Overflow

/-- The bytes of a character that has been begun are collected, and then it is appended. -/
theorem collects {s s' : Store} {c : CodePoint} {n : ℕ} (hn : n < 4)
    (happend : s.appendUtf8 reserved junk (utf8Of [c]) 1 = .ok s') (rest : List Byte) :
    ∀ (str : List Byte) (k : ℕ), str.length = 4 → k ≠ 0 → k + rest.length = n → rest ≠ [] →
      utf8Of [c] = str.take k ++ rest →
      ∃ b, write reserved junk rest (⟨str, n, k⟩, s) = .ok (b, s') ∧ b.Idle := by
  induction rest with
  | nil => exact fun _ _ _ _ _ hne _ => absurd rfl hne
  | cons x rest ih =>
    intro str k hstr hk hlen _ hbytes
    rw [List.length_cons] at hlen
    obtain ⟨str₁, hput, hstr₁, htake⟩ := putBytes_next str (k := k) (by omega) x
    cases rest with
    | nil =>
      rw [List.length_nil] at hlen
      obtain ⟨str₂, hend, hstr₂, htake₂⟩ :=
        putBytes_next str₁ (k := k + 1) (by omega) 0
      have hstring : cString str₂ = .ok (utf8Of [c]) := by
        have hsplit : str₂ = utf8Of [c] ++ 0 :: str₂.drop (k + 2) := by
          rw [hbytes, ← htake, List.append_cons, ← htake₂, List.take_append_drop]
        rw [hsplit, cString, if_pos (by simp), untilNull, List.takeWhile_append_of_pos]
        · simp
        · exact fun y hy => decide_eq_true (utf8Of_ne_zero [c] y hy)
      have hfour : str₂.length = 4 := by omega
      refine ⟨⟨str₂, 0, 0⟩, ?_, rfl, hfour⟩
      exact write_cons (overflow_appends hk hput (by omega) hend hstring happend) []
    | cons y rest =>
      obtain ⟨b, hwrite, hidle⟩ := ih str₁ (k + 1) (by omega) (Nat.succ_ne_zero k) (by omega)
        (List.cons_ne_nil y rest) (by rw [htake, hbytes, List.append_assoc]; rfl)
      rw [List.length_cons] at hlen
      refine ⟨b, ?_, hidle⟩
      rw [write_cons (overflow_collects hk hput (by omega)), hwrite]

theorem length_appendCode_le {code : ℕ} (h : code < 0x10000) : (appendCode code).length ≤ 3 := by
  rw [Store.length_appendCode, charLen]
  split_ifs <;> omega

section Write
variable {s : Store} (hreserved : ∀ n, n ≤ reserved n)
include hreserved

variable (junk) in
/-- A character of at most three bytes is appended. -/
theorem write_char (hs : s.Sized) (hcached : s.Cached) (hroom : s.RoomFor reserved 1)
    {b : TextBuf} (hb : b.Idle) {c : CodePoint} (hc : c.val < 0x10000) :
    ∃ b' s', write reserved junk (appendCode c.val) (b, s) = .ok (b', s') ∧ b'.Idle ∧ s'.Good ∧
      s'.codes = s.codes ++ [c.val] ∧ s'.Cached := by
  obtain ⟨x, l, hbytes, hseq, hnext, -⟩ := appendCode_codePoint c
  have hshort := length_appendCode_le hc
  rw [hbytes, List.length_cons] at hshort
  obtain ⟨str, n, k⟩ := b
  obtain ⟨rfl, hfour⟩ := hb
  dsimp only at hfour
  rw [hbytes]
  by_cases hone : l = []
  · subst hone
    obtain ⟨s', hpush, hgood, hcodes, hkept⟩ :=
      Store.pushBack_adds junk hreserved hs hcached hroom x.val
    have hcode : x.val = c.val := hnext
    rw [hcode] at hcodes
    have hseq₁ : ¬1 < seqLen x := by rw [hseq]; exact lt_irrefl 1
    refine ⟨⟨str, seqLen x, 0⟩, s', ?_, ⟨rfl, hfour⟩, hgood, hcodes, hkept⟩
    exact write_cons (overflow_single hseq₁ hpush) []
  · have hpos := List.length_pos_iff.2 hone
    obtain ⟨s', happend, hgood, hcodes, hkept⟩ :=
      Store.appendUtf8_adds junk hreserved hs hcached hroom c
    obtain ⟨str₁, hput, hstr₁, htake⟩ := putBytes_next str (k := 0) (by omega) x
    have hwhole : utf8Of [c] = str₁.take 1 ++ l := by
      rw [htake, List.take_zero, utf8Of_cons, hbytes]
      simp [utf8Of, encode]
    obtain ⟨b', hwrite, hidle⟩ := collects (n := seqLen x) (by omega) happend l str₁ 1 (by omega)
      one_ne_zero (by omega) hone hwhole
    refine ⟨b', s', ?_, hidle, hgood, hcodes, hkept⟩
    rw [write_cons (overflow_begins (by omega) hput), hwrite]

variable (junk) in
/-- A text whose characters have at most three bytes each is appended. -/
theorem write_text {text : List CodePoint} (hs : s.Sized) (hcached : s.Cached)
    (hroom : s.RoomFor reserved text.length) {b : TextBuf} (hb : b.Idle)
    (htext : ∀ c ∈ text, c.val < 0x10000) :
    ∃ b' s', write reserved junk (utf8Of text) (b, s) = .ok (b', s') ∧ b'.Idle ∧
      s'.codes = s.codes ++ text.map Subtype.val ∧ s'.Cached := by
  induction text generalizing s b with
  | nil => exact ⟨b, s, rfl, hb, (List.append_nil _).symm, hcached⟩
  | cons c text ih =>
    obtain ⟨hsmall, hmemory⟩ := hroom
    rw [List.length_cons] at hsmall hmemory
    obtain ⟨b₁, s₁, hwrite, hb₁, hs₁, hcodes₁, hcached₁⟩ := write_char junk hreserved hs
      hcached ⟨by omega, fun k hk => hmemory k (by omega)⟩ hb (htext c List.mem_cons_self)
    have hlength : s₁.length = s.length + 1 := by
      rw [← hs₁.sized.length_codes, hcodes₁, List.length_append, hs.length_codes]
      rfl
    obtain ⟨b', s', hrest, hb', hcodes, hcached'⟩ := ih hs₁.sized hcached₁
      ⟨by omega, fun k hk => hmemory k (by omega)⟩ hb₁
      fun d hd => htext d (List.mem_cons_of_mem c hd)
    refine ⟨b', s', ?_, hb', ?_, hcached'⟩
    · rw [utf8Of_cons, write_append hwrite, hrest]
    · rw [hcodes, hcodes₁, List.append_assoc]
      rfl

end Write

end TextBuf

end UdtKernel.CText
