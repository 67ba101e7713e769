import UdtKernel.Config.Json

set_option autoImplicit false

/-! The text of a JSON value, as the `Writer` of `rapidjson` gives it. -/

namespace UdtKernel

namespace Json

/-- An entry of `hexDigits`. -/
def hexDigit (n : ℕ) : Char := if n < 10 then Char.ofNat (48 + n) else Char.ofNat (55 + n)

/-- `escape`, where it is not zero. -/
def escape (c : Char) : Option Char :=
  if c = '\x22' ∨ c = '\x5c' then some c
  else if c = '\x08' then some 'b'
  else if c = '\x09' then some 't'
  else if c = '\x0a' then some 'n'
  else if c = '\x0c' then some 'f'
  else if c = '\x0d' then some 'r'
  else if c.toNat < 0x20 then some 'u'
  else none

/-- A turn of the loop of `WriteString`. -/
def writeChar (c : Char) : Text :=
  match escape c with
  | none => [c]
  | some e =>
    '\x5c' :: e :: if e = 'u' then ['0', '0', hexDigit (c.toNat / 16), hexDigit (c.toNat % 16)]
      else []

def writeString (s : Text) : Text := '\x22' :: s.flatMap writeChar ++ ['\x22']

/-- `Prefix` of what is not first. -/
def writeComma (isLast : Bool) : Text := if isLast then [] else [',']

mutual

/-- What a `Writer` puts. -/
def write : Json → Text
  | .str s => writeString s
  | .obj ms => '\x7b' :: writeMembers ms ++ ['\x7d']
  | .arr items => '[' :: writeItems items ++ [']']

def writeMembers : List (String × Json) → Text
  | [] => []
  | (k, j) :: ms =>
    writeString k.toList ++ ':' :: write j ++ writeComma ms.isEmpty ++ writeMembers ms

def writeItems : List Json → Text
  | [] => []
  | j :: items => write j ++ writeComma items.isEmpty ++ writeItems items

end

def isAsciiText (s : Text) : Bool := s.all fun c => c.toNat < 0x80

mutual

def isAscii : Json → Bool
  | .str s => isAsciiText s
  | .obj ms => areAsciiMembers ms
  | .arr items => areAsciiItems items

def areAsciiMembers : List (String × Json) → Bool
  | [] => true
  | (k, j) :: ms => isAsciiText k.toList && isAscii j && areAsciiMembers ms

def areAsciiItems : List Json → Bool
  | [] => true
  | j :: items => isAscii j && areAsciiItems items

end

@[simp] theorem isAsciiText_append (s t : Text) :
    isAsciiText (s ++ t) = (isAsciiText s && isAsciiText t) := List.all_append

@[simp] theorem isAsciiText_cons (c : Char) (s : Text) :
    isAsciiText (c :: s) = (decide (c.toNat < 0x80) && isAsciiText s) := rfl

@[simp] theorem isAsciiText_nil : isAsciiText [] = true := rfl

theorem hexDigit_range {n : ℕ} (h : n < 16) :
    0 < (hexDigit n).toNat ∧ (hexDigit n).toNat < 0x80 := by
  have hall : ∀ n < 16, 0 < (hexDigit n).toNat ∧ (hexDigit n).toNat < 0x80 := by decide
  exact hall n h

/-- What is escaped is ASCII, and so is what stands for it. -/
theorem escape_eq_some {c e : Char} (h : escape c = some e) :
    c.toNat < 0x80 ∧ (0 < e.toNat ∧ e.toNat < 0x80) ∧ (e = 'u' → c.toNat < 0x20) := by
  unfold escape at h
  split_ifs at h with hquote hb ht hn hf hr hu <;> cases h
  · rcases hquote with rfl | rfl <;> decide
  · subst hb; decide
  · subst ht; decide
  · subst hn; decide
  · subst hf; decide
  · subst hr; decide
  · exact ⟨by omega, by decide, fun _ => hu⟩

theorem escape_eq_none {c : Char} (h : escape c = none) : 0 < c.toNat := by
  unfold escape at h
  split_ifs at h with hquote hb ht hn hf hr hu
  omega

theorem isAsciiText_writeChar (c : Char) : isAsciiText (writeChar c) = isAsciiText [c] := by
  unfold writeChar
  cases hescape : escape c with
  | none => rfl
  | some e =>
    obtain ⟨hc, ⟨-, he⟩, hu⟩ := escape_eq_some hescape
    have hone : isAsciiText [c] = true := by simp [hc]
    dsimp only
    rw [hone]
    by_cases heu : e = 'u'
    · have hlt := hu heu
      have hhigh := hexDigit_range (by omega : c.toNat / 16 < 16)
      have hlow := hexDigit_range (by omega : c.toNat % 16 < 16)
      subst heu
      simp [hhigh.2, hlow.2]
    · simp [heu, he]

theorem isAsciiText_writeString (s : Text) : isAsciiText (writeString s) = isAsciiText s := by
  have hflat : isAsciiText (s.flatMap writeChar) = isAsciiText s := by
    induction s with
    | nil => rfl
    | cons c s ih =>
      rw [List.flatMap_cons, isAsciiText_append, ih, isAsciiText_writeChar]
      simp
  unfold writeString
  simp [hflat]

theorem isAsciiText_writeComma (isLast : Bool) : isAsciiText (writeComma isLast) = true := by
  cases isLast <;> rfl

mutual

/-- A text is ASCII when all that it is written of is. -/
theorem isAsciiText_write : ∀ j : Json, isAsciiText j.write = j.isAscii
  | .str s => by rw [write, isAscii, isAsciiText_writeString]
  | .obj ms => by
    rw [write, isAscii, List.cons_append, isAsciiText_cons, isAsciiText_append,
      isAsciiText_writeMembers ms]
    simp
  | .arr items => by
    rw [write, isAscii, List.cons_append, isAsciiText_cons, isAsciiText_append,
      isAsciiText_writeItems items]
    simp

theorem isAsciiText_writeMembers :
    ∀ ms : List (String × Json), isAsciiText (writeMembers ms) = areAsciiMembers ms
  | [] => rfl
  | (k, j) :: ms => by
    rw [writeMembers, areAsciiMembers]
    simp [isAsciiText_writeString, isAsciiText_write j, isAsciiText_writeMembers ms,
      isAsciiText_writeComma, Bool.and_assoc]

theorem isAsciiText_writeItems :
    ∀ items : List Json, isAsciiText (writeItems items) = areAsciiItems items
  | [] => rfl
  | j :: items => by
    rw [writeItems, areAsciiItems]
    simp [isAsciiText_write j, isAsciiText_writeItems items, isAsciiText_writeComma]

end

theorem zero_not_mem_writeString (s : Text) : '\x00' ∉ writeString s := by
  have hchar : ∀ c, '\x00' ∉ writeChar c := by
    intro c hmem
    unfold writeChar at hmem
    cases hescape : escape c with
    | none =>
      rw [hescape] at hmem
      have hpos := escape_eq_none hescape
      rw [← List.mem_singleton.1 hmem] at hpos
      exact absurd hpos (by decide)
    | some e =>
      obtain ⟨-, ⟨hpos, -⟩, hu⟩ := escape_eq_some hescape
      rw [hescape] at hmem
      have he : '\x00' ≠ e := by
        rintro rfl
        exact absurd hpos (by decide)
      dsimp only at hmem
      split_ifs at hmem with heu
      · have hlt := hu heu
        have hhigh := (hexDigit_range (by omega : c.toNat / 16 < 16)).1
        have hlow := (hexDigit_range (by omega : c.toNat % 16 < 16)).1
        simp only [List.mem_cons, List.not_mem_nil, or_false, he, false_or] at hmem
        rcases hmem with h | h | h | h | h
        · exact absurd h (by decide)
        · exact absurd h (by decide)
        · exact absurd h (by decide)
        · rw [← h] at hhigh
          exact absurd hhigh (by decide)
        · rw [← h] at hlow
          exact absurd hlow (by decide)
      · simp [he] at hmem
  unfold writeString
  simp [hchar]

theorem zero_not_mem_writeComma (isLast : Bool) : '\x00' ∉ writeComma isLast := by
  cases isLast <;> decide

mutual

/-- No text has a `\0`. -/
theorem zero_not_mem_write : ∀ j : Json, '\x00' ∉ j.write
  | .str s => by
    rw [write]
    exact zero_not_mem_writeString s
  | .obj ms => by
    rw [write]
    simp [zero_not_mem_writeMembers ms]
  | .arr items => by
    rw [write]
    simp [zero_not_mem_writeItems items]

theorem zero_not_mem_writeMembers : ∀ ms : List (String × Json), '\x00' ∉ writeMembers ms
  | [] => List.not_mem_nil
  | (k, j) :: ms => by
    rw [writeMembers]
    simp [zero_not_mem_writeString, zero_not_mem_write j, zero_not_mem_writeMembers ms,
      zero_not_mem_writeComma]

theorem zero_not_mem_writeItems : ∀ items : List Json, '\x00' ∉ writeItems items
  | [] => List.not_mem_nil
  | j :: items => by
    rw [writeItems]
    simp [zero_not_mem_write j, zero_not_mem_writeItems items, zero_not_mem_writeComma]

end

theorem write_ne_nil (j : Json) : j.write ≠ [] := by
  cases j with
  | str s => rw [write]; exact List.cons_ne_nil _ _
  | obj ms => rw [write]; exact List.cons_ne_nil _ _
  | arr items => rw [write]; exact List.cons_ne_nil _ _

end Json

end UdtKernel
