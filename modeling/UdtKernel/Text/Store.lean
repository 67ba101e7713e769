import UdtKernel.Text.Utf8

set_option autoImplicit false

/-! What a `CText` is made of, the memory functions that its methods use, and the loops over the
code points of a text that stop at one with a property. -/

namespace UdtKernel.CText

/-- How a call on a text ends badly: a `CHECK` of its own, memory that is not there, or a copy
    between places that overlap. -/
inductive Fault where
  | check
  | outside
  | overlap
  deriving DecidableEq

/-- `npos`, the greatest `size_type`. -/
def npos : ℕ := 2 ^ 64 - 1

def maxSize : ℕ := npos / 4

def addSize (a b : ℕ) : ℕ := (a + b) % 2 ^ 64

def subSize (a b : ℕ) : ℕ := (a + 2 ^ 64 - b) % 2 ^ 64

def check (p : Prop) [Decidable p] : Except Fault Unit := if p then .ok () else .error .check

/-- `impl_t`: the memory of the code points, with its size as it is remembered, and the bytes that
    are kept once they are built. -/
structure Impl where
  buf : List ℕ
  bufLen : ℕ
  single : Option (List Byte)
  singleBufferLen : ℕ
  singleDatalen : ℕ

/-- A new `impl_t`. -/
def Impl.new : Impl := ⟨[], 0, none, 0, 0⟩

/-- The copy of an `impl_t`. -/
def Impl.copy (x : Impl) : Impl := { Impl.new with buf := x.buf, bufLen := x.bufLen }

/-- A `CText`: its `impl_t`, whether other texts hold it too, and `FCodePointLength`. -/
structure Store extends Impl where
  shared : Bool
  length : ℕ

def overwrite {α : Type} (l : List α) (pos : ℕ) (xs : List α) : List α :=
  l.take pos ++ xs ++ l.drop (pos + xs.length)

def readAt {α : Type} (l : List α) (pos n : ℕ) : Except Fault (List α) :=
  if pos + n ≤ l.length then .ok ((l.drop pos).take n) else .error .outside

namespace Store

def codes (s : Store) : List ℕ := s.buf.take s.length

/-- `MWillBeenChanged`, which makes the `impl_t` its own. -/
def changed (s : Store) : Store :=
  if s.shared then { s.toImpl.copy with shared := false, length := s.length }
  else if s.single.isSome then { s with singleDatalen := 0 } else s

def put (pos : ℕ) (xs : List ℕ) (s : Store) : Except Fault Store :=
  if pos + xs.length ≤ s.buf.length then .ok { s with buf := overwrite s.buf pos xs }
  else .error .outside

/-- `memmove` inside of the text. -/
def move (pos start n : ℕ) (s : Store) : Except Fault Store := do s.put pos (← readAt s.buf start n)

def setLen (n : ℕ) (s : Store) : Except Fault Store := put n [0] { s with length := n }

/-- `MGrow`; `reserved` is the product with `1.3`, and `junk` what stands in new memory, of which
    there is as much as the number of bytes asked for says. -/
def grow (reserved junk : ℕ → ℕ) (newSize : ℕ) (s : Store) : Except Fault Store := do
  check (newSize < maxSize)
  if s.bufLen < newSize + 1 then
    let bufLen := reserved (newSize + 1)
    let memory := (List.range (bufLen * 4 % 2 ^ 64 / 4)).map junk
    let new : Store :=
      { Impl.new with buf := memory, bufLen := bufLen, shared := false, length := s.length }
    new.put 0 (← readAt s.buf 0 s.length)
  else return s

def removeBuffer (s : Store) : Store := { Impl.new with shared := false, length := s.length }

end Store

section Memory
variable {α : Type} {l xs : List α} {pos n : ℕ}

theorem length_overwrite (h : pos + xs.length ≤ l.length) :
    (overwrite l pos xs).length = l.length := by
  simp only [overwrite, List.length_append, List.length_take, List.length_drop]
  omega

theorem getElem?_overwrite (h : pos ≤ l.length) (i : ℕ) :
    (overwrite l pos xs)[i]? = if i < pos then l[i]? else if i < pos + xs.length then xs[i - pos]?
      else l[i]? := by
  rw [overwrite, List.append_assoc]
  have hlen : (l.take pos).length = pos := by rw [List.length_take]; omega
  by_cases hi : i < pos
  · rw [if_pos hi, List.getElem?_append_left (by omega), List.getElem?_take_of_lt hi]
  · rw [if_neg hi, List.getElem?_append_right (by omega), hlen]
    by_cases hx : i < pos + xs.length
    · rw [if_pos hx, List.getElem?_append_left (by omega)]
    · rw [if_neg hx, List.getElem?_append_right (by omega), List.getElem?_drop]
      congr 1
      omega

/-- Memory that is not written to is as before. -/
theorem take_drop_overwrite (h : pos ≤ l.length) {i : ℕ}
    (hapart : n = 0 ∨ i + n ≤ pos ∨ pos + xs.length ≤ i) :
    ((overwrite l pos xs).drop i).take n = (l.drop i).take n := by
  refine List.ext_getElem? fun k => ?_
  rw [List.getElem?_take, List.getElem?_take]
  by_cases hk : k < n
  · rw [if_pos hk, if_pos hk, List.getElem?_drop, List.getElem?_drop, getElem?_overwrite h]
    by_cases hi : i + k < pos
    · rw [if_pos hi]
    · rw [if_neg hi, if_neg (by omega)]
  · rw [if_neg hk, if_neg hk]

theorem take_overwrite (h : pos ≤ l.length) (hn : n ≤ pos) :
    (overwrite l pos xs).take n = l.take n := by
  have hsame : ((overwrite l pos xs).drop 0).take n = (l.drop 0).take n :=
    take_drop_overwrite h (.inr (.inl (by omega)))
  rwa [List.drop_zero, List.drop_zero] at hsame

theorem readAt_ok (h : pos + n ≤ l.length) : readAt l pos n = .ok ((l.drop pos).take n) := if_pos h

end Memory

def codeAt (codes : List ℕ) (i : ℕ) : Except Fault ℕ := match codes[i]? with
  | some code => .ok code
  | none => .error .outside

variable (p : ℕ → Bool) (codes : List ℕ)

def scanForward : ℕ → ℕ → Except Fault (Option ℕ)
  | 0, _ => .ok none
  | n + 1, i => do if p (← codeAt codes i) then return some i else scanForward n (i + 1)

def scanBack : ℕ → Except Fault (Option ℕ)
  | 0 => do if p (← codeAt codes 0) then return some 0 else return none
  | i + 1 => do if p (← codeAt codes (i + 1)) then return some (i + 1) else scanBack i

/-- The result of a search is the least position in the range with the property. -/
def IsFirst (P : ℕ → Prop) (r : Option ℕ) : Prop :=
  match r with
  | some i => P i ∧ ∀ j < i, ¬ P j
  | none => ∀ j, ¬ P j

/-- The result of a search is the greatest position with the property. -/
def IsLast (P : ℕ → Prop) (r : Option ℕ) : Prop :=
  match r with
  | some i => P i ∧ ∀ j, P j → j ≤ i
  | none => ∀ j, ¬ P j

/-- There is a code point with the property at a position. -/
def Holds (i : ℕ) : Prop := ∃ code, codes[i]? = some code ∧ p code = true

variable {p codes}

theorem holds_iff {i code : ℕ} (h : codes[i]? = some code) : Holds p codes i ↔ p code = true := by
  simp [Holds, h]

theorem Holds.lt {i : ℕ} (h : Holds p codes i) : i < codes.length := by
  obtain ⟨code, hcode, -⟩ := h
  exact (List.getElem?_eq_some_iff.1 hcode).1

theorem codeAt_ok {i : ℕ} (h : i < codes.length) :
    ∃ code, codes[i]? = some code ∧ codeAt codes i = .ok code := by
  have hcode : codes[i]? = some codes[i] := List.getElem?_eq_getElem h
  exact ⟨codes[i], hcode, by rw [codeAt, hcode]⟩

theorem scanForward_succ {i code : ℕ} (h : codeAt codes i = .ok code) (n : ℕ) :
    scanForward p codes (n + 1) i =
      if p code then .ok (some i) else scanForward p codes n (i + 1) := by
  rw [scanForward, h]
  rfl

theorem scanBack_here {i code : ℕ} (h : codeAt codes i = .ok code) (hp : p code = true) :
    scanBack p codes i = .ok (some i) := by
  cases i with
  | zero =>
    rw [scanBack, h]
    exact if_pos hp
  | succ i =>
    rw [scanBack, h]
    exact if_pos hp

theorem scanBack_zero {code : ℕ} (h : codeAt codes 0 = .ok code) (hp : ¬p code = true) :
    scanBack p codes 0 = .ok none := by
  rw [scanBack, h]
  exact if_neg hp

theorem scanBack_succ {i code : ℕ} (h : codeAt codes (i + 1) = .ok code) (hp : ¬p code = true) :
    scanBack p codes (i + 1) = scanBack p codes i := by
  rw [scanBack, h]
  exact if_neg hp

theorem scanForward_spec {n i : ℕ} (h : i + n = codes.length) :
    ∃ r, scanForward p codes n i = .ok r ∧ IsFirst (fun j => i ≤ j ∧ Holds p codes j) r := by
  induction n generalizing i with
  | zero =>
    refine ⟨none, rfl, fun j hj => ?_⟩
    have hlt := hj.2.lt
    omega
  | succ n ih =>
    obtain ⟨code, hcode, hread⟩ := codeAt_ok (show i < codes.length by omega)
    by_cases hp : p code = true
    · refine ⟨some i, by rw [scanForward_succ hread, if_pos hp], ⟨le_rfl, code, hcode, hp⟩, ?_⟩
      intro j hj hold
      omega
    · obtain ⟨r, hr, hfirst⟩ := ih (i := i + 1) (by omega)
      refine ⟨r, by rw [scanForward_succ hread, if_neg hp, hr], ?_⟩
      have hsame : ∀ j, i ≤ j ∧ Holds p codes j ↔ i + 1 ≤ j ∧ Holds p codes j := by
        intro j
        constructor
        · rintro ⟨hle, hold⟩
          refine ⟨?_, hold⟩
          rcases Nat.eq_or_lt_of_le hle with rfl | hlt
          · exact absurd ((holds_iff hcode).1 hold) hp
          · exact hlt
        · rintro ⟨hle, hold⟩
          exact ⟨by omega, hold⟩
      simpa only [IsFirst, hsame] using hfirst

theorem scanBack_spec {i : ℕ} (h : i < codes.length) :
    ∃ r, scanBack p codes i = .ok r ∧ IsLast (fun j => j ≤ i ∧ Holds p codes j) r := by
  induction i with
  | zero =>
    obtain ⟨code, hcode, hread⟩ := codeAt_ok h
    by_cases hp : p code = true
    · exact ⟨some 0, scanBack_here hread hp, ⟨le_rfl, code, hcode, hp⟩, fun j hj => hj.1⟩
    · refine ⟨none, scanBack_zero hread hp, ?_⟩
      rintro j ⟨hle, hold⟩
      obtain rfl := Nat.le_zero.1 hle
      exact hp ((holds_iff hcode).1 hold)
  | succ i ih =>
    obtain ⟨code, hcode, hread⟩ := codeAt_ok h
    by_cases hp : p code = true
    · exact ⟨some (i + 1), scanBack_here hread hp, ⟨le_rfl, code, hcode, hp⟩,
        fun j hj => hj.1⟩
    · obtain ⟨r, hr, hlast⟩ := ih (by omega)
      refine ⟨r, by rw [scanBack_succ hread hp, hr], ?_⟩
      have hsame : ∀ j, j ≤ i + 1 ∧ Holds p codes j ↔ j ≤ i ∧ Holds p codes j := by
        intro j
        constructor
        · rintro ⟨hle, hold⟩
          refine ⟨?_, hold⟩
          rcases Nat.eq_or_lt_of_le hle with rfl | hlt
          · exact absurd ((holds_iff hcode).1 hold) hp
          · exact Nat.lt_succ_iff.1 hlt
        · rintro ⟨hle, hold⟩
          exact ⟨by omega, hold⟩
      simpa only [IsLast, hsame] using hlast

end UdtKernel.CText
