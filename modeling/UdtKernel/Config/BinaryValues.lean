import UdtKernel.Buffer.Storage
import UdtKernel.Config.Base64
import UdtKernel.Config.Tree

set_option autoImplicit false

/-! Bytes as the values of a `CConfig`. -/

namespace UdtKernel

/-- `transform_width`, an iterator that regroups bits; `base` is the position of the iterator below,
    which is read when the bits are needed. -/
structure TransformWidth where
  base : ℕ
  displacement : ℕ
  buffer : ℕ
  bufferFull : Bool

namespace TransformWidth

def start (base : ℕ) : TransformWidth := ⟨base, 0, 0, false⟩

variable (bitsOut bitsIn : ℕ) (read : ℕ → Option ℕ)

/-- The loop of `fill`, for at most so many turns; nothing if what is read has no group. -/
def fillLoop : ℕ → ℕ → ℕ → TransformWidth → Option (ℕ × TransformWidth)
  | 0, _, retval, it => some (retval, it)
  | turns + 1, missingBits, retval, it => do
    let (it, bcount) ← if it.bufferFull then some (it, bitsIn - it.displacement)
      else (read it.base).map fun v => ({ it with buffer := v, bufferFull := true }, bitsIn)
    let i := min bcount missingBits
    let retval := retval * 2 ^ i + it.buffer / 2 ^ (bcount - i) % 2 ^ i
    if missingBits - i = 0 then some (retval, it)
    else
      fillLoop turns (missingBits - i) retval { it with base := it.base + 1, bufferFull := false }

def fill (it : TransformWidth) : Option (ℕ × TransformWidth) :=
  fillLoop bitsIn read bitsOut bitsOut 0 it

/-- The loop of `increment`, for at most so many turns. -/
def incrementLoop : ℕ → TransformWidth → TransformWidth
  | 0, it => it
  | turns + 1, it =>
    if it.displacement < bitsIn then it
    else
      let displacement := it.displacement - bitsIn
      let bufferFull := if displacement = 0 then false else it.bufferFull
      incrementLoop turns { it with
        base := if bufferFull then it.base else it.base + 1
        displacement := displacement
        bufferFull := bufferFull }

def increment (it : TransformWidth) : TransformWidth :=
  incrementLoop bitsIn bitsOut { it with displacement := it.displacement + bitsOut }

def next (it : TransformWidth) : Option (ℕ × TransformWidth) :=
  (fill bitsOut bitsIn read it).map fun r => (r.1, increment bitsOut bitsIn r.2)

variable {α : Type} (f : ℕ → α)

/-- What a loop takes from the iterator until it is at `last`, or until nothing can be read. -/
def takeUntil (last : ℕ) : ℕ → TransformWidth → List α
  | 0, _ => []
  | turns + 1, it =>
    if it.base = last then []
    else match next bitsOut bitsIn read it with
      | none => []
      | some (v, it') => f v :: takeUntil last turns it'

/-- So many groups, or those before one that cannot be read. -/
def takeCount : ℕ → TransformWidth → List α
  | 0, _ => []
  | count + 1, it => match next bitsOut bitsIn read it with
    | none => []
    | some (v, it') => f v :: takeCount count it'

section Turn
variable {bitsOut bitsIn turns missingBits retval p displacement buffer v : ℕ}
  {read : ℕ → Option ℕ}

/-- A turn of the loop with the bits that are left, the last one or not. -/
theorem fillLoop_left (h : missingBits ≤ bitsIn - displacement) :
    fillLoop bitsIn read (turns + 1) missingBits retval ⟨p, displacement, v, true⟩ =
      some (retval * 2 ^ missingBits +
        v / 2 ^ (bitsIn - displacement - missingBits) % 2 ^ missingBits,
        ⟨p, displacement, v, true⟩) := by
  rw [fillLoop, if_pos rfl, Option.bind_eq_bind, Option.bind_some]
  dsimp only
  rw [Nat.min_eq_right h, Nat.sub_self, if_pos rfl]

theorem fillLoop_left_more (h : bitsIn - displacement < missingBits) :
    fillLoop bitsIn read (turns + 1) missingBits retval ⟨p, displacement, v, true⟩ =
      fillLoop bitsIn read turns (missingBits - (bitsIn - displacement))
        (retval * 2 ^ (bitsIn - displacement) + v % 2 ^ (bitsIn - displacement))
        ⟨p + 1, displacement, v, false⟩ := by
  rw [fillLoop, if_pos rfl, Option.bind_eq_bind, Option.bind_some]
  dsimp only
  rw [Nat.min_eq_left h.le, Nat.sub_self, Nat.pow_zero, Nat.div_one,
    if_neg (Nat.sub_ne_zero_of_lt h)]

/-- A turn with what is read. -/
theorem fillLoop_read (hread : read p = some v) (h : missingBits ≤ bitsIn) :
    fillLoop bitsIn read (turns + 1) missingBits retval ⟨p, displacement, buffer, false⟩ =
      some (retval * 2 ^ missingBits + v / 2 ^ (bitsIn - missingBits) % 2 ^ missingBits,
        ⟨p, displacement, v, true⟩) := by
  rw [fillLoop, if_neg Bool.false_ne_true, hread, Option.map_some, Option.bind_eq_bind,
    Option.bind_some]
  dsimp only
  rw [Nat.min_eq_right h, Nat.sub_self, if_pos rfl]

theorem fillLoop_read_more (hread : read p = some v) (h : bitsIn < missingBits) :
    fillLoop bitsIn read (turns + 1) missingBits retval ⟨p, displacement, buffer, false⟩ =
      fillLoop bitsIn read turns (missingBits - bitsIn) (retval * 2 ^ bitsIn + v % 2 ^ bitsIn)
        ⟨p + 1, displacement, v, false⟩ := by
  rw [fillLoop, if_neg Bool.false_ne_true, hread, Option.map_some, Option.bind_eq_bind,
    Option.bind_some]
  dsimp only
  rw [Nat.min_eq_left h.le, Nat.sub_self, Nat.pow_zero, Nat.div_one,
    if_neg (Nat.sub_ne_zero_of_lt h)]

theorem fillLoop_none (hread : read p = none) :
    fillLoop bitsIn read (turns + 1) missingBits retval ⟨p, displacement, buffer, false⟩ =
      none := by
  rw [fillLoop, if_neg Bool.false_ne_true, hread]
  rfl

/-- A group that is filled, and the step over it. -/
theorem next_eq {it it' : TransformWidth} (h : fill bitsOut bitsIn read it = some (v, it')) :
    next bitsOut bitsIn read it = some (v, increment bitsOut bitsIn it') := by
  rw [next, h]
  rfl

end Turn

section Sextets
variable {read : ℕ → Option ℕ} {p a b c : ℕ}

/-- The first group of six bits of three bytes, with the state before the second. -/
theorem sextet_first (ha : read p = some a) (buffer : ℕ) :
    next 6 8 read ⟨p, 0, buffer, false⟩ =
      some (a / 4 % 64, ⟨p, 6, a, true⟩) := by
  rw [next_eq (fillLoop_read ha (by decide)), Nat.zero_mul, Nat.zero_add]
  rfl

theorem sextet_second (hb : read (p + 1) = some b) :
    next 6 8 read ⟨p, 6, a, true⟩ =
      some (a % 4 * 16 + b / 16 % 16, ⟨p + 1, 4, b, true⟩) := by
  rw [next_eq ((fillLoop_left_more (by decide)).trans (fillLoop_read hb (by decide))),
    Nat.zero_mul, Nat.zero_add]
  rfl

theorem sextet_third (hc : read (p + 2) = some c) :
    next 6 8 read ⟨p + 1, 4, b, true⟩ =
      some (b % 16 * 4 + c / 64 % 4, ⟨p + 2, 2, c, true⟩) := by
  rw [next_eq ((fillLoop_left_more (by decide)).trans (fillLoop_read hc (by decide))),
    Nat.zero_mul, Nat.zero_add]
  rfl

theorem sextet_fourth :
    next 6 8 read ⟨p + 2, 2, c, true⟩ =
      some (c % 64, ⟨p + 3, 0, c, false⟩) := by
  rw [next_eq (fillLoop_left (by decide)), Nat.zero_mul, Nat.zero_add, Nat.sub_self,
    Nat.pow_zero, Nat.div_one]
  rfl

end Sextets

section Octets
variable {read : ℕ → Option ℕ} {p a b c d : ℕ}

theorem octet_first (ha : read p = some a) (hb : read (p + 1) = some b) (buffer : ℕ) :
    next 8 6 read ⟨p, 0, buffer, false⟩ =
      some (a % 64 * 4 + b / 16 % 4, ⟨p + 1, 2, b, true⟩) := by
  rw [next_eq ((fillLoop_read_more ha (by decide)).trans (fillLoop_read hb (by decide))),
    Nat.zero_mul, Nat.zero_add]
  rfl

theorem octet_second (hc : read (p + 2) = some c) :
    next 8 6 read ⟨p + 1, 2, b, true⟩ =
      some (b % 16 * 16 + c / 4 % 16, ⟨p + 2, 4, c, true⟩) := by
  rw [next_eq ((fillLoop_left_more (by decide)).trans (fillLoop_read hc (by decide))),
    Nat.zero_mul, Nat.zero_add]
  rfl

theorem octet_third (hd : read (p + 3) = some d) :
    next 8 6 read ⟨p + 2, 4, c, true⟩ =
      some (c % 4 * 64 + d % 64, ⟨p + 4, 0, d, false⟩) := by
  have hdiv : d / 2 ^ (6 - 6) = d := by rw [Nat.sub_self, Nat.pow_zero, Nat.div_one]
  rw [next_eq ((fillLoop_left_more (by decide)).trans (fillLoop_read hd (by decide))),
    Nat.zero_mul, Nat.zero_add]
  exact congrArg (fun e => some (c % 4 * 64 + e % 64, TransformWidth.mk (p + 4) 0 d false)) hdiv

theorem octet_first_none (ha : read p = none) (buffer : ℕ) :
    next 8 6 read ⟨p, 0, buffer, false⟩ = none := by
  rw [next, fill, fillLoop_none ha]
  rfl

theorem octet_second_none (hc : read (p + 2) = none) :
    next 8 6 read ⟨p + 1, 2, b, true⟩ = none := by
  rw [next, fill, fillLoop_left_more (by decide), fillLoop_none hc]
  rfl

theorem octet_third_none (hd : read (p + 3) = none) :
    next 8 6 read ⟨p + 2, 4, c, true⟩ = none := by
  rw [next, fill, fillLoop_left_more (by decide), fillLoop_none hd]
  rfl

end Octets

end TransformWidth

namespace Config
open TransformWidth

def byteAt (l : List Byte) (i : ℕ) : Option ℕ := l[i]?.map Fin.val

/-- `base64_encode` into an empty text. -/
def base64Text (src : List Byte) : Text :=
  let oneThird := src.length / 3
  let roundedDown := oneThird * 3
  let j := roundedDown + oneThird
  let dest := takeUntil 6 8 (byteAt src) sextetChar roundedDown (2 * src.length + 1) (start 0)
  if roundedDown = src.length then dest
  else
    let tail := src.drop roundedDown ++ List.replicate (3 - (src.length - roundedDown)) 0
    let dest := dest ++ takeUntil 6 8 (byteAt tail) sextetChar 3 5 (start 0)
    let i := src.length + oneThird + 1
    (List.range' i (j + 4 - i)).foldl (fun dest i => dest.set i '=') dest

/-- A character of `c_str`, as a group of six bits; the null at the end has none. -/
def sextetAt (text : Text) (i : ℕ) : Option ℕ := text[i]?.bind sextet

/-- `MValueBuf`: what is written. -/
def valueBuf (c : Config) (aMaxLen : ℕ) : List Byte :=
  takeCount 8 6 (sextetAt c.value) (Fin.ofNat 256) aMaxLen (start 0)

/-- `find_last_not_of` of a code point. -/
def findLastNotOf (code : Char) : Text → Option ℕ
  | [] => none
  | c :: l => match findLastNotOf code l with
    | some i => some (i + 1)
    | none => if c = code then none else some 0

/-- `MValue` into an empty buffer, with its `CHECK_NE`; each byte is pushed to the buffer. -/
def valueBuffer (c : Config) : Except Abort (List Byte) :=
  match findLastNotOf '=' c.value with
  | none => .error .textIsEmpty
  | some len => .ok ((takeUntil 8 6 (sextetAt c.value) (Fin.ofNat 256) len (c.value.length + 1)
      (start 0)).flatMap Buffer.smartField)

/-- `CConfig(key, buffer)`. -/
def ofBuffer (key : String) (aTo : List Byte) : Config := leaf key (base64Text aTo)

/-- `MAdd` of bytes, and `MAddTo`. -/
def addBuffer (c : Config) (key : String) (aTo : List Byte) : Config :=
  c.add (leaf key (base64Text aTo))

section Taken
variable {bitsOut bitsIn : ℕ} {read : ℕ → Option ℕ} {α : Type} {f : ℕ → α}
  {it it' : TransformWidth} {v : ℕ}

theorem takeUntil_cons (h : next bitsOut bitsIn read it = some (v, it')) {last : ℕ}
    (hne : it.base ≠ last) (turns : ℕ) : takeUntil bitsOut bitsIn read f last (turns + 1) it =
      f v :: takeUntil bitsOut bitsIn read f last turns it' := by
  rw [takeUntil, if_neg hne, h]

theorem takeUntil_last (turns : ℕ) :
    takeUntil bitsOut bitsIn read f it.base (turns + 1) it = [] := by
  rw [takeUntil, if_pos rfl]

theorem takeUntil_none (h : next bitsOut bitsIn read it = none) (last turns : ℕ) :
    takeUntil bitsOut bitsIn read f last (turns + 1) it = [] := by
  rw [takeUntil, h]
  exact ite_self _

theorem takeCount_cons (h : next bitsOut bitsIn read it = some (v, it')) (count : ℕ) :
    takeCount bitsOut bitsIn read f (count + 1) it =
      f v :: takeCount bitsOut bitsIn read f count it' := by
  rw [takeCount, h]

theorem takeCount_none (h : next bitsOut bitsIn read it = none) (count : ℕ) :
    takeCount bitsOut bitsIn read f count it = [] := by
  cases count with
  | zero => rfl
  | succ count => rw [takeCount, h]

end Taken

theorem byteAt_drop {l w : List Byte} {p : ℕ} (h : l.drop p = w) (i : ℕ) :
    byteAt l (p + i) = byteAt w i := by
  rw [← h, byteAt, byteAt, List.getElem?_drop]

theorem sextetAt_drop {l w : Text} {p : ℕ} (h : l.drop p = w) (i : ℕ) :
    sextetAt l (p + i) = sextetAt w i := by
  rw [← h, sextetAt, sextetAt, List.getElem?_drop]

/-- Whole groups of three bytes become their text. -/
theorem takeUntil_encode (q : ℕ) {l w rest : List Byte} {p : ℕ} (h : l.drop p = w ++ rest)
    (hw : w.length = 3 * q) (turns buffer : ℕ) :
    takeUntil 6 8 (byteAt l) sextetChar (p + 3 * q) (4 * q + turns + 1) ⟨p, 0, buffer, false⟩ =
      base64Encode w := by
  induction q generalizing p w buffer with
  | zero =>
    obtain rfl : w = [] := List.eq_nil_of_length_eq_zero hw
    exact takeUntil_last _
  | succ q ih =>
    obtain ⟨a, w, rfl⟩ := List.exists_cons_of_length_pos (l := w) (by omega)
    obtain ⟨b, w, rfl⟩ := List.exists_cons_of_length_pos (l := w) (by simp at hw; omega)
    obtain ⟨c, w, rfl⟩ := List.exists_cons_of_length_pos (l := w) (by simp at hw; omega)
    have hread := byteAt_drop h
    have ha : byteAt l p = some a.val := hread 0
    have hb : byteAt l (p + 1) = some b.val := hread 1
    have hc : byteAt l (p + 2) = some c.val := hread 2
    have hdrop : l.drop (p + 3) = w ++ rest := by
      rw [← List.drop_drop, h]
      rfl
    have hlen : w.length = 3 * q := by
      simp only [List.length_cons] at hw
      omega
    have hfirst : a.val / 4 % 64 = a.val / 4 := by omega
    have hsecond : b.val / 16 % 16 = b.val / 16 := by omega
    have hthird : c.val / 64 % 4 = c.val / 64 := by omega
    rw [show 4 * (q + 1) + turns + 1 = 4 * q + turns + 1 + 1 + 1 + 1 + 1 by omega,
      show p + 3 * (q + 1) = p + 3 + 3 * q by omega,
      takeUntil_cons (sextet_first ha buffer) (by dsimp only; omega),
      takeUntil_cons (sextet_second hb) (by dsimp only; omega),
      takeUntil_cons (sextet_third hc) (by dsimp only; omega),
      takeUntil_cons sextet_fourth (by dsimp only; omega),
      ih hdrop hlen, base64Encode, hfirst, hsecond, hthird]

section Written
variable {text l : Text} {p v : ℕ} {c d : Char}

theorem sextetAt_written (h : text.drop p = l) {i : ℕ} (hi : l[i]? = some (sextetChar v))
    (hv : v < 64) : sextetAt text (p + i) = some v := by
  rw [sextetAt_drop h, sextetAt, hi]
  exact sextet_sextetChar hv

theorem sextetAt_none (h : text.drop p = l) {i : ℕ} (hi : l[i]? = none ∨ l[i]? = some '=') :
    sextetAt text (p + i) = none := by
  rw [sextetAt_drop h, sextetAt]
  rcases hi with hi | hi
  · rw [hi]
    rfl
  · rw [hi]
    rfl

end Written

/-- The two characters that a byte begins give it, with four bits of the next one. -/
theorem octet_of_first {a : Byte} {u : ℕ} (hu : u < 16) :
    Fin.ofNat 256 (a.val / 4 % 64 * 4 + (a.val % 4 * 16 + u) / 16 % 4) = a := by
  have ha := a.isLt
  exact ofNat_of_eq (by omega)

theorem octet_of_second {b : Byte} {u v : ℕ} (hu : u % 16 = b.val / 16) (hv : v < 4) :
    Fin.ofNat 256 (u % 16 * 16 + (b.val % 16 * 4 + v) / 4 % 16) = b := by
  have hb := b.isLt
  exact ofNat_of_eq (by omega)

theorem octet_of_third {c : Byte} {u : ℕ} (hu : u % 4 = c.val / 64) :
    Fin.ofNat 256 (u % 4 * 64 + c.val % 64 % 64) = c := by
  have hc := c.isLt
  exact ofNat_of_eq (by omega)

section Groups
variable {text rest : Text} {p : ℕ} {a b c : Byte}

/-- The next of the bytes of a group, and of the last one of two bytes or of one. -/
theorem next_first {u : ℕ} (hu : u < 16)
    (h : text.drop p = sextetChar (a.val / 4) :: sextetChar (a.val % 4 * 16 + u) :: rest)
    (buffer : ℕ) : ∃ v, Fin.ofNat 256 v = a ∧ next 8 6 (sextetAt text) ⟨p, 0, buffer, false⟩ =
      some (v, ⟨p + 1, 2, a.val % 4 * 16 + u, true⟩) :=
  ⟨_, octet_of_first hu, octet_first (sextetAt_written h (i := 0) rfl (by omega))
    (sextetAt_written h (i := 1) rfl (by omega)) buffer⟩

theorem next_second {u v : ℕ} (hu : u % 16 = b.val / 16) (hv : v < 4) {x y : Char}
    (h : text.drop p = x :: y :: sextetChar (b.val % 16 * 4 + v) :: rest) :
    ∃ o, Fin.ofNat 256 o = b ∧ next 8 6 (sextetAt text) ⟨p + 1, 2, u, true⟩ =
      some (o, ⟨p + 2, 4, b.val % 16 * 4 + v, true⟩) :=
  ⟨_, octet_of_second hu hv, octet_second (sextetAt_written h (i := 2) rfl (by omega))⟩

theorem next_third {u : ℕ} (hu : u % 4 = c.val / 64) {x y z : Char}
    (h : text.drop p = x :: y :: z :: sextetChar (c.val % 64) :: rest) :
    ∃ o, Fin.ofNat 256 o = c ∧ next 8 6 (sextetAt text) ⟨p + 2, 4, u, true⟩ =
      some (o, ⟨p + 4, 0, c.val % 64, false⟩) :=
  ⟨_, octet_of_third hu, octet_third (sextetAt_written h (i := 3) rfl (by omega))⟩

end Groups

/-- The groups of a text that is written are read back, as many as are asked for. -/
theorem takeCount_encode (w : List Byte) {text : Text} {p : ℕ} (h : text.drop p = base64Encode w)
    (count buffer : ℕ) :
    takeCount 8 6 (sextetAt text) (Fin.ofNat 256) count ⟨p, 0, buffer, false⟩ = w.take count := by
  fun_induction base64Encode w generalizing p count buffer with
  | case1 a b c w ih =>
    obtain ⟨v₁, hv₁, h₁⟩ := next_first (by omega) h buffer
    obtain ⟨v₂, hv₂, h₂⟩ := next_second (u := a.val % 4 * 16 + b.val / 16) (by omega) (by omega) h
    obtain ⟨v₃, hv₃, h₃⟩ := next_third (u := b.val % 16 * 4 + c.val / 64) (by omega) h
    have hdrop : text.drop (p + 4) = base64Encode w := by
      rw [← List.drop_drop, h]
      rfl
    rcases count with _ | _ | _ | count
    · rfl
    · rw [takeCount_cons h₁, hv₁]
      rfl
    · rw [takeCount_cons h₁, takeCount_cons h₂, hv₁, hv₂]
      rfl
    · rw [takeCount_cons h₁, takeCount_cons h₂, takeCount_cons h₃, hv₁, hv₂, hv₃, ih hdrop]
      rfl
  | case2 a b =>
    obtain ⟨v₁, hv₁, h₁⟩ := next_first (by omega) h buffer
    obtain ⟨v₂, hv₂, h₂⟩ := next_second (u := a.val % 4 * 16 + b.val / 16) (v := 0) (by omega)
      (by omega) h
    have h₃ := octet_third_none (c := b.val % 16 * 4 + 0) (sextetAt_none h (i := 3) (.inr rfl))
    rcases count with _ | _ | count
    · rfl
    · rw [takeCount_cons h₁, hv₁]
      rfl
    · rw [takeCount_cons h₁, takeCount_cons h₂, hv₁, hv₂, takeCount_none h₃]
      simp
  | case3 a =>
    obtain ⟨v₁, hv₁, h₁⟩ := next_first (u := 0) (by omega) h buffer
    have h₂ := octet_second_none (b := a.val % 4 * 16 + 0) (sextetAt_none h (i := 2) (.inr rfl))
    rcases count with _ | count
    · rfl
    · rw [takeCount_cons h₁, hv₁, takeCount_none h₂]
      simp
  | case4 =>
    have h₀ : sextetAt text p = none := sextetAt_none h (i := 0) (.inl rfl)
    rw [takeCount_none (octet_first_none h₀ buffer), List.take_nil]

theorem base64Encode_append (q : ℕ) {w : List Byte} (hw : w.length = 3 * q) (rest : List Byte) :
    base64Encode (w ++ rest) = base64Encode w ++ base64Encode rest ∧
      (base64Encode w).length = 4 * q := by
  induction q generalizing w with
  | zero =>
    obtain rfl : w = [] := List.eq_nil_of_length_eq_zero hw
    exact ⟨rfl, rfl⟩
  | succ q ih =>
    obtain ⟨a, w, rfl⟩ := List.exists_cons_of_length_pos (l := w) (by omega)
    obtain ⟨b, w, rfl⟩ := List.exists_cons_of_length_pos (l := w) (by simp at hw; omega)
    obtain ⟨c, w, rfl⟩ := List.exists_cons_of_length_pos (l := w) (by simp at hw; omega)
    have hlen : w.length = 3 * q := by
      simp only [List.length_cons] at hw
      omega
    obtain ⟨happ, hlength⟩ := ih hlen
    refine ⟨by simp only [List.cons_append, base64Encode, happ], ?_⟩
    simp only [base64Encode, List.length_cons, hlength]
    omega

/-- The last group of four characters of a text, with a character of it set. -/
theorem set_group {text l : Text} {n : ℕ} (hn : text.length = n) (i : ℕ) (c : Char) :
    (text ++ l).set (n + i) c = text ++ l.set i c := by
  rw [List.set_append_right _ _ (by omega), hn, Nat.add_sub_cancel_left]

/-- The padding of the last group stands where the positions are computed to be. -/
theorem base64Text_append (q : ℕ) {w rest : List Byte} (hw : w.length = 3 * q)
    (hrest : rest.length < 3) : base64Text (w ++ rest) = base64Encode (w ++ rest) := by
  have hlength : (w ++ rest).length = 3 * q + rest.length := by rw [List.length_append, hw]
  have hthird : (3 * q + rest.length) / 3 = q := by omega
  have hdown : q * 3 = 3 * q := Nat.mul_comm q 3
  have hbody : takeUntil 6 8 (byteAt (w ++ rest)) sextetChar (3 * q)
      (2 * (3 * q + rest.length) + 1) (start 0) = base64Encode w := by
    have htaken := takeUntil_encode q (l := w ++ rest) (p := 0) rfl hw (2 * q + 2 * rest.length) 0
    rwa [show 4 * q + (2 * q + 2 * rest.length) + 1 = 2 * (3 * q + rest.length) + 1 by omega,
      Nat.zero_add] at htaken
  have htail : ∀ x y z : Byte, takeUntil 6 8 (byteAt [x, y, z]) sextetChar 3 5 (start 0) =
      base64Encode [x, y, z] := fun x y z =>
    takeUntil_encode 1 (show [x, y, z].drop 0 = [x, y, z] ++ [] from rfl) rfl 0 0
  obtain ⟨happ, hencoded⟩ := base64Encode_append q hw rest
  have hdrop : (w ++ rest).drop (3 * q) = rest := by rw [← hw, List.drop_left]
  simp only [base64Text, hlength, hthird, hdown, hbody, happ, hdrop]
  match rest, hrest with
  | [], _ => rw [if_pos (by simp), base64Encode, List.append_nil]
  | [x], _ =>
    rw [if_neg (by simp), show 3 - (3 * q + [x].length - 3 * q) = 2 by simp]
    rw [show 3 * q + q + 4 - (3 * q + [x].length + q + 1) = 2 by simp; omega,
      show 3 * q + [x].length + q + 1 = 4 * q + 2 by simp; omega]
    simp only [List.replicate, List.singleton_append, htail, List.range', List.foldl,
      set_group hencoded, Nat.add_assoc]
    rfl
  | [x, y], _ =>
    rw [if_neg (by simp), show 3 - (3 * q + [x, y].length - 3 * q) = 1 by simp]
    rw [show 3 * q + q + 4 - (3 * q + [x, y].length + q + 1) = 1 by simp; omega,
      show 3 * q + [x, y].length + q + 1 = 4 * q + 3 by simp; omega]
    simp only [List.replicate, List.cons_append, List.nil_append, htail, List.range', List.foldl,
      set_group hencoded]
    rfl

/-- The text that is stored is the one with padding. -/
theorem base64Text_eq (b : List Byte) : base64Text b = base64Encode b := by
  have hwhole : (b.take (3 * (b.length / 3))).length = 3 * (b.length / 3) := by
    rw [List.length_take]
    omega
  have hrest : (b.drop (3 * (b.length / 3))).length < 3 := by
    rw [List.length_drop]
    omega
  have h := base64Text_append (b.length / 3) hwhole hrest
  rwa [List.take_append_drop] at h

theorem sextetChar_ne {v : ℕ} (hv : v < 64) : sextetChar v ≠ '=' := by
  intro h
  have hs := sextet_sextetChar hv
  rw [h] at hs
  exact nomatch hs

theorem findLastNotOf_cons {code c : Char} {l : Text} {i : ℕ} (h : findLastNotOf code l = some i) :
    findLastNotOf code (c :: l) = some (i + 1) := by
  rw [findLastNotOf, h]

theorem findLastNotOf_last {code c : Char} {l : Text} (hc : c ≠ code)
    (h : findLastNotOf code l = none) : findLastNotOf code (c :: l) = some 0 := by
  rw [findLastNotOf, h]
  exact if_neg hc

theorem length_le_encode (w : List Byte) : w.length ≤ (base64Encode w).length := by
  fun_induction base64Encode w with
  | case1 a b c w ih => simp only [List.length_cons]; omega
  | case2 a b => simp
  | case3 a => simp
  | case4 => simp

/-- The loop up to the last character that is no padding gives every byte: it passes over its end
    where the last group is whole, and stops where nothing can be read. -/
theorem takeUntil_decode (w : List Byte) (hne : w ≠ []) {text : Text} {p : ℕ}
    (h : text.drop p = base64Encode w) (turns buffer : ℕ) :
    ∃ i, findLastNotOf '=' (base64Encode w) = some i ∧
      takeUntil 8 6 (sextetAt text) (Fin.ofNat 256) (p + i) (w.length + turns + 1)
        ⟨p, 0, buffer, false⟩ = w := by
  fun_induction base64Encode w generalizing p turns buffer with
  | case1 a b c w ih =>
    obtain ⟨v₁, hv₁, h₁⟩ := next_first (by omega) h buffer
    obtain ⟨v₂, hv₂, h₂⟩ := next_second (u := a.val % 4 * 16 + b.val / 16) (by omega) (by omega) h
    obtain ⟨v₃, hv₃, h₃⟩ := next_third (u := b.val % 16 * 4 + c.val / 64) (by omega) h
    have hdrop : text.drop (p + 4) = base64Encode w := by
      rw [← List.drop_drop, h]
      rfl
    have hturns : (a :: b :: c :: w).length + turns + 1 = w.length + turns + 1 + 1 + 1 + 1 := by
      simp only [List.length_cons]
      omega
    have hthree {last : ℕ} (hlast : p + 3 ≤ last) (hrest : takeUntil 8 6 (sextetAt text)
        (Fin.ofNat 256) last (w.length + turns + 1) ⟨p + 4, 0, c.val % 64, false⟩ = w) :
        takeUntil 8 6 (sextetAt text) (Fin.ofNat 256) last ((a :: b :: c :: w).length + turns + 1)
          ⟨p, 0, buffer, false⟩ = a :: b :: c :: w := by
      rw [hturns, takeUntil_cons h₁ (by dsimp only; omega),
        takeUntil_cons h₂ (by dsimp only; omega), takeUntil_cons h₃ (by dsimp only; omega),
        hv₁, hv₂, hv₃, hrest]
    by_cases hw : w = []
    · subst hw
      refine ⟨3, ?_, hthree le_rfl ?_⟩
      · exact findLastNotOf_cons (findLastNotOf_cons (findLastNotOf_cons
          (findLastNotOf_last (sextetChar_ne (by omega)) rfl)))
      · have h₀ : sextetAt text (p + 4) = none := sextetAt_none hdrop (i := 0) (.inl rfl)
        exact takeUntil_none (octet_first_none h₀ _) _ _
    · obtain ⟨i, hlast, htaken⟩ := ih hw hdrop turns (c.val % 64)
      refine ⟨i + 1 + 1 + 1 + 1, ?_, hthree (by omega) ?_⟩
      · exact findLastNotOf_cons (findLastNotOf_cons (findLastNotOf_cons
          (findLastNotOf_cons hlast)))
      · rwa [show p + (i + 1 + 1 + 1 + 1) = p + 4 + i by omega]
  | case2 a b =>
    obtain ⟨v₁, hv₁, h₁⟩ := next_first (by omega) h buffer
    obtain ⟨v₂, hv₂, h₂⟩ := next_second (u := a.val % 4 * 16 + b.val / 16) (v := 0) (by omega)
      (by omega) h
    refine ⟨2, findLastNotOf_cons (findLastNotOf_cons
      (findLastNotOf_last (sextetChar_ne (by omega)) rfl)), ?_⟩
    rw [show [a, b].length + turns + 1 = turns + 1 + 1 + 1 by simp; omega,
      takeUntil_cons h₁ (by dsimp only; omega), takeUntil_cons h₂ (by dsimp only; omega), hv₁, hv₂]
    exact congrArg (a :: b :: ·) (takeUntil_last _)
  | case3 a =>
    obtain ⟨v₁, hv₁, h₁⟩ := next_first (u := 0) (by omega) h buffer
    refine ⟨1, findLastNotOf_cons (findLastNotOf_last (sextetChar_ne (by omega)) rfl), ?_⟩
    rw [show [a].length + turns + 1 = turns + 1 + 1 by simp; omega,
      takeUntil_cons h₁ (by dsimp only; omega), hv₁]
    exact congrArg (a :: ·) (takeUntil_last _)
  | case4 => exact absurd rfl hne

/-- What is stored is read back into a buffer, unless it is empty, with a byte 1 behind each. -/
theorem valueBuffer_stored {c : Config} {b : List Byte} (hc : c.value = base64Encode b) :
    valueBuffer c =
      if b = [] then .error .textIsEmpty else .ok (b.flatMap Buffer.smartField) := by
  by_cases hb : b = []
  · subst hb
    rw [valueBuffer, hc]
    rfl
  · obtain ⟨i, hlast, htaken⟩ := takeUntil_decode b hb
      (show c.value.drop 0 = base64Encode b from hc) (c.value.length - b.length) 0
    have hle := length_le_encode b
    rw [← hc] at hle hlast
    rw [show b.length + (c.value.length - b.length) + 1 = c.value.length + 1 by omega,
      Nat.zero_add] at htaken
    rw [valueBuffer, hlast, if_neg hb]
    exact congrArg (fun l => Except.ok (l.flatMap Buffer.smartField)) htaken

theorem valueBuf_stored {c : Config} {b : List Byte} (hc : c.value = base64Encode b)
    (aMaxLen : ℕ) : valueBuf c aMaxLen = b.take aMaxLen :=
  takeCount_encode b (show c.value.drop 0 = base64Encode b from hc) aMaxLen 0

/-- A config has the bytes as its value: their text, the bytes in a buffer, and the first of them
    in a memory. -/
def HoldsBytes (c : Config) (b : List Byte) : Prop :=
  c.value = base64Encode b ∧ valueBuffer c = .ok b ∧
    ∀ aMaxLen, valueBuf c aMaxLen = b.take aMaxLen

theorem flatMap_smartField_length (b : List Byte) :
    (b.flatMap Buffer.smartField).length = b.length * 2 := by
  rw [List.length_flatMap]
  induction b with
  | nil => rfl
  | cons x b ih =>
    rw [List.map_cons, List.sum_cons, ih, List.length_cons, Nat.succ_mul, Nat.add_comm]
    rfl

/-- No bytes have the length that is read back. -/
theorem valueBuffer_ne {c : Config} {b : List Byte} (hc : c.value = base64Encode b) :
    valueBuffer c ≠ .ok b := by
  rw [valueBuffer_stored hc]
  split_ifs with hb
  · exact fun h => nomatch h
  · intro h
    have hlength := congrArg List.length (Except.ok.inj h)
    rw [flatMap_smartField_length] at hlength
    have hpos := List.length_pos_iff.2 hb
    omega

theorem not_holdsBytes_leaf (key : String) (b : List Byte) :
    ¬ HoldsBytes (leaf key (base64Text b)) b := fun h => valueBuffer_ne h.1 h.2.1

/-- However bytes are stored, a buffer does not get them back: it gets none of no bytes, and two for
each of some. Their text and the first of them in a memory are right. -/
theorem bytes_survive (b : List Byte) :
    (∀ key, ¬ HoldsBytes (ofBuffer key b) b) ∧
      (∀ (c : Config) (key : String), ∃ x, (addBuffer c key b).children = c.children ++ [x] ∧
        x.key = key ∧ ¬ HoldsBytes x b) ∧
      ∀ key, (ofBuffer key b).value = base64Encode b ∧
        valueBuffer (ofBuffer key b) =
          (if b = [] then .error .textIsEmpty else .ok (b.flatMap Buffer.smartField)) ∧
        ∀ aMaxLen, valueBuf (ofBuffer key b) aMaxLen = b.take aMaxLen :=
  ⟨fun key => not_holdsBytes_leaf key b,
    fun _ key => ⟨leaf key (base64Text b), rfl, rfl, not_holdsBytes_leaf key b⟩,
    fun _ => ⟨base64Text_eq b, valueBuffer_stored (base64Text_eq b),
      valueBuf_stored (base64Text_eq b)⟩⟩

/-- The buffer of no bytes of the test of the class, and three bytes. -/
theorem valueBuffer_of_no_bytes : ¬ (∀ b : List Byte,
    valueBuffer (ofBuffer "buf" b) = .ok b) ∧
    valueBuffer (ofBuffer "buf" []) = .error .textIsEmpty ∧ valueBuf (ofBuffer "buf" []) 4 = [] ∧
    valueBuffer (ofBuffer "buf" [1, 2, 3]) = .ok [1, 1, 2, 1, 3, 1] :=
  ⟨fun h => (nomatch h []), rfl, rfl, rfl⟩

end Config

end UdtKernel
