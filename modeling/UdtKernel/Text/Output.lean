import UdtKernel.Text.ListEdits

set_option autoImplicit false

/-! A `CText` as UTF-8, and the bytes that are kept of it. -/

namespace UdtKernel.CText
open Lib

/-- `MSizeOf`. -/
def sizeOfCodes (codes : List ℕ) : ℕ := (codes.map charLen).sum

/-- What `MFromUCS4` writes to so many bytes: it stops at a code that does not go in. -/
def fromUcs4 : ℕ → List ℕ → List Byte
  | _, [] => []
  | destLen, code :: codes =>
    if destLen < charLen code then []
    else appendCode code ++ fromUcs4 (destLen - charLen code) codes

/-- The bytes at a `char` pointer up to the null. -/
def cString (memory : List Byte) : Except Fault (List Byte) :=
  if 0 ∈ memory then .ok (untilNull memory) else .error .outside

def putBytes (memory : List Byte) (pos : ℕ) (bytes : List Byte) : Except Fault (List Byte) :=
  if pos + bytes.length ≤ memory.length then .ok (overwrite memory pos bytes) else .error .outside

namespace Store

/-- The code points between `ptr_const()` and the end. -/
def readCodes (s : Store) : Except Fault (List ℕ) := readAt s.buf 0 s.length

/-- The memory for so many bytes and a null, with its size: the kept one, or new memory if that one
    is too small. -/
def singleMemory (junk : ℕ → Byte) (datalen : ℕ) (s : Store) : List Byte × ℕ :=
  if s.singleBufferLen < datalen + 1 then ((List.range (datalen + 1)).map junk, datalen + 1)
  else (s.single.getD [], s.singleBufferLen)

def buildUtf8Buff (junk : ℕ → Byte) (s : Store) : Except Fault (Store × List Byte) :=
  if s.length = 0 then .ok (s, [])
  else if s.singleDatalen ≠ 0 then return (s, ← cString (s.single.getD []))
  else do
    let codes ← s.readCodes
    let (memory, bufferLen) := s.singleMemory junk (sizeOfCodes codes)
    let memory ← putBytes memory 0 (fromUcs4 (sizeOfCodes codes) codes)
    let memory ← putBytes memory (sizeOfCodes codes) [0]
    let bytes ← cString memory
    return ({ s with
      single := some memory
      singleBufferLen := bufferLen
      singleDatalen := sizeOfCodes codes }, bytes)

/-- `MToStdString`, and `MPrint` without a converter: a code after another. -/
def toStdString (s : Store) : Except Fault (List Byte) := return encode (← s.readCodes)

/-- `MPrint` with a converter: the bytes that are kept, if there is memory for any. -/
def printWith (junk : ℕ → Byte) (s : Store) : Except Fault (Store × List Byte) :=
  if s.length = 0 then .ok (s, [])
  else if 0 < s.singleBufferLen then return (s, ← cString (s.single.getD []))
  else s.buildUtf8Buff junk

structure Cached (s : Store) : Prop where
  shape : match s.single with
    | none => s.singleBufferLen = 0 ∧ s.singleDatalen = 0
    | some memory => memory.length = s.singleBufferLen
  valid : s.singleDatalen ≠ 0 → cString (s.single.getD []) = .ok (encode s.codes)

/-- The code points are those of characters, and stand in the memory of the text. -/
structure Valid (s : Store) : Prop where
  sized : s.Sized
  valid : ∀ code ∈ s.codes, code ≠ 0 ∧ isCodeValid code = true

section Build
variable {s : Store}

theorem Valid.exists_text (h : s.Valid) : ∃ text : List CodePoint, s.codes = text.map Subtype.val :=
  codePoints_of_valid (fun code hcode => (h.valid code hcode).2) fun hnull =>
    (h.valid 0 hnull).1 rfl

theorem Valid.readCodes (h : s.Valid) : s.readCodes = .ok s.codes := by
  have hle := h.sized.le_buf
  rw [Store.readCodes, readAt_ok (by omega), List.drop_zero]
  rfl

theorem length_appendCode (code : ℕ) : (appendCode code).length = charLen code := by
  unfold appendCode charLen
  split_ifs <;> rfl

theorem length_encode (codes : List ℕ) : (encode codes).length = sizeOfCodes codes := by
  induction codes with
  | nil => rfl
  | cons code codes ih =>
    rw [encode_cons, List.length_append, length_appendCode, ih]
    rfl

/-- All codes go into so many bytes as they have. -/
theorem fromUcs4_sizeOfCodes (codes : List ℕ) :
    fromUcs4 (sizeOfCodes codes) codes = encode codes := by
  induction codes with
  | nil => rfl
  | cons code codes ih =>
    have hsize : sizeOfCodes (code :: codes) = charLen code + sizeOfCodes codes := rfl
    rw [fromUcs4, hsize, if_neg (by omega), Nat.add_sub_cancel_left, ih, encode_cons]

/-- A null behind the bytes of characters ends them. -/
theorem cString_written (text : List CodePoint) {memory : List Byte}
    (hlen : (utf8Of text).length < memory.length) :
    ∃ m₁ m₂, putBytes memory 0 (utf8Of text) = .ok m₁ ∧
      putBytes m₁ (utf8Of text).length [0] = .ok m₂ ∧ m₂.length = memory.length ∧
      cString m₂ = .ok (utf8Of text) := by
  have hfirst : 0 + (utf8Of text).length ≤ memory.length := by omega
  have hlen₁ := length_overwrite hfirst
  have hsecond : (utf8Of text).length + [(0 : Byte)].length ≤
      (overwrite memory 0 (utf8Of text)).length := by
    rw [hlen₁, List.length_singleton]
    omega
  refine ⟨_, _, if_pos hfirst, if_pos hsecond, (length_overwrite hsecond).trans hlen₁, ?_⟩
  have hmemory : overwrite (overwrite memory 0 (utf8Of text)) (utf8Of text).length [0] =
      utf8Of text ++ 0 :: (overwrite memory 0 (utf8Of text)).drop ((utf8Of text).length + 1) := by
    have hfront : (overwrite memory 0 (utf8Of text)).take (utf8Of text).length = utf8Of text := by
      rw [overwrite, List.take_zero, List.nil_append, List.take_left]
    rw [overwrite, hfront, List.append_assoc]
    rfl
  rw [hmemory, cString, if_pos (by simp), untilNull, List.takeWhile_append_of_pos]
  · simp
  · exact fun x hx => decide_eq_true (utf8Of_ne_zero text x hx)

theorem Cached.singleMemory (h : s.Cached) (junk : ℕ → Byte) (datalen : ℕ) :
    (s.singleMemory junk datalen).1.length = (s.singleMemory junk datalen).2 ∧
      datalen < (s.singleMemory junk datalen).1.length := by
  unfold Store.singleMemory
  split_ifs with hsmall
  · simp
  · have hshape := h.shape
    cases hsingle : s.single with
    | none =>
      rw [hsingle] at hshape
      omega
    | some memory =>
      rw [hsingle] at hshape
      have hle : datalen < memory.length := by omega
      exact ⟨hshape, hle⟩

/-- `c_str` gives the bytes of the code points, and they are kept. -/
theorem buildUtf8Buff_spec (hs : s.Valid) (hcached : s.Cached) (junk : ℕ → Byte) :
    ∃ s', s.buildUtf8Buff junk = .ok (s', encode s.codes) ∧ s'.Cached ∧ s'.codes = s.codes := by
  have hlength := hs.sized.length_codes
  rw [buildUtf8Buff]
  by_cases hzero : s.length = 0
  · have hnil : s.codes = [] := List.eq_nil_of_length_eq_zero (hlength.trans hzero)
    exact ⟨s, by rw [if_pos hzero, hnil]; rfl, hcached, rfl⟩
  rw [if_neg hzero]
  by_cases hkept : s.singleDatalen ≠ 0
  · rw [if_pos hkept, hcached.valid hkept]
    exact ⟨s, rfl, hcached, rfl⟩
  rw [if_neg hkept, hs.readCodes]
  obtain ⟨text, htext⟩ := hs.exists_text
  have hbytes : encode s.codes = utf8Of text := by rw [htext]; rfl
  have hsize : sizeOfCodes s.codes = (utf8Of text).length := by rw [← length_encode, hbytes]
  obtain ⟨hlen, hroom⟩ := hcached.singleMemory junk (sizeOfCodes s.codes)
  have hroom' : (utf8Of text).length <
      (s.singleMemory junk (sizeOfCodes s.codes)).1.length := hsize ▸ hroom
  obtain ⟨m₁, m₂, hput, hend, hlen₂, hstring⟩ := cString_written text hroom'
  rw [← hsize] at hend
  rw [← hbytes, ← fromUcs4_sizeOfCodes] at hput
  rw [← hbytes] at hstring
  simp only [bind, Except.bind, hput, hend, hstring]
  refine ⟨_, rfl, ⟨?_, fun _ => hstring⟩, rfl⟩
  exact hlen₂.trans hlen

theorem printWith_spec (hs : s.Valid) (hcached : s.Cached)
    (hkept : s.singleBufferLen = 0 ∨ s.singleDatalen ≠ 0) (junk : ℕ → Byte) :
    ∃ s', s.printWith junk = .ok (s', encode s.codes) ∧ s'.Cached ∧ s'.codes = s.codes := by
  have hbuild := buildUtf8Buff_spec hs hcached junk
  rw [printWith]
  split_ifs with hzero hmemory
  · rwa [buildUtf8Buff, if_pos hzero] at hbuild
  · rw [hcached.valid (hkept.resolve_left (Nat.ne_of_gt hmemory))]
    exact ⟨s, rfl, hcached, rfl⟩
  · exact hbuild

theorem toStdString_spec (hs : s.Valid) : s.toStdString = .ok (encode s.codes) := by
  rw [toStdString, hs.readCodes]
  rfl

end Build

end Store

end UdtKernel.CText
