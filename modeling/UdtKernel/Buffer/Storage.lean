import UdtKernel.Lib.Slice
import UdtKernel.Types

set_option autoImplicit false

/-! A buffer of bytes with room before and behind them: `CBuffer`. -/

namespace UdtKernel.Buffer
open UdtKernel.Lib

inductive Fault where
  | outside
  | check
  | noMemory
  deriving DecidableEq

/-- `buf_info`, and the bytes from `FBeginOfStorage` on. -/
structure Storage where
  startOffset : ℕ
  size : ℕ
  bufSize : ℕ
  memory : ℕ → Byte

def defBufReserve : ℕ := 256

/-- The difference of two values of `size_t`. -/
def subSize (a b : ℕ) : ℕ := (a + (2 ^ 64 - b % 2 ^ 64)) % 2 ^ 64

/-- A `smart_field_t` that has a value, as bytes: the value, and that it is set. -/
def smartField (x : Byte) : List Byte := [x, 1]

/-- A pointer into the storage, as many bytes before another. -/
def before (p n : ℕ) : Except Fault ℕ := if p < n then .error .outside else .ok (p - n)

namespace Storage

variable (s : Storage)

/-- `FBeginOffset` has 16 bits. -/
def mSetStartOffset (aVal : ℕ) : Storage := { s with startOffset := aVal % 2 ^ 16 }

def mSetSize (aVal : ℕ) : Except Fault Storage :=
  if 2 ^ 32 ≤ aVal then .error .check else .ok { s with size := aVal }

/-- `memcpy` and `memmove`, which stay in the storage or not. -/
def copy (d from' n : ℕ) : Except Fault Storage :=
  if n ≠ 0 ∧ (s.bufSize < d + n ∨ s.bufSize < from' + n) then .error .outside
  else .ok { s with memory := moveTo s.memory d from' n }

def mFill (p : ℕ) (l : List Byte) : Except Fault Storage :=
  if l ≠ [] ∧ s.bufSize < p + l.length then .error .outside
  else .ok { s with memory := writeAt s.memory p l }

def bytes : List Byte := slice s.memory s.startOffset s.size

end Storage

/-- `CBuffer` with `BEGIN_SIZE`, and `MMaxSize` of its allocator. -/
structure CBuffer where
  beginSize : ℕ
  maxSize : ℕ
  storage : Option Storage

namespace CBuffer

variable (b : CBuffer)

def size : ℕ := (b.storage.map Storage.size).getD 0

def capacity : ℕ := (b.storage.map Storage.bufSize).getD 0

def begin' : ℕ := (b.storage.map Storage.startOffset).getD 0

def bytes : List Byte := (b.storage.map Storage.bytes).getD []

/-- The room that `requred_buf_len` adds, with `BUF_FACTOR` 1.5. -/
def padded (aSize : ℕ) : ℕ :=
  if aSize ≤ 192 then defBufReserve
  else if aSize ≤ 0x800 then aSize * 3 / 2
  else if aSize ≤ 0x1000 then aSize + 512
  else if aSize ≤ 0x3000 then aSize + 1024
  else if aSize ≤ 0xFFFF then aSize + 512
  else aSize + defBufReserve

def requred_buf_len (aSize : ℕ) : ℕ :=
  if b.maxSize < aSize then 0
  else
    let _len := padded aSize + b.beginSize
    if _len < b.size ∨ b.maxSize < _len then b.maxSize else _len

/-- `MAllocate`, with what the new memory holds. -/
def mAllocate (aSize : ℕ) (memory : ℕ → Byte) : Except Fault Storage :=
  let _len := b.requred_buf_len aSize
  if _len = 0 then .error .noMemory
  else if 2 ^ 32 ≤ _len then .error .check
  else .ok (Storage.mSetStartOffset ⟨0, 0, _len, memory⟩ b.beginSize)

def mReAllocate (s : Storage) (aSize : ℕ) (memory : ℕ → Byte) : Except Fault Storage :=
  let _len := b.requred_buf_len aSize
  if _len = 0 then .error .noMemory
  else if 2 ^ 32 ≤ _len then .error .check
  else .ok { s with
    bufSize := _len
    memory := fun i => if i < min s.bufSize _len then s.memory i else memory i }

/-- The part of `MInsertImpl` for a storage with enough room behind the bytes. -/
def insertToEnd (s : Storage) (_position aSize : ℕ) : Except Fault (ℕ × Storage) := do
  let _begin := s.startOffset
  let _end := _begin + s.size
  let _elems_befor := subSize _position _begin
  let _elems_after := subSize _end _position
  let _free_end_mem := subSize (subSize s.bufSize s.size) s.startOffset
  if _elems_after = 0 then
    let s ← s.mSetSize (s.size + aSize)
    return (_position, s)
  else if _elems_befor = 0 ∧ s.startOffset < b.beginSize then
    let _reserv := _free_end_mem - aSize
    let _move_on := min _reserv (b.beginSize - s.startOffset)
    let p ← before _end aSize
    let s₁ ← s.copy (_end + _move_on) p aSize
    let s₂ ← s₁.copy (_position + aSize + _move_on) _position (subSize _elems_after aSize)
    let s₃ ← (s₂.mSetStartOffset (s.startOffset + _move_on)).mSetSize (s.size + aSize)
    return (_position + _move_on, s₃)
  else if aSize < _elems_after then
    let p ← before _end aSize
    let s₁ ← s.copy _end p aSize
    let s₂ ← s₁.copy (_position + aSize) _position (_elems_after - aSize)
    let s₃ ← s₂.mSetSize (s.size + aSize)
    return (_position, s₃)
  else
    let s₁ ← s.copy (_position + aSize) _position _elems_after
    let s₂ ← s₁.mSetSize (s.size + aSize)
    return (_position, s₂)

/-- `MInsertImpl` of a storage that is not shared; the result is where the new bytes are. -/
def insertInto (s : Storage) (aPosition aSize : ℕ) (memory : ℕ → Byte) :
    Except Fault (ℕ × Storage) := do
  let _free_begin_mem := s.startOffset
  let _cur_size := s.size
  let _begin := _free_begin_mem
  let _end := _begin + _cur_size
  let _elems_befor := subSize aPosition _begin
  let _elems_after := subSize _end aPosition
  let _free_end_mem := subSize (subSize s.bufSize _cur_size) _free_begin_mem
  if _elems_befor = 0 ∧ aSize ≤ _free_begin_mem then
    let s ← (s.mSetStartOffset (_free_begin_mem - aSize)).mSetSize (_cur_size + aSize)
    return (aPosition - aSize, s)
  else if aSize ≤ _free_end_mem then b.insertToEnd s aPosition aSize
  else if aSize ≤ (_free_end_mem + _free_begin_mem) % 2 ^ 64 then
    let s₁ ← s.copy 0 _begin _elems_befor
    let s₂ ← s₁.copy (aPosition + aSize - _free_begin_mem) aPosition _elems_after
    let s₃ ← (s₂.mSetStartOffset 0).mSetSize (_cur_size + aSize)
    return (aPosition - _free_begin_mem, s₃)
  else
    let s₁ ← b.mReAllocate s (_cur_size + aSize) memory
    let s₂ ← s₁.mSetSize (s₁.size + aSize)
    let _p_coping := s₂.startOffset + _elems_befor
    let s₃ ← s₂.copy (_p_coping + aSize) _p_coping _elems_after
    return (_p_coping, s₃)

/-- `MInsertImpl`, for at least one byte. -/
def mInsertImpl (aPosition aSize : ℕ) (memory : ℕ → Byte) : Except Fault (ℕ × Storage) :=
  match b.storage with
  | some s => b.insertInto s aPosition aSize memory
  | none => do
    let s ← b.mAllocate aSize memory
    let s ← s.mSetSize aSize
    return (s.startOffset, s)

/-- `insert`, with the index of a position. -/
def insert (__position : ℕ) (l : List Byte) (memory : ℕ → Byte) : Except Fault CBuffer :=
  if l = [] then .ok b
  else do
    let (p, s) ← b.mInsertImpl (b.begin' + __position) l.length memory
    let s ← s.mFill p l
    return { b with storage := some s }

def resize (aNewSize : ℕ) (fromBegin : Bool) (memory : ℕ → Byte) : Except Fault CBuffer :=
  match b.storage with
  | none =>
    if aNewSize = 0 then .ok b
    else do
      let s ← b.mAllocate aNewSize memory
      let s ← s.mSetSize aNewSize
      return { b with storage := some s }
  | some s =>
    if aNewSize < s.size then
      if aNewSize = 0 then .ok { b with storage := none }
      else if fromBegin then
        .ok { b with storage := some (s.mSetStartOffset (s.startOffset + s.size - aNewSize)) }
      else do
        let s ← s.mSetSize aNewSize
        return { b with storage := some s }
    else if aNewSize = s.size then .ok b
    else do
      let (_, s) ← b.mInsertImpl (if fromBegin then s.startOffset else s.startOffset + s.size)
        (aNewSize - s.size) memory
      return { b with storage := some s }

def clear : Except Fault CBuffer :=
  match b.storage with
  | none => .ok b
  | some s => .ok { b with storage := some { s with size := 0 } }

def pop_back : Except Fault CBuffer :=
  match b.storage with
  | none => .ok b
  | some s =>
    .ok (if s.size = 0 then b else { b with storage := some { s with size := s.size - 1 } })

def pop_front : Except Fault CBuffer :=
  match b.storage with
  | none => .ok b
  | some s =>
    .ok (if s.size = 0 then b
      else { b with storage := some (s.mSetStartOffset (s.startOffset + 1)) })

/-- The bytes are inserted of a `smart_field_t`, not of the value. -/
def push_back (x : Byte) (memory : ℕ → Byte) : Except Fault CBuffer :=
  b.insert b.size (smartField x) memory

def push_front (x : Byte) (memory : ℕ → Byte) : Except Fault CBuffer :=
  b.insert 0 (smartField x) memory

def reserve (aSize : ℕ) (memory : ℕ → Byte) : Except Fault CBuffer :=
  if aSize ≤ b.capacity then .ok b
  else
    match b.storage with
    | some s => do
      let s ← b.mReAllocate s aSize memory
      return { b with storage := some s }
    | none => do
      let s ← b.mAllocate aSize memory
      return { b with storage := some s }

/-- `erase`, with the indexes of two positions. -/
def erase (aBegin aEnd : ℕ) : Except Fault CBuffer :=
  match b.storage with
  | none => .ok b
  | some s =>
    if s.size ≠ 0 ∧ aBegin < aEnd then
      let _remove := aEnd - aBegin
      if aEnd = s.size then do
        let s ← s.mSetSize (subSize s.size _remove)
        return { b with storage := some s }
      else if aBegin = 0 then
        .ok { b with storage := some (s.mSetStartOffset (s.startOffset + _remove)) }
      else do
        let s₁ ← s.copy (s.startOffset + aBegin) (s.startOffset + aEnd) (s.size - aEnd)
        let s₂ ← s₁.mSetSize (subSize s.size _remove)
        return { b with storage := some s₂ }
    else .ok b

/-- `MCreateCopy`: the storage of the copy has room for the bytes only. -/
def mCreateCopy (memory : ℕ → Byte) : Except Fault CBuffer :=
  match b.storage with
  | none => .ok ⟨defBufReserve, b.maxSize, none⟩
  | some s =>
    if 2 ^ 32 ≤ s.size then .error .check
    else .ok ⟨defBufReserve, b.maxSize, some ⟨0, s.size, s.size, writeAt memory 0 s.bytes⟩⟩

/-- `MMoveTo`, to an empty buffer with another `BEGIN_SIZE`. -/
def mMoveTo (beginSize : ℕ) : CBuffer := { b with beginSize }

end CBuffer

end UdtKernel.Buffer
