import UdtKernel.Buffer.Runs
import UdtKernel.Lib.SharedCells

set_option autoImplicit false

/-! Buffers that share their storages: the use counts of `buf_info`, and `MDetach`. -/

namespace UdtKernel.Buffer
open UdtKernel.Lib

/-- A pointer into a storage, that of a null pointer apart. -/
structure Pointer where
  block : Option ℕ
  offset : ℕ
  deriving DecidableEq

/-- A `CBuffer` object, with `FBeginOfStorage`. -/
structure Object where
  beginSize : ℕ
  maxSize : ℕ
  beginOfStorage : Option ℕ

/-- The storages with their use counts, and the objects that are alive. -/
structure World where
  blocks : List (Option (SharedCell Storage))
  objects : List (Option Object)

namespace Storage

variable (s : Storage)

/-- Bytes that `memcpy` takes to another storage. -/
def read (p n : ℕ) : Except Fault (List Byte) :=
  if n ≠ 0 ∧ s.bufSize < p + n then .error .outside else .ok (slice s.memory p n)

def deep_copy (memory : ℕ → Byte) : Except Fault Storage :=
  if 2 ^ 32 ≤ s.size then .error .check
  else .ok ⟨0, s.size, s.size, writeAt memory 0 s.bytes⟩

/-- One of the branches of `MInsertImpl` that do not allocate is taken. -/
def FindsRoom (_position aSize : ℕ) : Prop :=
  let _elems_befor := subSize _position s.startOffset
  let _free_end_mem := subSize (subSize s.bufSize s.size) s.startOffset
  _elems_befor = 0 ∧ aSize ≤ s.startOffset ∨ aSize ≤ _free_end_mem ∨
    aSize ≤ (_free_end_mem + s.startOffset) % 2 ^ 64

instance (_position aSize : ℕ) : Decidable (s.FindsRoom _position aSize) :=
  inferInstanceAs (Decidable (_ ∨ _ ∨ _))

end Storage

namespace World

variable (w : World) (o r : ℕ)

def find : Option Object := w.objects[o]?.join

def object : Except Fault Object := (w.find o).elim (.error .outside) .ok

def block (i : ℕ) : Except Fault (SharedCell Storage) :=
  (cellAt w.blocks i).elim (.error .outside) .ok

def buffer (x : Object) : CBuffer :=
  ⟨x.beginSize, x.maxSize,
    x.beginOfStorage.bind fun i => (cellAt w.blocks i).map SharedCell.value⟩

def view : Option CBuffer := (w.find o).map w.buffer

/-- `FBeginOfStorage` of every object. -/
def held : List (Option ℕ) := w.objects.map fun x => x.bind Object.beginOfStorage

def use_count (x : Object) : ℕ :=
  ((x.beginOfStorage.bind fun i => cellAt w.blocks i).map SharedCell.count).getD 0

def setObject (x : Option Object) : World := { w with objects := w.objects.set o x }

def setBlock (i : ℕ) (c : Option (SharedCell Storage)) : World :=
  { w with blocks := w.blocks.set i c }

/-- A change of `buf_info` and of the bytes, whoever holds them. -/
def update (i : ℕ) (s : Storage) : Except Fault World := do
  let c ← w.block i
  return w.setBlock i (some { c with value := s })

def setNew (s : Storage) : Except Fault World := do
  let x ← w.object o
  return { blocks := w.blocks ++ [some ⟨s, 1⟩]
           objects := w.objects.set o (some { x with beginOfStorage := some w.blocks.length }) }

/-- `FCount` has 32 bits. -/
def add_ref_copy (i : ℕ) : Except Fault World := do
  let c ← w.block i
  return w.setBlock i (some { c with count := (c.count + 1) % 2 ^ 32 })

/-- `release`, which deallocates the storage that no other object holds. -/
def release : Except Fault World := do
  let x ← w.object o
  match x.beginOfStorage with
  | none => return w
  | some i =>
    let c ← w.block i
    if c.count = 0 then throw .check
    else
      let w := w.setBlock i (if c.count = 1 then none else some { c with count := c.count - 1 })
      return w.setObject o (some { x with beginOfStorage := none })

def mDetach (memory : ℕ → Byte) : Except Fault World := do
  let x ← w.object o
  match x.beginOfStorage with
  | none => return w
  | some i =>
    let c ← w.block i
    if c.count = 1 then return w
    else
      let s ← c.value.deep_copy memory
      let w ← w.release o
      w.setNew o s

/-- An operation on a storage that no other object holds, or that is to be allocated. -/
def onBuffer (f : CBuffer → Except Fault CBuffer) : Except Fault World := do
  let x ← w.object o
  let b ← f (w.buffer x)
  match x.beginOfStorage, b.storage with
  | some i, some s => w.update i s
  | some _, none => w.release o
  | none, some s => w.setNew o s
  | none, none => return w

def detached (f : CBuffer → Except Fault CBuffer) (memory : ℕ → Byte) : Except Fault World := do
  let w ← w.mDetach o memory
  w.onBuffer o f

def create (beginSize maxSize : ℕ) : World :=
  { w with objects := w.objects ++ [some ⟨beginSize, maxSize, none⟩] }

def copy : Except Fault World := do
  let x ← w.object r
  let w ← match x.beginOfStorage with
    | some i => w.add_ref_copy i
    | none => pure w
  return { w with objects := w.objects ++ [some x] }

def assign : Except Fault World := do
  let x ← w.object o
  let y ← w.object r
  if y.beginOfStorage = x.beginOfStorage then return w
  else
    let w ← w.release o
    let w ← match y.beginOfStorage with
      | some i => w.add_ref_copy i
      | none => pure w
    return w.setObject o
      (some { x with maxSize := y.maxSize, beginOfStorage := y.beginOfStorage })

def deep_copy (memory : ℕ → Byte) : Except Fault World := do
  let x ← w.object o
  let y ← w.object r
  if y.beginOfStorage = x.beginOfStorage then return w
  else
    let w ← w.release o
    match y.beginOfStorage with
    | none => throw .check
    | some i =>
      let c ← w.block i
      let s ← c.value.deep_copy memory
      w.setNew o s

def mCreateCopy (memory : ℕ → Byte) : Except Fault World := do
  let y ← w.object r
  (w.create defBufReserve y.maxSize).deep_copy w.objects.length r memory

/-- `MMoveTo`, to the second object. -/
def mMoveTo : Except Fault World := do
  let x ← w.object o
  let y ← w.object r
  if y.beginOfStorage = x.beginOfStorage then return w
  else
    let w ← w.release r
    let w := w.setObject r
      (some { y with maxSize := x.maxSize, beginOfStorage := x.beginOfStorage })
    return w.setObject o (some { x with beginOfStorage := none })

def swap : Except Fault World := do
  let x ← w.object o
  let y ← w.object r
  if y.beginOfStorage = x.beginOfStorage then return w
  else
    let w := w.setObject o
      (some { x with maxSize := y.maxSize, beginOfStorage := y.beginOfStorage })
    return w.setObject r
      (some { y with maxSize := x.maxSize, beginOfStorage := x.beginOfStorage })

def destroy : Except Fault World := do
  let w ← w.release o
  return w.setObject o none

/-- `begin()`, of an object that is not const. -/
def begin' (memory : ℕ → Byte) : Except Fault (Pointer × World) := do
  let w ← w.mDetach o memory
  let x ← w.object o
  return (⟨x.beginOfStorage, (w.buffer x).begin'⟩, w)

def end' : Except Fault Pointer := do
  let x ← w.object o
  return ⟨x.beginOfStorage, (w.buffer x).begin' + (w.buffer x).size⟩

def mFill (p : Pointer) (l : List Byte) : Except Fault World :=
  match p.block with
  | none => .error .outside
  | some i => do
    let c ← w.block i
    let s ← c.value.mFill p.offset l
    w.update i s

def mInsertImpl (aPosition : Pointer) (aSize : ℕ) (memory : ℕ → Byte) :
    Except Fault (Pointer × World) := do
  let x ← w.object o
  let b := w.buffer x
  match x.beginOfStorage with
  | none =>
    let s ← b.mAllocate aSize memory
    let s ← s.mSetSize aSize
    let w' ← w.setNew o s
    return (⟨some w.blocks.length, s.startOffset⟩, w')
  | some i =>
    let c ← w.block i
    let s := c.value
    if aPosition.block ≠ some i then throw .outside
    else if s.FindsRoom aPosition.offset aSize then
      -- the storage that is left by `MDetach` is the one that goes on to be written
      let w ← w.mDetach o memory
      let (p, s) ← b.insertInto s aPosition.offset aSize memory
      let w ← w.update i s
      return (⟨some i, p⟩, w)
    else if 1 < c.count then
      let _begin := s.startOffset
      let _elems_befor := subSize aPosition.offset _begin
      let _elems_after := subSize (_begin + s.size) aPosition.offset
      let s' ← b.mAllocate (s.size + aSize) memory
      let s' ← s'.mSetSize (s.size + aSize)
      let l ← s.read _begin _elems_befor
      let s' ← s'.mFill s'.startOffset l
      let _p_coping := s'.startOffset + _elems_befor
      let l ← s.read aPosition.offset _elems_after
      let s' ← s'.mFill (_p_coping + aSize) l
      let w' ← w.release o
      let w' ← w'.setNew o s'
      return (⟨some w.blocks.length, _p_coping⟩, w')
    else
      let (p, s) ← b.insertInto s aPosition.offset aSize memory
      let w ← w.update i s
      return (⟨some i, p⟩, w)

def insert (__position : Pointer) (l : List Byte) (memory : ℕ → Byte) : Except Fault World :=
  if l = [] then .ok w
  else do
    let (p, w) ← w.mInsertImpl o __position l.length memory
    w.mFill p l

def resize (aNewSize : ℕ) (fromBegin : Bool) (memory : ℕ → Byte) : Except Fault World := do
  let x ← w.object o
  let b := w.buffer x
  match x.beginOfStorage with
  | none => w.onBuffer o fun b => b.resize aNewSize fromBegin memory
  | some _ =>
    if aNewSize < b.size then
      if aNewSize = 0 then w.release o
      else w.detached o (fun b => b.resize aNewSize fromBegin memory) memory
    else if aNewSize = b.size then return w
    else
      let (p, w) ← if fromBegin then w.begin' o memory else (w.end' o).map fun p => (p, w)
      let (_, w) ← w.mInsertImpl o p (aNewSize - b.size) memory
      return w

def clear (memory : ℕ → Byte) : Except Fault World := w.detached o CBuffer.clear memory

/-- `pop_back` and `pop_front`, which leave an empty buffer as it is. -/
def pop (f : CBuffer → Except Fault CBuffer) (memory : ℕ → Byte) : Except Fault World := do
  let x ← w.object o
  if (w.buffer x).size = 0 then return w
  else w.detached o f memory

def pop_back (memory : ℕ → Byte) : Except Fault World := w.pop o CBuffer.pop_back memory

def pop_front (memory : ℕ → Byte) : Except Fault World := w.pop o CBuffer.pop_front memory

def push_back (x : Byte) (memory : ℕ → Byte) : Except Fault World := do
  let p ← w.end' o
  w.insert o p (smartField x) memory

def push_front (x : Byte) (memory : ℕ → Byte) : Except Fault World := do
  let (p, w) ← w.begin' o memory
  w.insert o p (smartField x) memory

def reserve (aSize : ℕ) (memory : ℕ → Byte) : Except Fault World := do
  let x ← w.object o
  let b := w.buffer x
  if aSize ≤ b.capacity then return w
  else if 1 < w.use_count x then
    match b.storage with
    | none => throw .outside
    | some s =>
      let s' ← b.mAllocate aSize memory
      let s' ← s'.mSetSize s.size
      let l ← s.read s.startOffset s.size
      let s' ← s'.mFill s'.startOffset l
      let w ← w.release o
      w.setNew o s'
  else w.onBuffer o fun b => b.reserve aSize memory

/-- `erase`: only the comparison with `begin()` detaches. -/
def erase (aBegin aEnd : Pointer) (memory : ℕ → Byte) : Except Fault World := do
  let x ← w.object o
  match x.beginOfStorage with
  | none => return w
  | some i =>
    let c ← w.block i
    let s := c.value
    if s.size = 0 then return w
    else if aBegin.block ≠ aEnd.block then throw .outside
    else if aEnd.offset ≤ aBegin.offset then return w
    else
      let _remove := aEnd.offset - aBegin.offset
      let p ← w.end' o
      if aEnd = p then
        let s ← s.mSetSize (subSize s.size _remove)
        w.update i s
      else
        let (p, w) ← w.begin' o memory
        if aBegin = p then w.update i (s.mSetStartOffset (s.startOffset + _remove))
        else if aEnd.block ≠ p.block then throw .outside
        else
          let s ← s.copy aBegin.offset aEnd.offset (subSize (s.startOffset + s.size) aEnd.offset)
          let s ← s.mSetSize (subSize s.size _remove)
          w.update i s

end World

inductive ObjectOp where
  | create (beginSize maxSize : ℕ)
  | copy (r : ℕ)
  | createCopy (r : ℕ)
  | assign (o r : ℕ)
  | deepCopy (o r : ℕ)
  | moveTo (o r : ℕ)
  | swap (o r : ℕ)
  | release (o : ℕ)
  | destroy (o : ℕ)
  | begin' (o : ℕ)
  | write (o : ℕ) (p : Pointer) (x : Byte)
  | insert (o : ℕ) (__position : Pointer) (l : List Byte)
  | erase (o : ℕ) (aBegin aEnd : Pointer)
  | resize (o aNewSize : ℕ) (fromBegin : Bool)
  | pushBack (o : ℕ) (x : Byte)
  | pushFront (o : ℕ) (x : Byte)
  | popBack (o : ℕ)
  | popFront (o : ℕ)
  | reserve (o aSize : ℕ)
  | clear (o : ℕ)

def objectStep : ObjectOp × (ℕ → Byte) → World → Except Fault World
  | (.create beginSize maxSize, _), w => .ok (w.create beginSize maxSize)
  | (.copy r, _), w => w.copy r
  | (.createCopy r, memory), w => w.mCreateCopy r memory
  | (.assign o r, _), w => w.assign o r
  | (.deepCopy o r, memory), w => w.deep_copy o r memory
  | (.moveTo o r, _), w => w.mMoveTo o r
  | (.swap o r, _), w => w.swap o r
  | (.release o, _), w => w.release o
  | (.destroy o, _), w => w.destroy o
  | (.begin' o, memory), w => (w.begin' o memory).map Prod.snd
  | (.write _ p x, _), w => w.mFill p [x]
  | (.insert o p l, memory), w => w.insert o p l memory
  | (.erase o p q, memory), w => w.erase o p q memory
  | (.resize o n fromBegin, memory), w => w.resize o n fromBegin memory
  | (.pushBack o x, memory), w => w.push_back o x memory
  | (.pushFront o x, memory), w => w.push_front o x memory
  | (.popBack o, memory), w => w.pop_back o memory
  | (.popFront o, memory), w => w.pop_front o memory
  | (.reserve o n, memory), w => w.reserve o n memory
  | (.clear o, memory), w => w.clear o memory

end UdtKernel.Buffer
