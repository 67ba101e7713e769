import Mathlib.Logic.Function.Basic
import Mathlib.Data.Nat.Notation
import Mathlib.Data.List.Basic
import Mathlib.Algebra.GroupWithZero.Nat
import Mathlib.Order.CompletePartialOrder

set_option autoImplicit false

/-! The slots in which a process keeps the offsets of its blocks: `process_node_t`. -/

namespace UdtKernel.SharedAllocator

inductive Fault where
  | outside
  | nullPointer
  | hang
  | check
  deriving DecidableEq

/-- `offset_t` of a machine of 64 bits. -/
abbrev Offset := BitVec 64

abbrev Index := BitVec 16

def nullIndex : Index := 0xFFFF

def nullOffset : Offset := 1 <<< 63

def isNullOffset (aWhat : Offset) : Bool := aWhat &&& nullOffset != 0

def getIndexOfOffset (nextNode : Offset) : Index := (nextNode &&& 0xFFFF).setWidth 16

def setIndexOfOffset (nextNode : Offset) (aVal : Index) : Offset :=
  nextNode &&& ~~~0xFFFF ||| aVal.setWidth 64

theorem getIndexOfOffset_set (w : Offset) (v : Index) :
    getIndexOfOffset (setIndexOfOffset w v) = v := by
  unfold getIndexOfOffset setIndexOfOffset
  ext i hi
  simp only [BitVec.getElem_setWidth, BitVec.getLsbD_and, BitVec.getLsbD_or, BitVec.getLsbD_not,
    BitVec.getLsbD_setWidth]
  have hmask : BitVec.getLsbD (0xFFFF : BitVec 64) i = true := by
    revert i
    decide
  rw [hmask]
  have hi' : i < 64 := by omega
  simp [hi', BitVec.getLsbD_eq_getElem hi]

theorem isNullOffset_set (v : Index) : isNullOffset (setIndexOfOffset nullOffset v) = true := by
  unfold isNullOffset setIndexOfOffset
  rw [bne_iff_ne]
  intro h
  have hbit := congrArg (fun w : BitVec 64 => w.getLsbD 63) h
  simp [nullOffset] at hbit

structure ProcessNode where
  pid : ℕ
  minFreeIndex : ℕ
  count : ℕ
  arraySize : ℕ
  sizeOfReserv : ℕ
  usedUpReserv : ℕ
  alloactionCount : ℕ
  offsets : ℕ → Offset

def sizeOfProcessNode : ℕ := 40

def sizeOfOffset : ℕ := 8

def defProcessSize : ℕ :=
  (sizeOfProcessNode + 30 * sizeOfOffset) / sizeOfProcessNode * sizeOfProcessNode

def reservIsNotAllocated : ℕ := 2 ^ 32 - 1

/-- A slot that was never used: the next free one is the slot behind it. -/
def unusedSlot : Offset := setIndexOfOffset nullOffset nullIndex

def arraySizeFor (aMemorySize : ℕ) : ℕ :=
  (aMemorySize - sizeOfProcessNode) % 2 ^ 32 / sizeOfOffset

namespace ProcessNode

def new (aPid aMemorySize aReserv : ℕ) : ProcessNode where
  pid := aPid
  minFreeIndex := 0
  count := 0
  arraySize := arraySizeFor aMemorySize
  sizeOfReserv := aReserv % 2 ^ 32
  usedUpReserv := reservIsNotAllocated
  alloactionCount := 0
  offsets := fun _ => unusedSlot

/-- The constructor that copies a node to more memory. -/
def copy (aRht : ProcessNode) (aMemorySize : ℕ) : ProcessNode :=
  { aRht with
    arraySize := arraySizeFor aMemorySize
    offsets := fun i => if i < aRht.arraySize then aRht.offsets i else unusedSlot }

def mIsOffset (n : ProcessNode) (aOffsetInArray : ℕ) (aOffset : Offset) : Bool :=
  if n.arraySize ≤ aOffsetInArray then false else n.offsets aOffsetInArray == aOffset

/-- The loop of `MPutOffset` that looks for a free slot. -/
def firstFree (n : ProcessNode) (i : ℕ) : ℕ :=
  ((List.range' i (n.arraySize - i)).find? fun j => isNullOffset (n.offsets j)).getD
    (max i n.arraySize)

def mPutOffset (n : ProcessNode) (aOffset : Offset) : Except Fault (ℕ × ProcessNode) :=
  let i := n.firstFree n.minFreeIndex
  if n.arraySize ≤ i then .error .outside
  else
    let index := getIndexOfOffset (n.offsets n.minFreeIndex)
    .ok (i, { n with
      minFreeIndex :=
        if index = nullIndex then (n.minFreeIndex + 1) % 2 ^ 32 else index.toNat
      offsets := Function.update n.offsets i aOffset
      alloactionCount := (n.alloactionCount + 1) % 2 ^ 32 })

def mPopOffsetById (n : ProcessNode) (aOffset : ℕ) : Except Fault ProcessNode :=
  if n.arraySize ≤ aOffset then .error .outside
  else .ok { n with
    minFreeIndex := aOffset % 2 ^ 32
    offsets := Function.update n.offsets aOffset
      (setIndexOfOffset nullOffset (BitVec.ofNat 16 n.minFreeIndex))
    alloactionCount := (n.alloactionCount + (2 ^ 32 - 1)) % 2 ^ 32 }

/-- The test of `MGetOrRealocateProcessNode`. -/
def isFull (n : ProcessNode) (aCount : ℕ) : Bool :=
  decide (0 < aCount) && decide (n.arraySize < (n.alloactionCount + aCount) % 2 ^ 32)

/-- `_requred_memory` of `MGetOrRealocateProcessNode`, with `PROCESS_ARRAY_FACTOR` 1.5. -/
def requredMemory (n : ProcessNode) (aCount : ℕ) : ℕ :=
  sizeOfProcessNode + (n.alloactionCount + aCount) % 2 ^ 32 * sizeOfOffset * 3 / 2

/-- `MGetOrRealocateProcessNode`, if `MMallocBlock` gets the memory or not. -/
def mGetOrRealocateProcessNode (aProccess : ProcessNode) (aCount : ℕ) (isMemory : Bool) :
    Except Fault ProcessNode :=
  if aProccess.isFull aCount then
    if isMemory then .ok (aProccess.copy (aProccess.requredMemory aCount))
    else .error .nullPointer
  else .ok aProccess

end ProcessNode

end UdtKernel.SharedAllocator
