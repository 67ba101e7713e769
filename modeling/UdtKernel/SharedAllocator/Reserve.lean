import UdtKernel.SharedAllocator.FreeList

set_option autoImplicit false

/-! The reserve of a process: blocks of its own that it takes when the heap has none; and
`MMallocImpl`, with the node of its process that a block is kept in. -/

namespace UdtKernel.SharedAllocator

/-- The bit of `E_RESERVE_FLAGS` -/
def reserveBit : ℕ := 61

/-- The bit of `E_RESERVED_FLAGS` -/
def reservedBit : ℕ := 62

def getFlag (nextNode : Offset) (bit : ℕ) : Bool := nextNode &&& (1#64 <<< bit) != 0

def setFlag (nextNode : Offset) (bit : ℕ) (aVal : Bool) : Offset :=
  if aVal then nextNode ||| (1#64 <<< bit) else nextNode &&& ~~~(1#64 <<< bit)

namespace BlockNode

variable (b : BlockNode)

def isReserved : Bool := getFlag b.nextNode reservedBit

def isReserveFree : Bool := getFlag b.nextNode reserveBit

def index : Index := getIndexOfOffset b.nextNode

def setFlags (reserved reserveFree : Bool) : BlockNode :=
  { b with nextNode := setFlag (setFlag b.nextNode reservedBit reserved) reserveBit reserveFree }

def setIndex (i : Index) : BlockNode := { b with nextNode := setIndexOfOffset b.nextNode i }

end BlockNode

/-- The blocks of the heap and the node of a process. -/
structure Reserve where
  heap : Heap
  process : ProcessNode

namespace Reserve

variable (r : Reserve)

/-- `MGetBlockNode` of the offset in a slot. -/
def blockOf (i : ℕ) : ℕ := (r.process.offsets i).toNat - sizeOfBlockNode

/-- A slot of the process that keeps a block which tells so. -/
def keeps (i : ℕ) : Bool :=
  !isNullOffset (r.process.offsets i) && (r.heap.node (r.blockOf i)).index.toNat == i

/-- A slot that keeps a free block of the reserve. -/
def keepsFree (i : ℕ) : Bool :=
  r.keeps i && (r.heap.node (r.blockOf i)).isReserved && (r.heap.node (r.blockOf i)).isReserveFree

def setNode (p : ℕ) (b : BlockNode) : Reserve := { r with heap := r.heap.setNode p b }

def addUsedUp (aVal : ℕ) : Reserve :=
  { r with process :=
    { r.process with usedUpReserv := (r.process.usedUpReserv + aVal % 2 ^ 32) % 2 ^ 32 } }

def subUsedUp (aVal : ℕ) : Reserve :=
  { r with process := { r.process with
    usedUpReserv := (r.process.usedUpReserv + (2 ^ 32 - aVal % 2 ^ 32)) % 2 ^ 32 } }

def mKeepBlock (node : ℕ) : Except Fault Reserve := do
  let (index, process) ← r.process.mPutOffset (offsetOf (node + sizeOfBlockNode))
  return ⟨r.heap.setNode node ((r.heap.node node).setIndex (BitVec.ofNat 16 index)), process⟩

def mUnkeepBlock (node : ℕ) : Except Fault Reserve := do
  let process ← r.process.mPopOffsetById (r.heap.node node).index.toNat
  return { r with process }

/-- `MCreateReservForProcess` and the end of `MCreateProcessNode`, with the block of
`MMallocBlock`. -/
def mCreateReservForProcess (node : ℕ) : Except Fault Reserve := do
  let r ← r.mKeepBlock node
  let r := r.setNode node ((r.heap.node node).setFlags true true)
  return { r with process := { r.process with usedUpReserv := 0 } }

/-- The end of `MMallocBlockFromReserv`, with a free block of the reserve. -/
def takeBlock (_free_node _alligment_size : ℕ) : Except Fault Reserve := do
  let r := { r with heap := r.heap.mAllocate _free_node false }
  let r := r.addUsedUp (r.heap.size _free_node)
  let r ← match r.heap.mSplitInto2Block _free_node _alligment_size false with
    | (some _new_block, _, heap) =>
      let r := { r with heap }.subUsedUp (heap.size _new_block)
      let r := r.setNode _new_block
        { (r.heap.node _new_block).setFlags true true with isAllocated := true }
      r.mKeepBlock _new_block
    | (none, _, heap) => pure { r with heap }
  return r.setNode _free_node
    { (r.heap.node _free_node).setFlags true false with isAllocated := true }

def mMallocBlockFromReserv (xWantedSize : ℕ) : Except Fault (Option ℕ × Reserve) :=
  if xWantedSize = 0 then .ok (none, r)
  else
    let _alligment_size := Heap.roundUp xWantedSize
    if r.process.sizeOfReserv < _alligment_size then .ok (none, r)
    else
      match (List.range r.process.arraySize).find? fun i =>
          r.keepsFree i && decide (_alligment_size ≤ r.heap.size (r.blockOf i)) with
      | none => .ok (none, r)
      | some i => do
        let node := r.blockOf i
        let r ← r.takeBlock node _alligment_size
        return (some (node + sizeOfBlockNode), r)

/-- The part of `MMallocImpl` for the reserve. -/
def mMallocImpl (xWantedSize : ℕ) : Except Fault (Option ℕ × Reserve) :=
  if r.process.usedUpReserv ≠ reservIsNotAllocated ∧ 0 < r.process.sizeOfReserv then
    if xWantedSize ≤
        (r.process.sizeOfReserv + (2 ^ 32 - r.process.usedUpReserv % 2 ^ 32)) % 2 ^ 32 then
      r.mMallocBlockFromReserv xWantedSize
    else .ok (none, r)
  else .ok (none, r)

/-- The loop of `MFreeReservedBlock`: the last free block below, and the first one above, at which
it stops. -/
def neighbours (node : ℕ) : List ℕ → Option ℕ → Option ℕ × Option ℕ
  | [], prev => (prev, none)
  | i :: l, prev =>
    if r.keepsFree i then
      if r.blockOf i < node then neighbours node l (some (r.blockOf i))
      else if node < r.blockOf i then (prev, some (r.blockOf i))
      else neighbours node l prev
    else neighbours node l prev

def join (a b : ℕ) : Except Fault Reserve := do
  let r ← r.mUnkeepBlock b
  let r := { r with heap := r.heap.mSetBlockSize a (r.heap.size a + r.heap.size b +
    sizeOfBlockNode) }
  return r.subUsedUp sizeOfBlockNode

/-- The block before, if `MFreeReservedBlock` found it. -/
def joinPrev (node : ℕ) : Option ℕ → Except Fault (ℕ × Reserve)
  | some prev =>
    if r.heap.endOf prev = node then do
      let r ← r.join prev node
      return (prev, r)
    else .ok (node, r)
  | none => .ok (node, r)

/-- The block behind, if `MFreeReservedBlock` found it. -/
def joinNext (node : ℕ) : Option ℕ → Except Fault Reserve
  | some next => if r.heap.endOf node = next then r.join node next else .ok r
  | none => .ok r

def mFreeReservedBlock (node : ℕ) : Except Fault Reserve := do
  let (prev, next) := r.neighbours node (List.range r.process.arraySize) none
  let r := r.subUsedUp (r.heap.size node)
  let (node, r) ← r.joinPrev node prev
  let r ← r.joinNext node next
  return r.setNode node { r.heap.node node with
    nextNode := setFlag (r.heap.node node).nextNode reserveBit true }

end Reserve

/-- The shared memory with the list of its process nodes, and the object of a process that
allocates from it. -/
structure Allocator where
  heap : Heap
  processes : List ℕ
  process : ℕ → ProcessNode
  pid : ℕ
  reserv : ℕ
  currentProcess : Option ℕ

namespace Allocator

variable (s : Allocator)

def setProcess (p : ℕ) (n : ProcessNode) : Allocator :=
  { s with process := Function.update s.process p n }

def reserveOf (p : ℕ) : Reserve := ⟨s.heap, s.process p⟩

def setReserve (p : ℕ) (r : Reserve) : Allocator :=
  { s with heap := r.heap, process := Function.update s.process p r.process }

def mMallocBlock (xWantedSize : ℕ) (aFromEnd : Bool) (aOffset : ℕ) :
    Except Fault (Option ℕ × Allocator) := do
  let (p, heap) ← s.heap.mMallocBlock xWantedSize aFromEnd aOffset
  return (p, { s with heap })

/-- `MSearchProcessNode`: the node, and those before it. -/
def mSearchProcessNode (aPid : ℕ) : Option ℕ × List ℕ :=
  let (before, rest) := s.processes.span fun p => (s.process p).pid != aPid
  (rest.head?, before)

/-- `MInsertProcessNode`; what follows is where `FNextNode` of the node leads. -/
def mInsertProcessNode (before : List ℕ) (first : ℕ) (following : List ℕ) : Allocator :=
  { s with processes := before ++ first :: following }

/-- `MCreateReservForProcess` in `MCreateProcessNode`: without memory only a message is logged. -/
def mCreateReservForProcess (aProc : ℕ) : Except Fault Allocator := do
  let (_new_p, s) ← s.mMallocBlock (s.process aProc).sizeOfReserv true 0
  match _new_p with
  | none => return s
  | some _new_p =>
    let r ← (s.reserveOf aProc).mCreateReservForProcess (_new_p - sizeOfBlockNode)
    return s.setReserve aProc r

/-- The reserve of a new node, if the object wants one. -/
def reservFor (first : ℕ) : Except Fault Allocator :=
  if 0 < s.reserv then s.mCreateReservForProcess first else .ok s

def mCreateProcessNode : Except Fault (Option ℕ × Allocator) := do
  let (_, before) := s.mSearchProcessNode s.pid
  let (_new_p, s) ← s.mMallocBlock defProcessSize true 0
  match _new_p with
  | none => return (none, s)
  | some first =>
    let s := s.setProcess first (.new s.pid defProcessSize s.reserv)
    let s ← s.reservFor first
    return (some first, s.mInsertProcessNode before first [])

/-- `MGetOrRealocateProcessNode`; the new node is made at what `MMallocBlock` returns. -/
def mGetOrRealocateProcessNode (aProccess aCount : ℕ) : Except Fault (ℕ × Allocator) :=
  let _old_node := s.process aProccess
  if _old_node.isFull aCount then do
    let _requred_memory := _old_node.requredMemory aCount
    let (_new_p, s) ← s.mMallocBlock _requred_memory true 0
    match _new_p with
    | none => .error .nullPointer
    | some _new_p =>
      let s := s.setProcess _new_p (_old_node.copy _requred_memory)
      let (_, before) := s.mSearchProcessNode _old_node.pid
      let s := s.mInsertProcessNode before _new_p ((s.processes.dropWhile (· != aProccess)).drop 1)
      let s := s.setProcess aProccess { s.process aProccess with pid := 0 }
      let heap ← s.heap.mFreeBlock aProccess
      return (_new_p, { s with heap })
  else .ok (aProccess, s)

def mSearchOrCreateProcessNode : Except Fault (Option ℕ × Allocator) :=
  match (s.mSearchProcessNode s.pid).1 with
  | some p => .ok (some p, s)
  | none => s.mCreateProcessNode

/-- `++_prs.first->FCount` -/
def incCount (first : Option ℕ) : Except Fault (ℕ × Allocator) :=
  match first with
  | none => .error .nullPointer
  | some p => .ok (p, s.setProcess p
      { s.process p with count := ((s.process p).count + 1) % 2 ^ 32 })

def mGetOrCreateProcessNode (aCount : ℕ) : Except Fault (ℕ × Allocator) :=
  match s.currentProcess with
  | some p => do
    let (p, s) ← s.mGetOrRealocateProcessNode p aCount
    return (p, { s with currentProcess := some p })
  | none => do
    let (first, s) ← s.mSearchOrCreateProcessNode
    let (p, s) ← s.incCount first
    let (p, s) ← s.mGetOrRealocateProcessNode p aCount
    return (p, { s with currentProcess := some p })

/-- The block of `MMallocImpl` from the heap. -/
def mallocFromHeap (_process xWantedSize aOffset : ℕ) : Except Fault (Option ℕ × Allocator) :=
  if xWantedSize ≤ s.heap.freeBytesRemaining then do
    let (_pmemory, s) ← s.mMallocBlock xWantedSize false aOffset
    match _pmemory with
    | none => return (none, s)
    | some p =>
      let r ← (s.reserveOf _process).mKeepBlock (p - sizeOfBlockNode)
      return (some p, s.setReserve _process r)
  else .ok (none, s)

/-- The block of `MMallocImpl` from the heap, or from the reserve. -/
def mallocFor (_process xWantedSize aOffset : ℕ) (aUseReserv : Bool) :
    Except Fault (Option ℕ × Allocator) := do
  let (_pmemory, s) ← s.mallocFromHeap _process xWantedSize aOffset
  match _pmemory with
  | some p => return (some p, s)
  | none =>
    if aUseReserv then
      let (p, r) ← (s.reserveOf _process).mMallocImpl xWantedSize
      return (p, s.setReserve _process r)
    else return (none, s)

def mMallocImpl (xWantedSize aOffset : ℕ) (aUseReserv : Bool) :
    Except Fault (Option ℕ × Allocator) :=
  if s.heap.maxSize < xWantedSize then .ok (none, s)
  else do
    let (_process, s) ← s.mGetOrCreateProcessNode 1
    s.mallocFor _process xWantedSize aOffset aUseReserv

/-- `MCreateHeap`, with the node of the process that makes the heap. -/
def mCreateHeap (aSize aligmentHead pid aReserv : ℕ) : Except Fault Allocator := do
  let (_, s) ← mGetOrCreateProcessNode
    ⟨.create aSize aligmentHead, [], fun _ => .new 0 0 0, pid, aReserv, none⟩ 0
  return s

def mInitFromCreatedHeap (pid aReserv : ℕ) : Except Fault Allocator :=
  let s := { s with pid, reserv := aReserv, currentProcess := none }
  if 0 < aReserv then do
    let (_, s) ← s.mGetOrCreateProcessNode 0
    return s
  else .ok s

end Allocator

end UdtKernel.SharedAllocator
