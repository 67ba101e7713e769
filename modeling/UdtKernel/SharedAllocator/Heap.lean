import UdtKernel.SharedAllocator.ProcessNode

set_option autoImplicit false

/-! The blocks of the heap: `block_node_t`, `heap_head_t` and the list of free blocks. -/

namespace UdtKernel.SharedAllocator

/-- `block_node_t`; the top bit of `FBlockSize` is a field of its own. -/
structure BlockNode where
  nextNode : Offset
  blockSize : ℕ
  isAllocated : Bool

def sizeOfBlockNode : ℕ := 16

def alignment : ℕ := 8

def sizeOfHeapHead : ℕ := 152

namespace BlockNode

def new : BlockNode := ⟨nullOffset, 0, false⟩

/-- `MSetBlockSize` writes the whole word. -/
def mSetBlockSize (b : BlockNode) (aVal : ℕ) : BlockNode :=
  { b with blockSize := aVal, isAllocated := false }

end BlockNode

def pointer (aOffset : Offset) : Option ℕ :=
  if isNullOffset aOffset then none else some aOffset.toNat

def offsetOf (p : ℕ) : Offset := BitVec.ofNat 64 p

/-- `heap_head_t`, and the `block_node_t` at every distance from `FBase`. -/
structure Heap where
  freeBytesRemaining : ℕ
  maxSize : ℕ
  aligmentHead : ℕ
  firstNode : Offset
  node : ℕ → BlockNode

/-- A block, and the one before it in the list of free blocks: `nodes_block_t`. -/
abbrev NodesBlock := ℕ × Option ℕ

namespace Heap

variable (h : Heap)

def setNode (p : ℕ) (b : BlockNode) : Heap := { h with node := Function.update h.node p b }

def mSetNextNode (p : ℕ) (w : Offset) : Heap := h.setNode p { h.node p with nextNode := w }

def mSetBlockSize (p aVal : ℕ) : Heap := h.setNode p ((h.node p).mSetBlockSize aVal)

def mAllocate (p : ℕ) (aIs : Bool) : Heap := h.setNode p { h.node p with isAllocated := aIs }

def size (p : ℕ) : ℕ := (h.node p).blockSize

def endOf (p : ℕ) : ℕ := p + sizeOfBlockNode + h.size p

def create (aSize aligmentHead : ℕ) : Heap where
  freeBytesRemaining := aSize - sizeOfHeapHead - sizeOfBlockNode - aligmentHead
  maxSize := aSize
  aligmentHead := aligmentHead
  firstNode := offsetOf (aligmentHead + sizeOfHeapHead)
  node := Function.update (fun _ => BlockNode.new) (aligmentHead + sizeOfHeapHead)
    (BlockNode.new.mSetBlockSize (aSize - sizeOfHeapHead - sizeOfBlockNode - aligmentHead))

/-- The blocks that a loop over `MNext` meets. -/
def walk : ℕ → Offset → Except Fault (List ℕ)
  | 0, w => if isNullOffset w then .ok [] else .error .hang
  | n + 1, w =>
    match pointer w with
    | none => .ok []
    | some p => do
      let l ← walk n (h.node p).nextNode
      return p :: l

def freeNodes : Except Fault (List ℕ) := h.walk h.maxSize h.firstNode

def firstFit (_alligment_size : ℕ) : Option ℕ → List ℕ → Option NodesBlock
  | _, [] => none
  | prev, a :: l =>
    if h.size a < _alligment_size then firstFit _alligment_size (some a) l else some (a, prev)

def lastFit (_alligment_size : ℕ) : Option ℕ → List ℕ → Option NodesBlock → Option NodesBlock
  | _, [], result => result
  | prev, a :: l, result =>
    lastFit _alligment_size (some a) l
      (if _alligment_size < h.size a then some (a, prev) else result)

def lastBefore (aOffset : ℕ) (l : List ℕ) : Option ℕ × Option ℕ :=
  l.foldl (fun nodes a => if a < aOffset then (some a, nodes.1) else nodes) (none, none)

/-- The new block of `MGetFreeBlockFromBegin` behind the first one. -/
def splitAt (first aOffset : ℕ) : NodesBlock × Heap :=
  let _buf_offset := first + sizeOfBlockNode
  let link := first + aOffset - _buf_offset
  let h₁ := h.setNode link
    (BlockNode.new.mSetBlockSize (h.size first - (aOffset - _buf_offset)))
  let h₂ := h₁.mSetBlockSize first (aOffset - _buf_offset - sizeOfBlockNode)
  let h₃ := h₂.mSetNextNode link (h₂.node first).nextNode
  let h₄ := h₃.mSetNextNode first (offsetOf link)
  ((link, some first), h₄)

def mGetFreeBlockFromBegin (aOffset _alligment_size : ℕ) :
    Except Fault (Option NodesBlock × Heap) := do
  let l ← h.freeNodes
  if aOffset = 0 then return (h.firstFit _alligment_size none l, h)
  else
    match lastBefore aOffset l with
    | (none, _) => return (none, h)
    | (some first, second) =>
      if first + sizeOfBlockNode = aOffset then
        if h.size first < _alligment_size then return (none, h)
        else return (some (first, second), h)
      else if aOffset < first + sizeOfBlockNode + sizeOfBlockNode then return (none, h)
      else if h.size first < (aOffset - (first + sizeOfBlockNode) + _alligment_size +
          sizeOfBlockNode) % 2 ^ 64 then return (none, h)
      else
        let (nodes, h) := h.splitAt first aOffset
        return (some nodes, h)

def mGetFreeBlockFromEnd (_alligment_size : ℕ) : Except Fault (Option NodesBlock) := do
  let l ← h.freeNodes
  return h.lastFit _alligment_size none l none

def mEraseNodeFromFreeList (nodes : NodesBlock) : Heap :=
  let h₁ := match nodes.2 with
    | some second => h.mSetNextNode second (h.node nodes.1).nextNode
    | none => { h with firstNode := (h.node nodes.1).nextNode }
  { h₁ with freeBytesRemaining := h₁.freeBytesRemaining - h₁.size nodes.1 }

/-- `MSplitInto2Block`: the block behind or before the one that is wanted, and that one. -/
def mSplitInto2Block (aWho _alligment_size : ℕ) (aFromEnd : Bool) :
    Option ℕ × ℕ × Heap :=
  if _alligment_size + 2 * sizeOfBlockNode < h.size aWho then
    let _size := h.size aWho - _alligment_size - sizeOfBlockNode
    let link :=
      if aFromEnd then aWho + h.size aWho - _alligment_size
      else aWho + _alligment_size + sizeOfBlockNode
    let h₁ := h.setNode link BlockNode.new
    let (rest, who) := if aFromEnd then (aWho, link) else (link, aWho)
    (some rest, who, (h₁.mSetBlockSize rest _size).mSetBlockSize who _alligment_size)
  else (none, aWho, h)

/-- The loop of `MInsertIntoFreeList`: how far to go from a block before the one to insert. -/
def goOn (pxBlockToInsert aPrev : ℕ) : List ℕ → ℕ
  | [] => aPrev
  | a :: l => if a < pxBlockToInsert then goOn pxBlockToInsert a l else aPrev

/-- The block before the one that `MInsertIntoFreeList` inserts. -/
def prevFor (pxBlockToInsert : ℕ) (aPrev : Option ℕ) : Except Fault (Option ℕ) :=
  match aPrev.orElse fun _ => pointer h.firstNode with
  | none => return none
  | some prev =>
    if pxBlockToInsert < prev then return none
    else do
      let l ← h.walk h.maxSize (h.node prev).nextNode
      return some (goOn pxBlockToInsert prev l)

/-- The end of `MInsertIntoFreeList`: the block that follows. -/
def joinNext (pxBlockToInsert aPrev : ℕ) : Heap :=
  let h₁ := match pointer (h.node aPrev).nextNode with
    | some _next =>
      if h.endOf pxBlockToInsert = _next then
        let h₁ := h.mSetBlockSize pxBlockToInsert
          (h.size pxBlockToInsert + h.size _next + sizeOfBlockNode)
        let h₂ := h₁.mSetNextNode pxBlockToInsert (h₁.node _next).nextNode
        { h₂ with freeBytesRemaining := h₂.freeBytesRemaining + sizeOfBlockNode }
      else h
    | none => h
  if aPrev = pxBlockToInsert then h₁ else h₁.mSetNextNode aPrev (offsetOf pxBlockToInsert)

def mInsertIntoFreeList (pxBlockToInsert : ℕ) (aPrev : Option ℕ) : Except Fault Heap := do
  let h := { h with freeBytesRemaining := h.freeBytesRemaining + h.size pxBlockToInsert }
  if (pointer h.firstNode).isNone then
    return { h.mSetNextNode pxBlockToInsert nullOffset with
      firstNode := offsetOf pxBlockToInsert }
  else
    match ← h.prevFor pxBlockToInsert aPrev with
    | none =>
      let h₁ := h.mSetNextNode pxBlockToInsert h.firstNode
      return joinNext { h₁ with firstNode := offsetOf pxBlockToInsert }
        pxBlockToInsert pxBlockToInsert
    | some prev =>
      if h.endOf prev = pxBlockToInsert then
        let h₁ := h.mSetBlockSize prev (h.size prev + h.size pxBlockToInsert + sizeOfBlockNode)
        return joinNext { h₁ with freeBytesRemaining := h₁.freeBytesRemaining + sizeOfBlockNode }
          prev prev
      else
        return (h.mSetNextNode pxBlockToInsert (h.node prev).nextNode).joinNext
          pxBlockToInsert prev

def mSplitBlockAndUpdateList (nodes : NodesBlock) (_alligment_size : ℕ) (aFromEnd : Bool) :
    Except Fault (ℕ × Heap) :=
  match h.mSplitInto2Block nodes.1 _alligment_size aFromEnd with
  | (some link, who, h) => do
    let h ← h.mInsertIntoFreeList link nodes.2
    return (who, h)
  | (none, who, h) => return (who, h)

def roundUp (xWantedSize : ℕ) : ℕ :=
  if 0 < xWantedSize % alignment then
    (xWantedSize + (alignment - xWantedSize % alignment)) % 2 ^ 64
  else xWantedSize

/-- The choice of a free block in `MMallocBlock`. -/
def getFreeBlock (_alligment_size : ℕ) (aFromEnd : Bool) (aOffset : ℕ) :
    Except Fault (Option NodesBlock × Heap) :=
  if aFromEnd then do
    let nodes ← h.mGetFreeBlockFromEnd _alligment_size
    return (nodes, h)
  else h.mGetFreeBlockFromBegin aOffset _alligment_size

/-- `MMallocBlock`; the result is the offset of the data behind the block's header. -/
def mMallocBlock (xWantedSize : ℕ) (aFromEnd : Bool) (aOffset : ℕ) :
    Except Fault (Option ℕ × Heap) := do
  if xWantedSize = 0 then return (none, h)
  let _alligment_size := roundUp xWantedSize
  if h.freeBytesRemaining < _alligment_size then return (none, h)
  let (nodes, h) ← h.getFreeBlock _alligment_size aFromEnd aOffset
  match nodes with
  | none => return (none, h)
  | some nodes =>
    let h := h.mEraseNodeFromFreeList nodes
    let (who, h) ← h.mSplitBlockAndUpdateList nodes _alligment_size aFromEnd
    return (some (who + sizeOfBlockNode), h.mAllocate who true)

def mFreeBlock (aP : ℕ) : Except Fault Heap :=
  (h.mAllocate (aP - sizeOfBlockNode) false).mInsertIntoFreeList (aP - sizeOfBlockNode) none

end Heap

end UdtKernel.SharedAllocator
