import UdtKernel.SharedAllocator.Malloc

set_option autoImplicit false

/-! Runs of allocations and frees on a fresh heap. -/

namespace UdtKernel.SharedAllocator
open UdtKernel.Lib

/-- The heap, and the offsets that were allocated and not freed. -/
structure HeapState where
  heap : Heap
  allocated : List ℕ

inductive HeapStep where
  | malloc (xWantedSize : ℕ) (aFromEnd : Bool) (aOffset : ℕ)
  | free (aP : ℕ)

def heapStep : HeapStep → HeapState → Except Fault HeapState
  | .malloc xWantedSize aFromEnd aOffset, s => do
    let (p, heap) ← s.heap.mMallocBlock xWantedSize aFromEnd aOffset
    return ⟨heap, p.toList ++ s.allocated⟩
  | .free aP, s => do
    let heap ← s.heap.mFreeBlock aP
    return ⟨heap, s.allocated.erase aP⟩

namespace HeapState

def create (aSize aligmentHead : ℕ) : HeapState := ⟨.create aSize aligmentHead, []⟩

/-- What the heap is to be, with its blocks and the free ones. -/
structure SoundWith (s : HeapState) (blocks free : List ℕ) : Prop where
  tiles : Linked id s.heap.endOf s.heap.first blocks s.heap.maxSize
  disjoint : blocks.Pairwise fun a b => s.heap.endOf a ≤ b
  linked : Linked offsetOf s.heap.next s.heap.firstNode free nullOffset
  sorted : free.Pairwise (· < ·)
  apart : ∀ a ∈ free, ∀ b ∈ free, s.heap.endOf a ≠ b
  perm : (blocks.map (· + sizeOfBlockNode)).Perm (free.map (· + sizeOfBlockNode) ++ s.allocated)
  aligned : ∀ b ∈ blocks, alignment ∣ s.heap.size b
  remaining : s.heap.freeBytesRemaining = (free.map s.heap.size).sum

def Sound (s : HeapState) : Prop := ∃ blocks free, s.SoundWith blocks free

/-- Sizes are those of `MMallocImpl`, and what is freed was allocated. -/
def Performs (s : HeapState) : HeapStep → Prop
  | .malloc xWantedSize _ _ => xWantedSize < 2 ^ 63
  | .free aP => aP ∈ s.allocated

/-- No free block is split for a fixed offset inside of it. -/
def SplitsNone (s : HeapState) : HeapStep → Prop
  | .malloc xWantedSize aFromEnd aOffset =>
    aFromEnd = false → aOffset ≠ 0 → s.heap.FitsAt aOffset (Heap.roundUp xWantedSize)
  | .free _ => True

instance (s : HeapState) : (st : HeapStep) → Decidable (Performs s st)
  | .malloc _ _ _ => inferInstanceAs (Decidable (_ < _))
  | .free _ => inferInstanceAs (Decidable (_ ∈ _))

instance (s : HeapState) : (st : HeapStep) → Decidable (SplitsNone s st)
  | .malloc _ _ _ => inferInstanceAs (Decidable (_ → _ → _))
  | .free _ => isTrue trivial

/-- A heap has room for its head and one block, and its size is one that offsets can express. -/
structure Fresh (aSize aligmentHead : ℕ) : Prop where
  room : aligmentHead + sizeOfHeapHead + sizeOfBlockNode ≤ aSize
  bound : aSize < 2 ^ 63

variable {s : HeapState} {blocks : List ℕ} {used : ℕ → Bool}

/-- The state of the heap, and that the used blocks are the allocated ones. -/
structure Inv (s : HeapState) (blocks : List ℕ) (used : ℕ → Bool) : Prop where
  tiled : s.heap.Tiled blocks used
  apart : Heap.Apart blocks used
  perm : ((blocks.filter used).map (· + sizeOfBlockNode)).Perm s.allocated

theorem Inv.sound (h : Inv s blocks used) : s.Sound := by
  refine ⟨blocks, blocks.filter (!used ·), h.tiled.tiles, h.tiled.sorted, h.tiled.linked,
    h.tiled.lt.filter _, ?_, ?_, h.tiled.aligned, h.tiled.remaining⟩
  · intro a ha b hb hend
    obtain ⟨hmem, hfreeA⟩ := List.mem_filter.1 ha
    obtain ⟨hmemB, hfreeB⟩ := List.mem_filter.1 hb
    rw [Bool.not_eq_true'] at hfreeA hfreeB
    exact h.apart.endOf_ne h.tiled.tiles hmem hmemB hfreeA hfreeB hend
  · have hsplit := (List.filter_append_perm used blocks).map (· + sizeOfBlockNode)
    rw [List.map_append] at hsplit
    exact hsplit.symm.trans (List.perm_append_comm.trans (h.perm.append_left _))

theorem inv_create {aSize aligmentHead : ℕ} (hfresh : Fresh aSize aligmentHead)
    (haligned : alignment ∣ aSize - sizeOfHeapHead - sizeOfBlockNode - aligmentHead) :
    Inv (create aSize aligmentHead) [aligmentHead + sizeOfHeapHead] fun _ => false := by
  have hroom := hfresh.room
  have hsize : (Heap.create aSize aligmentHead).size (aligmentHead + sizeOfHeapHead) =
      aSize - sizeOfHeapHead - sizeOfBlockNode - aligmentHead := by
    unfold Heap.size Heap.create
    dsimp only
    rw [Function.update_self]
    rfl
  have hnext : (Heap.create aSize aligmentHead).next (aligmentHead + sizeOfHeapHead) =
      nullOffset := by
    unfold Heap.next Heap.create
    dsimp only
    rw [Function.update_self]
    rfl
  refine ⟨⟨hfresh.bound, ⟨rfl, ?_⟩, ⟨rfl, hnext⟩, ?_, ?_⟩, List.IsChain.singleton _,
    List.Perm.refl _⟩
  · change (Heap.create aSize aligmentHead).endOf (aligmentHead + sizeOfHeapHead) = aSize
    unfold Heap.endOf
    rw [hsize]
    omega
  · intro b hb
    rw [List.mem_singleton.1 hb]
    exact hsize.symm ▸ haligned
  · change _ = ([aligmentHead + sizeOfHeapHead].map (Heap.create aSize aligmentHead).size).sum
    rw [List.map_singleton, List.sum_singleton, hsize]
    rfl

theorem inv_malloc (h : Inv s blocks used) {xWantedSize aOffset : ℕ} {aFromEnd : Bool}
    (hperforms : Performs s (.malloc xWantedSize aFromEnd aOffset))
    (hsplits : SplitsNone s (.malloc xWantedSize aFromEnd aOffset)) :
    ∃ s' blocks' used', heapStep (.malloc xWantedSize aFromEnd aOffset) s = .ok s' ∧
      Inv s' blocks' used' := by
  change ∃ s' blocks' used', (do
    let (p, heap) ← s.heap.mMallocBlock xWantedSize aFromEnd aOffset
    return ⟨heap, p.toList ++ s.allocated⟩ : Except Fault HeapState) = .ok s' ∧ _
  rcases h.tiled.mMallocBlock h.apart hperforms hsplits with
    hnone | ⟨who, heap, blocks', used', hsome, htaken⟩
  · rw [hnone]
    exact ⟨s, blocks, used, rfl, h⟩
  · rw [hsome]
    refine ⟨_, blocks', used', rfl, htaken.tiled, htaken.apart, ?_⟩
    have hperm := htaken.perm.map (· + sizeOfBlockNode)
    rw [List.map_cons] at hperm
    exact hperm.trans (h.perm.cons _)

theorem inv_free (h : Inv s blocks used) {aP : ℕ} (hperforms : Performs s (.free aP)) :
    ∃ s' blocks' used', heapStep (.free aP) s = .ok s' ∧ Inv s' blocks' used' := by
  obtain ⟨a, ha, rfl⟩ := List.mem_map.1 (h.perm.mem_iff.2 hperforms)
  obtain ⟨hmem, hused⟩ := List.mem_filter.1 ha
  obtain ⟨A, B, rfl⟩ := List.append_of_mem hmem
  obtain ⟨heap, blocks', hfree, hins⟩ := h.tiled.mFreeBlock h.apart hused
  refine ⟨⟨heap, s.allocated.erase (a + sizeOfBlockNode)⟩, blocks', _, ?_, hins.tiled, hins.apart,
    ?_⟩
  · change (do
      let heap ← s.heap.mFreeBlock (a + sizeOfBlockNode)
      return ⟨heap, s.allocated.erase (a + sizeOfBlockNode)⟩ : Except Fault HeapState) = _
    rw [hfree]
    rfl
  · have hperm := h.perm
    rw [List.filter_append, List.filter_cons, hused, if_pos rfl] at hperm
    have hswap : (A.filter used ++ a :: B.filter used).Perm
        (a :: (A.filter used ++ B.filter used)) := List.perm_middle
    have hmiddle := hswap.map (· + sizeOfBlockNode)
    rw [List.map_cons] at hmiddle
    have herase := (hmiddle.symm.trans hperm).erase (a + sizeOfBlockNode)
    rw [List.erase_cons_head] at herase
    rw [hins.used_eq, List.filter_append]
    exact herase

theorem heapStep_inv (h : Inv s blocks used) {st : HeapStep} (hperforms : Performs s st)
    (hsplits : SplitsNone s st) :
    ∃ s' blocks' used', heapStep st s = .ok s' ∧ Inv s' blocks' used' := by
  cases st with
  | malloc xWantedSize aFromEnd aOffset => exact inv_malloc h hperforms hsplits
  | free aP => exact inv_free h hperforms

theorem runAll_inv {steps : List HeapStep} (h : Inv s blocks used)
    (hsteps : EveryStep heapStep (fun s st => Performs s st ∧ SplitsNone s st) steps s) :
    ∃ s' blocks' used', runAll heapStep steps s = .ok s' ∧ Inv s' blocks' used' := by
  obtain ⟨s', hrun, blocks', used', hinv⟩ := runAll_of_step
    (I := fun s => ∃ blocks used, Inv s blocks used) (fun s st hs hst => by
      obtain ⟨blocks, used, h⟩ := hs
      obtain ⟨s', blocks', used', hstep, hinv⟩ := heapStep_inv h hst.1 hst.2
      exact ⟨s', hstep, blocks', used', hinv⟩) ⟨blocks, used, h⟩ hsteps
  exact ⟨s', blocks', used', hrun, hinv⟩

/-- The heap after a run in which no block is split for a fixed offset. -/
theorem runAll_heap_sound {aSize aligmentHead : ℕ} (hfresh : Fresh aSize aligmentHead)
    (haligned : alignment ∣ aSize - sizeOfHeapHead - sizeOfBlockNode - aligmentHead)
    {steps : List HeapStep}
    (hsteps : EveryStep heapStep (fun s st => Performs s st ∧ SplitsNone s st) steps
      (create aSize aligmentHead)) :
    ∃ s, runAll heapStep steps (create aSize aligmentHead) = .ok s ∧ s.Sound := by
  obtain ⟨s, blocks, used, hrun, hinv⟩ := runAll_inv (inv_create hfresh haligned) hsteps
  exact ⟨s, hrun, hinv.sound⟩

/-- Three blocks from both ends, one at the place of the first, and frees between them. -/
def someHeapSteps : List HeapStep :=
  [.malloc 280 true 0, .malloc 100 false 0, .malloc 64 false 0, .free 168, .malloc 40 false 168,
    .free 288, .malloc 500 false 0, .free 168]

theorem runAll_heap_sound_someHeapSteps :
    Fresh 2048 0 ∧ ∃ s, runAll heapStep someHeapSteps (create 2048 0) = .ok s ∧ s.Sound := by
  have hfresh : Fresh 2048 0 := ⟨by decide, by decide⟩
  exact ⟨hfresh, runAll_heap_sound hfresh (by decide) (by decide +kernel)⟩

/-- The bytes that a sound heap counts are those of the blocks of its list. -/
theorem Sound.remaining_eq (h : s.Sound) (hmax : s.heap.maxSize < 2 ^ 63) :
    ∀ l ∈ s.heap.freeNodes.toOption, s.heap.freeBytesRemaining = (l.map s.heap.size).sum := by
  obtain ⟨blocks, free, hw⟩ := h
  have hbounds := hw.tiles.bounds Heap.lt_endOf
  have hmem : ∀ a ∈ free, a ∈ blocks := by
    intro a ha
    have hin : a + sizeOfBlockNode ∈ blocks.map (· + sizeOfBlockNode) :=
      hw.perm.mem_iff.2 (List.mem_append_left _ (List.mem_map.2 ⟨a, ha, rfl⟩))
    obtain ⟨b, hb, heq⟩ := List.mem_map.1 hin
    rwa [← Nat.add_right_cancel heq]
  have hlength : free.length ≤ s.heap.maxSize := by
    have hperm := hw.perm.length_eq
    have hle := hw.tiles.length_le Heap.lt_endOf
    rw [List.length_map, List.length_append, List.length_map] at hperm
    omega
  have hwalk : s.heap.freeNodes = .ok free := by
    refine Heap.walk_eq hw.linked (fun a ha => ?_) hlength
    have hle := (hbounds a (hmem a ha)).2
    have hlt := Heap.lt_endOf (h := s.heap) a
    omega
  intro l hl
  rw [hwalk] at hl
  cases hl
  exact hw.remaining

/-- A block in the middle of the only free one. -/
theorem heap_false_of_split :
    Fresh 1192 0 ∧ ∃ s, runAll heapStep [.malloc 64 false 232] (create 1192 0) = .ok s ∧
      EveryStep heapStep Performs [.malloc 64 false 232] (create 1192 0) ∧ ¬ s.Sound := by
  refine ⟨⟨by decide, by decide⟩, ?_⟩
  obtain ⟨s, hrun, hmax, hcount⟩ :
      ∃ s, runAll heapStep [.malloc 64 false 232] (create 1192 0) = .ok s ∧
        s.heap.maxSize < 2 ^ 63 ∧ ¬ ∀ l ∈ s.heap.freeNodes.toOption,
          s.heap.freeBytesRemaining = (l.map s.heap.size).sum := by
    refine ⟨_, rfl, ?_, ?_⟩
    · decide +kernel
    · decide +kernel
  exact ⟨s, hrun, by decide +kernel, fun hsound => hcount (hsound.remaining_eq hmax)⟩

end HeapState

end UdtKernel.SharedAllocator
