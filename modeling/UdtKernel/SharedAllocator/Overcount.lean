import UdtKernel.SharedAllocator.Malloc

set_option autoImplicit false

/-! Free blocks that are split for a fixed offset, and the bytes that are counted too many since
then. -/

namespace UdtKernel.SharedAllocator
open UdtKernel.Lib

namespace Heap

variable {h : Heap} {blocks A B : List ℕ} {used : ℕ → Bool} {f : ℕ}

/-- More free bytes are counted than there are. -/
def more (h : Heap) (k : ℕ) : Heap := { h with freeBytesRemaining := h.freeBytesRemaining + k }

section
variable (k : ℕ)

@[simp] theorem more_zero : h.more 0 = h := rfl

theorem more_more (m : ℕ) : (h.more k).more m = h.more (k + m) := by
  unfold more
  dsimp only
  rw [Nat.add_assoc]

theorem freeNodes_more : (h.more k).freeNodes = h.freeNodes :=
  @walk_congr h (h.more k) rfl h.maxSize h.firstNode

theorem prevFor_more (px : ℕ) (aPrev : Option ℕ) :
    (h.more k).prevFor px aPrev = h.prevFor px aPrev := by
  apply prevFor_congr <;> rfl

theorem merge_more (a b : ℕ) : (h.more k).merge a b = (h.merge a b).more k :=
  congrArg (fun c => { h.merge a b with freeBytesRemaining := c })
    (Nat.add_right_comm h.freeBytesRemaining k sizeOfBlockNode)

theorem counted_more (px : ℕ) : (h.more k).counted px = (h.counted px).more k :=
  congrArg (fun c => { h with freeBytesRemaining := c })
    (Nat.add_right_comm h.freeBytesRemaining k (h.size px))

theorem joinNext_more (px aPrev : ℕ) :
    (h.more k).joinNext px aPrev = (h.joinNext px aPrev).more k := by
  by_cases hjoin : ∀ n ∈ pointer (h.next aPrev), h.endOf px ≠ n
  · have hjoin' : ∀ n ∈ pointer ((h.more k).next aPrev), (h.more k).endOf px ≠ n := hjoin
    rw [joinNext_of_ne hjoin, joinNext_of_ne hjoin']
    split_ifs <;> rfl
  · push Not at hjoin
    obtain ⟨n, hn, hend⟩ := hjoin
    have hn' : pointer ((h.more k).next aPrev) = some n := hn
    have hend' : (h.more k).endOf px = n := hend
    rw [joinNext_of_eq hn hend, joinNext_of_eq hn' hend', merge_more]
    split_ifs <;> rfl

theorem insertBehind_more (px : ℕ) (prev : Option ℕ) :
    (h.more k).insertBehind px prev = (h.insertBehind px prev).more k := by
  cases prev with
  | none =>
    unfold insertBehind
    rw [← joinNext_more, counted_more]
    rfl
  | some s =>
    have hend : (h.more k).endOf s = h.endOf s := rfl
    unfold insertBehind
    dsimp only
    rw [hend, counted_more]
    split_ifs
    · rw [← joinNext_more]
      refine congrArg (joinNext · s s) ?_
      exact congrArg (fun c => { (h.counted px).mSetBlockSize s
        (h.size s + h.size px + sizeOfBlockNode) with freeBytesRemaining := c })
        (Nat.add_right_comm (h.counted px).freeBytesRemaining k sizeOfBlockNode)
    · rw [← joinNext_more]
      rfl

theorem mInsertIntoFreeList_of_isSome {px : ℕ} {aPrev : Option ℕ}
    (hsome : ¬ (pointer h.firstNode).isNone = true) :
    h.mInsertIntoFreeList px aPrev = (h.prevFor px aPrev).map (h.insertBehind px) := by
  have hcounted : (h.counted px).prevFor px aPrev = h.prevFor px aPrev := by
    apply prevFor_congr <;> rfl
  unfold mInsertIntoFreeList
  dsimp only
  rw [if_neg hsome]
  change (h.counted px).prevFor px aPrev >>= _ = _
  rw [hcounted]
  cases h.prevFor px aPrev with
  | error e => rfl
  | ok prev =>
    cases prev with
    | none => rfl
    | some s =>
      change (if h.endOf s = px then _ else _) = Except.ok (if h.endOf s = px then _ else _)
      split_ifs <;> rfl

theorem mInsertIntoFreeList_more (px : ℕ) (aPrev : Option ℕ) :
    (h.more k).mInsertIntoFreeList px aPrev =
      (h.mInsertIntoFreeList px aPrev).map (more · k) := by
  by_cases hnone : (pointer h.firstNode).isNone = true
  · unfold mInsertIntoFreeList
    dsimp only
    have hnone' : (pointer (h.more k).firstNode).isNone = true := hnone
    rw [if_pos hnone, if_pos hnone']
    refine congrArg Except.ok ?_
    exact congrArg (fun c => { h.mSetNextNode px nullOffset with
      firstNode := offsetOf px, freeBytesRemaining := c })
      (Nat.add_right_comm h.freeBytesRemaining k (h.size px))
  · have hnone' : ¬ (pointer (h.more k).firstNode).isNone = true := hnone
    rw [mInsertIntoFreeList_of_isSome hnone, mInsertIntoFreeList_of_isSome hnone', prevFor_more]
    cases h.prevFor px aPrev with
    | error e => rfl
    | ok prev => exact congrArg Except.ok (insertBehind_more k px prev)

theorem mFreeBlock_more (aP : ℕ) :
    (h.more k).mFreeBlock aP = (h.mFreeBlock aP).map (more · k) :=
  mInsertIntoFreeList_more (h := h.mAllocate (aP - sizeOfBlockNode) false) k _ _

theorem mEraseNodeFromFreeList_more {nodes : NodesBlock}
    (hle : h.size nodes.1 ≤ h.freeBytesRemaining) :
    (h.more k).mEraseNodeFromFreeList nodes = (h.mEraseNodeFromFreeList nodes).more k := by
  obtain ⟨a, prev⟩ := nodes
  cases prev with
  | none =>
    exact congrArg (fun c => { h with firstNode := (h.node a).nextNode, freeBytesRemaining := c })
      (Nat.sub_add_comm hle)
  | some s =>
    have hsize := size_mSetNextNode (h := h) s a (h.node a).nextNode
    have hcount : h.freeBytesRemaining + k - (h.mSetNextNode s (h.node a).nextNode).size a =
        h.freeBytesRemaining - (h.mSetNextNode s (h.node a).nextNode).size a + k := by
      rw [hsize]
      exact Nat.sub_add_comm hle
    exact congrArg (fun c => { h.mSetNextNode s (h.node a).nextNode with
      freeBytesRemaining := c }) hcount

theorem mSplitBlockAndUpdateList_more (nodes : NodesBlock) (n : ℕ) (aFromEnd : Bool) :
    (h.more k).mSplitBlockAndUpdateList nodes n aFromEnd =
      (h.mSplitBlockAndUpdateList nodes n aFromEnd).map fun x => (x.1, x.2.more k) := by
  have hinsert : ∀ (g : Heap) (rest who : ℕ),
      (do
        let h ← (g.more k).mInsertIntoFreeList rest nodes.2
        return (who, h) : Except Fault (ℕ × Heap)) =
      (do
        let h ← g.mInsertIntoFreeList rest nodes.2
        return (who, h) : Except Fault (ℕ × Heap)).map fun x => (x.1, x.2.more k) := by
    intro g rest who
    rw [mInsertIntoFreeList_more]
    cases g.mInsertIntoFreeList rest nodes.2 <;> rfl
  have hsize : (h.more k).size nodes.1 = h.size nodes.1 := rfl
  unfold mSplitBlockAndUpdateList mSplitInto2Block
  rw [hsize]
  by_cases hlarge : n + 2 * sizeOfBlockNode < h.size nodes.1
  · rw [if_pos hlarge, if_pos hlarge]
    cases aFromEnd with
    | false =>
      let m := nodes.1 + n + sizeOfBlockNode
      exact hinsert (((h.setNode m BlockNode.new).mSetBlockSize m
        (h.size nodes.1 - n - sizeOfBlockNode)).mSetBlockSize nodes.1 n) m nodes.1
    | true =>
      let m := nodes.1 + h.size nodes.1 - n
      exact hinsert (((h.setNode m BlockNode.new).mSetBlockSize nodes.1
        (h.size nodes.1 - n - sizeOfBlockNode)).mSetBlockSize m n) nodes.1 m
  · rw [if_neg hlarge, if_neg hlarge]
    rfl

end

/-- The block `f` has `s₁` bytes from now on, and a new one at `m` has `s₂` and follows it. -/
structure CutAt (h h' : Heap) (f m s₁ s₂ : ℕ) : Prop where
  node : ∀ c, c ≠ f → c ≠ m → h'.node c = h.node c
  size_self : h'.size f = s₁
  next_self : h'.next f = offsetOf m
  size_new : h'.size m = s₂
  next_new : h'.next m = h.next f
  freeBytesRemaining : h'.freeBytesRemaining = h.freeBytesRemaining - sizeOfBlockNode
  maxSize : h'.maxSize = h.maxSize
  first : h'.first = h.first
  firstNode : h'.firstNode = h.firstNode

/-- What `splitAt` does, but for the count of the free bytes. -/
theorem splitAt_cutAt {f aOffset : ℕ} (hroom : f + sizeOfBlockNode + sizeOfBlockNode ≤ aOffset)
    (hcount : sizeOfBlockNode ≤ h.freeBytesRemaining) :
    ∃ h', h.splitAt f aOffset = ((aOffset - sizeOfBlockNode, some f), h'.more sizeOfBlockNode) ∧
      CutAt h h' f (aOffset - sizeOfBlockNode) (aOffset - (f + sizeOfBlockNode) - sizeOfBlockNode)
        (h.size f - (aOffset - (f + sizeOfBlockNode))) := by
  have hsixteen : sizeOfBlockNode = 16 := rfl
  have hlink : f + aOffset - (f + sizeOfBlockNode) = aOffset - sizeOfBlockNode := by omega
  have hmf : aOffset - sizeOfBlockNode ≠ f := by omega
  let h' : Heap := { (h.splitAt f aOffset).2 with
    freeBytesRemaining := h.freeBytesRemaining - sizeOfBlockNode }
  refine ⟨h', ?_, fun c hcf hcm => ?_, ?_, ?_, ?_, ?_, rfl, rfl, rfl, rfl⟩
  · have hheap : h'.more sizeOfBlockNode = (h.splitAt f aOffset).2 :=
      congrArg (fun c => { (h.splitAt f aOffset).2 with freeBytesRemaining := c })
        (Nat.sub_add_cancel hcount)
    have hfst : (h.splitAt f aOffset).1 = (aOffset - sizeOfBlockNode, some f) :=
      congrArg (·, some f) hlink
    rw [hheap, ← hfst]
  · rw [← hlink] at hcm
    exact (node_setNode_of_ne hcf _).trans ((node_setNode_of_ne hcm _).trans
      ((node_setNode_of_ne hcf _).trans (node_setNode_of_ne hcm _)))
  · exact (size_mSetNextNode f f _).trans
      ((size_mSetNextNode _ f _).trans (size_mSetBlockSize_self f _))
  · rw [← hlink]
    exact next_mSetNextNode_self f _
  · rw [← hlink] at hmf ⊢
    refine (size_mSetNextNode f _ _).trans ((size_mSetNextNode _ _ _).trans
      ((size_mSetBlockSize_of_ne hmf _).trans ?_))
    unfold size
    rw [node_setNode_self]
    rfl
  · rw [← hlink] at hmf ⊢
    refine (next_mSetNextNode_of_ne hmf _).trans ((next_mSetNextNode_self _ _).trans
      ((next_mSetBlockSize f f _).trans ?_))
    exact congrArg BlockNode.nextNode (node_setNode_of_ne hmf.symm _)

/-- The new block is linked behind the one that it was a part of. -/
theorem Tiled.linked_cutAt (ht : Tiled h (A ++ f :: B) used) (hf : used f = false) {h' : Heap}
    {m s₁ s₂ : ℕ} (hcut : CutAt h h' f m s₁ s₂) (hnew : m ∉ A ++ f :: B) :
    Linked offsetOf h'.next h'.firstNode (A.filter (!used ·) ++ f :: m :: B.filter (!used ·))
      nullOffset := by
  have hlinked := ht.linked
  have hnodup := ht.nodup.filter (!used ·)
  rw [filter_middle hf, List.append_cons] at hlinked hnodup
  have hfresh : m ∉ A.filter (!used ·) ++ [f] ++ B.filter (!used ·) := by
    rw [← List.append_cons, ← filter_middle hf]
    exact fun hmem => hnew (List.mem_of_mem_filter hmem)
  have hinsert := hlinked.insert h'.next hnodup hfresh
  rw [List.getLast?_concat, if_neg (by simp)] at hinsert
  rw [List.append_cons, hcut.firstNode]
  refine hinsert hcut.next_new ?_ ?_
  · intro c hc
    cases hc
    exact hcut.next_self
  · intro c hc hcf
    have hne : c ≠ f := fun heq => hcf (heq ▸ rfl)
    exact congrArg BlockNode.nextNode (hcut.node c hne (ne_of_mem_of_not_mem hc hfresh))

/-- A free block becomes two. -/
theorem Tiled.splitAt (ht : Tiled h (A ++ f :: B) used) (hf : used f = false) {aOffset : ℕ}
    (hroom : f + sizeOfBlockNode + sizeOfBlockNode ≤ aOffset)
    (hsize : aOffset - (f + sizeOfBlockNode) ≤ h.size f) (hdvd : alignment ∣ aOffset - f) :
    ∃ h', h.splitAt f aOffset = ((aOffset - sizeOfBlockNode, some f), h'.more sizeOfBlockNode) ∧
      Tiled h' (A ++ f :: (aOffset - sizeOfBlockNode) :: B)
        (Function.update used (aOffset - sizeOfBlockNode) false) ∧
      aOffset - sizeOfBlockNode ∉ A ++ f :: B ∧
      h'.size (aOffset - sizeOfBlockNode) = h.size f - (aOffset - (f + sizeOfBlockNode)) ∧
      (∀ c, c ≠ f → c ≠ aOffset - sizeOfBlockNode → h'.node c = h.node c) ∧
      h'.maxSize = h.maxSize ∧ h'.first = h.first := by
  have hsixteen : sizeOfBlockNode = 16 := rfl
  have hremaining := ht.remaining
  rw [filter_middle hf, sum_middle] at hremaining
  obtain ⟨h', hmore, hcut⟩ := splitAt_cutAt (h := h) hroom (by omega)
  generalize hs₁ : aOffset - (f + sizeOfBlockNode) - sizeOfBlockNode = s₁ at hcut
  generalize hs₂ : h.size f - (aOffset - (f + sizeOfBlockNode)) = s₂ at hcut ⊢
  generalize hmo : aOffset - sizeOfBlockNode = m at hmore hcut ⊢
  have hm : f + sizeOfBlockNode + s₁ = m := by omega
  obtain ⟨hothers, hnew⟩ := ht.not_inside (m := m) (by omega) (by unfold endOf; omega)
  have hsizeAB : ∀ c ∈ A ++ B, h'.size c = h.size c := fun c hc =>
    congrArg BlockNode.blockSize (hcut.node c (hothers c hc).1 (hothers c hc).2)
  have hfilter : (A ++ f :: m :: B).filter (!Function.update used m false ·) =
      A.filter (!used ·) ++ f :: m :: B.filter (!used ·) := by
    have hnew := hnew
    rw [List.mem_append, List.mem_cons, not_or, not_or] at hnew
    have hf' : Function.update used m false f = false := by
      rw [Function.update_of_ne (Ne.symm hnew.2.1), hf]
    rw [filter_middle hf', List.filter_cons, Function.update_self,
      filter_update_of_not_mem hnew.1, filter_update_of_not_mem hnew.2.2]
    rfl
  refine ⟨h', hmore, ⟨hcut.maxSize ▸ ht.bound, ?_, ?_, ?_, ?_⟩, hnew, hcut.size_new, hcut.node,
    hcut.maxSize, hcut.first⟩
  · have hsum : h.size f = s₁ + sizeOfBlockNode + s₂ := by omega
    have htiles := tiles_split ht.tiles hsum hcut.size_self (by rw [hm]; exact hcut.size_new)
      hsizeAB
    rw [hm] at htiles
    rw [hcut.first, hcut.maxSize]
    exact htiles
  · rw [hfilter]
    exact ht.linked_cutAt hf hcut hnew
  · intro c hc
    have hda := ht.aligned f (by simp)
    unfold alignment at hda hdvd ⊢
    rcases List.mem_append.1 hc with hcA | hc
    · rw [hsizeAB c (List.mem_append_left B hcA)]
      exact ht.aligned c (List.mem_append_left _ hcA)
    · rcases List.mem_cons.1 hc with rfl | hc
      · rw [hcut.size_self]
        omega
      · rcases List.mem_cons.1 hc with rfl | hcB
        · rw [hcut.size_new]
          omega
        · rw [hsizeAB c (List.mem_append_right A hcB)]
          exact ht.aligned c (by simp [hcB])
  · have hsum : (A.filter (!used ·) ++ B.filter (!used ·)).map h'.size =
        (A.filter (!used ·) ++ B.filter (!used ·)).map h.size := by
      rw [← List.filter_append]
      exact List.map_congr_left fun c hc => hsizeAB c (List.mem_of_mem_filter hc)
    rw [hcut.freeBytesRemaining, hfilter, sum_middle, sum_middle, hsum, hcut.size_self,
      hcut.size_new]
    omega

end Heap

end UdtKernel.SharedAllocator
