import UdtKernel.SharedAllocator.Insert
import UdtKernel.SharedAllocator.Reserve
import UdtKernel.SharedAllocator.Heap
import UdtKernel.SharedAllocator.SlotTable

set_option autoImplicit false

/-! The blocks of a process, each of which is in the slot that it tells, and the parts of a reserve:
what a join and a split make of them. -/

namespace UdtKernel.SharedAllocator
open UdtKernel.Lib

/-- The used slots of a process are those of its blocks. -/
structure Slots (n : ProcessNode) (slotOf : ℕ → ℕ) (blocks : List ℕ) : Prop where
  threaded : ∃ free, n.Threaded free
  holds : ∀ b ∈ blocks,
    n.IsUsed (slotOf b) ∧ n.offsets (slotOf b) = offsetOf (b + sizeOfBlockNode)
  held : ∀ i, n.IsUsed i → ∃ b ∈ blocks, slotOf b = i

namespace Slots

variable {n : ProcessNode} {slotOf slotOf' : ℕ → ℕ} {blocks blocks' : List ℕ}

theorem congr (h : Slots n slotOf blocks) (hslot : ∀ b ∈ blocks, slotOf' b = slotOf b)
    (hmem : ∀ b, b ∈ blocks' ↔ b ∈ blocks) : Slots n slotOf' blocks' := by
  refine ⟨h.threaded, fun b hb => ?_, fun i hi => ?_⟩
  · rw [hslot b ((hmem b).1 hb)]
    exact h.holds b ((hmem b).1 hb)
  · obtain ⟨b, hb, heq⟩ := h.held i hi
    exact ⟨b, (hmem b).2 hb, (hslot b hb).trans heq⟩

theorem grow {n' : ProcessNode} {free : List ℕ} (h : Slots n slotOf blocks)
    (hthreaded : n'.Threaded free) (hsame : n.SameBlocks n') : Slots n' slotOf blocks := by
  refine ⟨⟨free, hthreaded⟩, fun b hb => ?_, fun i hi => h.held i (hsame.2 i hi)⟩
  obtain ⟨hused, hoffset⟩ := h.holds b hb
  obtain ⟨hused', hsame⟩ := hsame.1 _ hused
  exact ⟨hused', hsame.trans hoffset⟩

theorem withUsedUp (h : Slots n slotOf blocks) (usedUpReserv : ℕ) :
    Slots { n with usedUpReserv } slotOf blocks := by
  obtain ⟨free, ht⟩ := h.threaded
  exact ⟨⟨free, ht.chain, ht.size, ht.length⟩, h.holds, h.held⟩

theorem offsetOf_inj {a b : ℕ} (ha : a + sizeOfBlockNode < 2 ^ 63)
    (hb : b + sizeOfBlockNode < 2 ^ 63)
    (heq : offsetOf (a + sizeOfBlockNode) = offsetOf (b + sizeOfBlockNode)) : a = b := by
  have hnat := congrArg BitVec.toNat heq
  unfold offsetOf at hnat
  rw [toNat_ofNat ha, toNat_ofNat hb] at hnat
  exact Nat.add_right_cancel hnat

/-- A slot tells one block only. -/
theorem inj (h : Slots n slotOf blocks) (hbound : ∀ b ∈ blocks, b + sizeOfBlockNode < 2 ^ 63)
    {a b : ℕ} (ha : a ∈ blocks) (hb : b ∈ blocks) (heq : slotOf a = slotOf b) : a = b := by
  have hoffset := (h.holds a ha).2
  rw [heq, (h.holds b hb).2] at hoffset
  exact (offsetOf_inj (hbound b hb) (hbound a ha) hoffset).symm

/-- One more block, in a free slot. -/
theorem put (h : Slots n slotOf blocks) {i m : ℕ} {free : List ℕ} (ht : n.Threaded (i :: free))
    (hm : m + sizeOfBlockNode < 2 ^ 63) (hslot : slotOf' m = i)
    (hsame : ∀ b ∈ blocks, slotOf' b = slotOf b)
    (hmem : ∀ b, b ∈ blocks' ↔ b = m ∨ b ∈ blocks) :
    ∃ n', n.mPutOffset (offsetOf (m + sizeOfBlockNode)) = .ok (i, n') ∧
      Slots n' slotOf' blocks' ∧ n.SameAccount n' := by
  have hnull := isNullOffset_ofNat hm
  obtain ⟨n', hput, hthreaded, hsize, hfree, hoffsets, haccount⟩ := ht.put hnull
  have hused := ProcessNode.isUsed_update hfree.1 hnull hsize hoffsets
  have hnot : ¬ n.IsUsed i := by
    rintro ⟨-, hfull⟩
    rw [hfree.2] at hfull
    cases hfull
  refine ⟨n', hput, ⟨⟨free, hthreaded⟩, fun b hb => ?_, fun j hj => ?_⟩, haccount⟩
  · rcases (hmem b).1 hb with rfl | hb
    · rw [hslot, hoffsets, Function.update_self]
      exact ⟨(hused i).2 (Or.inl rfl), rfl⟩
    · obtain ⟨hold, hoffset⟩ := h.holds b hb
      have hne : slotOf b ≠ i := fun heq => hnot (heq ▸ hold)
      rw [hsame b hb, hoffsets, Function.update_of_ne hne]
      exact ⟨(hused _).2 (Or.inr hold), hoffset⟩
  · rcases (hused j).1 hj with rfl | hj
    · exact ⟨m, (hmem m).2 (Or.inl rfl), hslot⟩
    · obtain ⟨b, hb, heq⟩ := h.held j hj
      exact ⟨b, (hmem b).2 (Or.inr hb), (hsame b hb).trans heq⟩

/-- A block is given up. -/
theorem pop (h : Slots n slotOf blocks) (hbound : ∀ b ∈ blocks, b + sizeOfBlockNode < 2 ^ 63)
    {b : ℕ} (hb : b ∈ blocks) (hmem : ∀ c, c ∈ blocks' ↔ c ≠ b ∧ c ∈ blocks) :
    ∃ n', n.mPopOffsetById (slotOf b) = .ok n' ∧ Slots n' slotOf blocks' ∧ n.SameAccount n' := by
  obtain ⟨free, ht⟩ := h.threaded
  obtain ⟨n', hpop, hthreaded, hsize, haccount, v, hoffsets⟩ := ht.pop (h.holds b hb).1
  have hused : ∀ j, j ≠ slotOf b → (n'.IsUsed j ↔ n.IsUsed j) := by
    intro j hj
    unfold ProcessNode.IsUsed
    rw [hsize, hoffsets, Function.update_of_ne hj]
  refine ⟨n', hpop, ⟨⟨_, hthreaded⟩, fun c hc => ?_, fun j hj => ?_⟩, haccount⟩
  · obtain ⟨hcb, hc⟩ := (hmem c).1 hc
    have hne : slotOf c ≠ slotOf b := fun heq => hcb (h.inj hbound hc hb heq)
    rw [hused _ hne, hoffsets, Function.update_of_ne hne]
    exact h.holds c hc
  · have hne : j ≠ slotOf b := by
      rintro rfl
      have hfull := hj.2
      rw [hoffsets, Function.update_self, isNullOffset_set] at hfull
      cases hfull
    obtain ⟨c, hc, heq⟩ := h.held j ((hused j hne).1 hj)
    exact ⟨c, (hmem c).2 ⟨fun hcb => hne (heq ▸ hcb ▸ rfl), hc⟩, heq⟩

end Slots

theorem getLsbD_one_shiftLeft {bit : ℕ} (hbit : bit < 64) (i : ℕ) :
    (1#64 <<< bit).getLsbD i = decide (bit = i) := by
  change (BitVec.twoPow 64 bit).getLsbD i = _
  rw [BitVec.getLsbD_twoPow]
  by_cases h : bit = i
  · subst h
    simp [hbit]
  · simp [h]

theorem getFlag_eq {bit : ℕ} (hbit : bit < 64) (w : Offset) : getFlag w bit = w.getLsbD bit := by
  unfold getFlag
  change (w &&& BitVec.twoPow 64 bit != 0) = _
  rw [BitVec.and_twoPow]
  cases w.getLsbD bit with
  | false => rfl
  | true =>
    rw [if_pos rfl, bne_iff_ne]
    intro hzero
    have hone := congrArg (fun v : BitVec 64 => v.getLsbD bit) hzero
    rw [BitVec.getLsbD_twoPow] at hone
    simp [hbit] at hone

theorem getLsbD_setFlag {bit : ℕ} (hbit : bit < 64) (w : Offset) (v : Bool) (i : ℕ) :
    (setFlag w bit v).getLsbD i = if i = bit then v else w.getLsbD i := by
  unfold setFlag
  cases v with
  | true =>
    rw [if_pos rfl, BitVec.getLsbD_or, getLsbD_one_shiftLeft hbit]
    by_cases h : i = bit
    · simp [h]
    · simp [h, Ne.symm h]
  | false =>
    rw [if_neg Bool.false_ne_true, BitVec.getLsbD_and, BitVec.getLsbD_not,
      getLsbD_one_shiftLeft hbit]
    by_cases h : i = bit
    · simp [h]
    · by_cases hi : i < 64
      · simp [h, Ne.symm h, hi]
      · have hge : 64 ≤ i := by omega
        simp [h, hi, BitVec.getLsbD_of_ge w i hge]

theorem getIndexOfOffset_setFlag {bit : ℕ} (hlow : 16 ≤ bit) (hbit : bit < 64) (w : Offset)
    (v : Bool) : getIndexOfOffset (setFlag w bit v) = getIndexOfOffset w := by
  unfold getIndexOfOffset
  apply BitVec.eq_of_getLsbD_eq
  intro i hi
  have hne : i ≠ bit := by omega
  rw [BitVec.getLsbD_setWidth, BitVec.getLsbD_setWidth, BitVec.getLsbD_and, BitVec.getLsbD_and,
    getLsbD_setFlag hbit, if_neg hne]

theorem getFlag_setIndexOfOffset {bit : ℕ} (hlow : 16 ≤ bit) (hbit : bit < 64) (w : Offset)
    (v : Index) : getFlag (setIndexOfOffset w v) bit = getFlag w bit := by
  rw [getFlag_eq hbit, getFlag_eq hbit]
  unfold setIndexOfOffset
  rw [BitVec.getLsbD_or, BitVec.getLsbD_and, BitVec.getLsbD_not, BitVec.getLsbD_setWidth,
    BitVec.getLsbD_of_ge v bit hlow]
  have hmask : BitVec.getLsbD (0xFFFF : Offset) bit = false := by
    revert hlow
    revert bit
    decide
  rw [hmask, decide_eq_true hbit]
  simp

namespace BlockNode

variable (b : BlockNode)

theorem isReserved_setFlags (reserved reserveFree : Bool) :
    (b.setFlags reserved reserveFree).isReserved = reserved := by
  unfold isReserved setFlags
  rw [getFlag_eq (by decide), getLsbD_setFlag (by decide), if_neg (by decide),
    getLsbD_setFlag (by decide), if_pos rfl]

theorem isReserveFree_setFlags (reserved reserveFree : Bool) :
    (b.setFlags reserved reserveFree).isReserveFree = reserveFree := by
  unfold isReserveFree setFlags
  rw [getFlag_eq (by decide), getLsbD_setFlag (by decide), if_pos rfl]

theorem index_setFlags (reserved reserveFree : Bool) :
    (b.setFlags reserved reserveFree).index = b.index := by
  unfold index setFlags
  rw [getIndexOfOffset_setFlag (by decide) (by decide),
    getIndexOfOffset_setFlag (by decide) (by decide)]

theorem isReserved_setIndex (i : Index) : (b.setIndex i).isReserved = b.isReserved :=
  getFlag_setIndexOfOffset (by decide) (by decide) _ _

theorem isReserveFree_setIndex (i : Index) : (b.setIndex i).isReserveFree = b.isReserveFree :=
  getFlag_setIndexOfOffset (by decide) (by decide) _ _

theorem index_setIndex (i : Index) : (b.setIndex i).index = i :=
  getIndexOfOffset_set _ _

end BlockNode

def Heap.slotOf (h : Heap) (b : ℕ) : ℕ := (h.node b).index.toNat

namespace Heap

/-- `a` was free, has `n` bytes from now on, and another block has what is behind them. -/
def cutSizes (h : Heap) (a n : ℕ) : Heap :=
  (((h.mAllocate a false).setNode (a + n + sizeOfBlockNode) .new).mSetBlockSize
    (a + n + sizeOfBlockNode) (h.size a - n - sizeOfBlockNode)).mSetBlockSize a n

/-- Besides, both blocks are of the reserve, the second one free in the slot `i`. -/
def cut (h : Heap) (a n i : ℕ) : Heap :=
  let h₁ := (h.cutSizes a n).setNode (a + n + sizeOfBlockNode)
    { ((h.cutSizes a n).node (a + n + sizeOfBlockNode)).setFlags true true with
      isAllocated := true }
  let h₂ := h₁.setNode (a + n + sizeOfBlockNode)
    ((h₁.node (a + n + sizeOfBlockNode)).setIndex (BitVec.ofNat 16 i))
  h₂.setNode a { (h₂.node a).setFlags true false with isAllocated := true }

variable {h : Heap} {a n i : ℕ}

theorem ne_rest : a ≠ a + n + sizeOfBlockNode := by
  unfold sizeOfBlockNode
  omega

theorem node_cutSizes_self : (h.cutSizes a n).node a =
    { h.node a with blockSize := n, isAllocated := false } := by
  refine (node_setNode_self a _).trans ?_
  have hold : (((h.mAllocate a false).setNode (a + n + sizeOfBlockNode) .new).mSetBlockSize
      (a + n + sizeOfBlockNode) (h.size a - n - sizeOfBlockNode)).node a =
      { h.node a with isAllocated := false } := by
    refine (node_setNode_of_ne ne_rest _).trans ?_
    exact (node_setNode_of_ne ne_rest _).trans (node_setNode_self a _)
  rw [hold]
  rfl

theorem node_cutSizes_rest : (h.cutSizes a n).node (a + n + sizeOfBlockNode) =
    { BlockNode.new with blockSize := h.size a - n - sizeOfBlockNode } := by
  refine (node_setNode_of_ne ne_rest.symm _).trans ((node_setNode_self _ _).trans ?_)
  rw [node_setNode_self]
  rfl

theorem node_cut_of_ne {c : ℕ} (hca : c ≠ a) (hcm : c ≠ a + n + sizeOfBlockNode) :
    (h.cut a n i).node c = h.node c := by
  have hsizes : (h.cutSizes a n).node c = h.node c := by
    refine (node_setNode_of_ne hca _).trans ((node_setNode_of_ne hcm _).trans ?_)
    exact (node_setNode_of_ne hcm _).trans (node_setNode_of_ne hca _)
  refine (node_setNode_of_ne hca _).trans ((node_setNode_of_ne hcm _).trans ?_)
  exact (node_setNode_of_ne hcm _).trans hsizes

theorem node_cut_self : (h.cut a n i).node a =
    { ({ h.node a with blockSize := n, isAllocated := false } : BlockNode).setFlags true false with
      isAllocated := true } := by
  refine (node_setNode_self a _).trans ?_
  rw [node_setNode_of_ne ne_rest, node_setNode_of_ne ne_rest, node_cutSizes_self]

theorem node_cut_rest : (h.cut a n i).node (a + n + sizeOfBlockNode) = BlockNode.setIndex
    { ({ BlockNode.new with
        blockSize := h.size a - n - sizeOfBlockNode } : BlockNode).setFlags true true with
      isAllocated := true } (BitVec.ofNat 16 i) := by
  refine (node_setNode_of_ne ne_rest.symm _).trans ((node_setNode_self _ _).trans ?_)
  rw [node_setNode_self, node_cutSizes_rest]

theorem size_cut_self : (h.cut a n i).size a = n := by
  unfold size
  rw [node_cut_self]
  rfl

theorem size_cut_rest : (h.cut a n i).size (a + n + sizeOfBlockNode) =
    h.size a - n - sizeOfBlockNode := by
  unfold size
  rw [node_cut_rest]
  rfl

theorem slotOf_cut_self : (h.cut a n i).slotOf a = h.slotOf a := by
  unfold slotOf
  rw [node_cut_self]
  exact congrArg BitVec.toNat (BlockNode.index_setFlags
    { h.node a with blockSize := n, isAllocated := false } true false)

theorem slotOf_cut_rest (hi : i < 2 ^ 16) : (h.cut a n i).slotOf (a + n + sizeOfBlockNode) = i := by
  unfold slotOf
  rw [node_cut_rest, BlockNode.index_setIndex, BitVec.toNat_ofNat]
  exact Nat.mod_eq_of_lt hi

end Heap

def freeBytes (size : ℕ → ℕ) (used : ℕ → Bool) (parts : List ℕ) : ℕ :=
  ((parts.filter (!used ·)).map size).sum

theorem freeBytes_cons (size : ℕ → ℕ) (used : ℕ → Bool) (a : ℕ) (l : List ℕ) :
    freeBytes size used (a :: l) = (if used a then 0 else size a) + freeBytes size used l := by
  unfold freeBytes
  rw [List.filter_cons]
  cases used a <;> simp

theorem freeBytes_append (size : ℕ → ℕ) (used : ℕ → Bool) (l₁ l₂ : List ℕ) :
    freeBytes size used (l₁ ++ l₂) = freeBytes size used l₁ + freeBytes size used l₂ := by
  unfold freeBytes
  rw [List.filter_append, List.map_append, List.sum_append]

theorem freeBytes_congr {size size' : ℕ → ℕ} {used used' : ℕ → Bool} {l : List ℕ}
    (h : ∀ b ∈ l, size' b = size b ∧ used' b = used b) :
    freeBytes size' used' l = freeBytes size used l := by
  induction l with
  | nil => rfl
  | cons a l ih =>
    obtain ⟨hsize, hused⟩ := h a List.mem_cons_self
    rw [freeBytes_cons, freeBytes_cons, hsize, hused,
      ih fun b hb => h b (List.mem_cons_of_mem a hb)]

/-- The parts that are not used leave out the headers of all of them. -/
theorem freeBytes_le {h : Heap} {p q : ℕ} {l : List ℕ} (hl : Linked id h.endOf p l q)
    (used : ℕ → Bool) : p + freeBytes h.size used l + sizeOfBlockNode * l.length ≤ q := by
  induction l generalizing p with
  | nil => exact Nat.le_of_eq hl
  | cons a l ih =>
    obtain ⟨hp, htail⟩ := hl
    have hp : p = a := hp
    have hle := ih htail
    unfold Heap.endOf at hle
    rw [freeBytes_cons, List.length_cons, Nat.mul_succ]
    split_ifs <;> omega

namespace Reserve

variable {r : Reserve} {start size : ℕ} {A B parts : List ℕ} {used : ℕ → Bool} {a b n : ℕ}

/-- The block of the reserve in its parts, each in a slot of the process. -/
structure Parts (r : Reserve) (start size : ℕ) (parts : List ℕ) (used : ℕ → Bool) : Prop where
  slots : Slots r.process r.heap.slotOf parts
  tiles : Linked id r.heap.endOf start parts (start + sizeOfBlockNode + size)
  bound : start + sizeOfBlockNode + size < 2 ^ 63
  small : size < 2 ^ 32
  reserved : ∀ b ∈ parts, (r.heap.node b).isReserved = true
  account : r.process.usedUpReserv + freeBytes r.heap.size used parts = size
  limit : r.process.sizeOfReserv = size

def Told (r : Reserve) (parts : List ℕ) (used : ℕ → Bool) : Prop :=
  ∀ b ∈ parts, (r.heap.node b).isReserveFree = !used b

theorem Parts.lt_bound (h : Parts r start size parts used) :
    ∀ b ∈ parts, b + sizeOfBlockNode < 2 ^ 63 := by
  intro b hb
  have hle := (h.tiles.bounds Heap.lt_endOf b hb).2
  have hbound := h.bound
  unfold Heap.endOf at hle
  omega

theorem Parts.nodup (h : Parts r start size parts used) : parts.Nodup :=
  (h.tiles.pairwise Heap.lt_endOf).imp fun hab =>
    Nat.ne_of_lt (Nat.lt_of_lt_of_le (Heap.lt_endOf _) hab)

theorem Parts.not_mem (h : Parts r start size (A ++ a :: B) used) : a ∉ A ∧ a ∉ B := by
  have hnodup := h.nodup
  rw [List.nodup_middle, List.nodup_cons, List.mem_append, not_or] at hnodup
  exact hnodup.1

theorem sub_eq {u v : ℕ} (hv : v ≤ u) (hu : u < 2 ^ 32) :
    (u + (2 ^ 32 - v % 2 ^ 32)) % 2 ^ 32 = u - v := by
  omega

/-- A free part takes in the free one behind it. -/
theorem Parts.join (h : Parts r start size (A ++ a :: b :: B) used) (ha : used a = false)
    (hb : used b = false) :
    ∃ r', r.join a b = .ok r' ∧ Parts r' start size (A ++ a :: B) used ∧
      r'.heap.next = r.heap.next := by
  obtain ⟨haA, haB⟩ := h.not_mem
  rw [List.mem_cons, not_or] at haB
  obtain ⟨hab, haB⟩ := haB
  have hb' : Parts r start size ((A ++ [a]) ++ b :: B) used := by
    rw [List.append_assoc]
    exact h
  obtain ⟨hbA, hbB⟩ := hb'.not_mem
  rw [List.mem_append, List.mem_singleton, not_or] at hbA
  have hmem : ∀ c, c ∈ A ++ a :: B ↔ c ≠ b ∧ c ∈ A ++ a :: b :: B := by
    intro c
    simp only [List.mem_append, List.mem_cons]
    constructor
    · rintro (hc | rfl | hc)
      · exact ⟨ne_of_mem_of_not_mem hc hbA.1, Or.inl hc⟩
      · exact ⟨hab, Or.inr (Or.inl rfl)⟩
      · exact ⟨ne_of_mem_of_not_mem hc hbB, Or.inr (Or.inr (Or.inr hc))⟩
    · rintro ⟨hcb, hc | hc | hc | hc⟩
      · exact Or.inl hc
      · exact Or.inr (Or.inl hc)
      · exact absurd hc hcb
      · exact Or.inr (Or.inr hc)
  obtain ⟨n', hpop, hslots, haccount⟩ := h.slots.pop h.lt_bound (by simp : b ∈ _) hmem
  have hle := freeBytes_le h.tiles used
  have hcount := h.account
  rw [List.length_append, List.length_cons, List.length_cons] at hle
  have hsub := sub_eq (u := r.process.usedUpReserv) (v := sizeOfBlockNode)
    (by unfold sizeOfBlockNode at hle ⊢; omega) (by have := h.small; omega)
  let r' : Reserve := {
    heap := r.heap.mSetBlockSize a (r.heap.size a + r.heap.size b + sizeOfBlockNode)
    process := { n' with usedUpReserv := r.process.usedUpReserv - sizeOfBlockNode } }
  have hsize : ∀ c, c ≠ a → r'.heap.size c = r.heap.size c := fun c hc =>
    Heap.size_mSetBlockSize_of_ne hc _
  have hsizeA : r'.heap.size a = r.heap.size a + r.heap.size b + sizeOfBlockNode :=
    Heap.size_mSetBlockSize_self a _
  have hnext : r'.heap.next = r.heap.next := funext fun c => Heap.next_mSetBlockSize a c _
  refine ⟨r', ?_, ⟨?_, ?_, h.bound, h.small, ?_, ?_, haccount.sizeOfReserv.trans h.limit⟩, hnext⟩
  · unfold Reserve.join mUnkeepBlock
    change (do
      let process ← r.process.mPopOffsetById (r.heap.slotOf b)
      pure _) >>= _ = _
    rw [hpop]
    change Except.ok _ = Except.ok _
    unfold subUsedUp
    dsimp only
    rw [haccount.usedUpReserv, hsub]
  · have hslot : r'.heap.slotOf = r.heap.slotOf := funext fun c =>
      congrArg (fun w => (getIndexOfOffset w).toNat) (congrFun hnext c)
    rw [hslot]
    exact hslots.withUsedUp _
  · refine Heap.tiles_join h.tiles hsizeA fun c hc => hsize c ?_
    exact (List.mem_append.1 hc).elim (ne_of_mem_of_not_mem · haA) (ne_of_mem_of_not_mem · haB)
  · intro c hc
    have hnode := congrArg (getFlag · reservedBit) (congrFun hnext c)
    exact Eq.trans hnode (h.reserved c ((hmem c).1 hc).2)
  · have hfree : freeBytes r'.heap.size used (A ++ a :: B) =
        freeBytes r.heap.size used (A ++ a :: b :: B) + sizeOfBlockNode := by
      rw [freeBytes_append, freeBytes_append, freeBytes_cons, freeBytes_cons, freeBytes_cons, ha,
        hb, hsizeA, freeBytes_congr fun c hc => ⟨hsize c (ne_of_mem_of_not_mem hc haA), rfl⟩,
        freeBytes_congr fun c hc => ⟨hsize c (ne_of_mem_of_not_mem hc haB), rfl⟩]
      simp only [Bool.false_eq_true, if_false]
      omega
    have hpos : sizeOfBlockNode ≤ r.process.usedUpReserv := by
      unfold sizeOfBlockNode at hle ⊢
      omega
    change r.process.usedUpReserv - sizeOfBlockNode + freeBytes r'.heap.size used _ = size
    rw [hfree]
    omega

theorem add_eq {u v : ℕ} (h : u + v < 2 ^ 32) : (u + v % 2 ^ 32) % 2 ^ 32 = u + v := by
  omega

/-- A free part is taken as it is. -/
theorem Parts.takeWhole (h : Parts r start size (A ++ a :: B) used)
    (htold : r.Told (A ++ a :: B) used)
    (ha : used a = false) (hn : r.heap.size a ≤ n + 2 * sizeOfBlockNode) :
    ∃ r', r.takeBlock a n = .ok r' ∧
      Parts r' start size (A ++ a :: B) (Function.update used a true) ∧
      r'.Told (A ++ a :: B) (Function.update used a true) := by
  obtain ⟨haA, haB⟩ := h.not_mem
  have hcount := h.account
  have hsmall := h.small
  have hfree : freeBytes r.heap.size used (A ++ a :: B) = freeBytes r.heap.size used A +
      (r.heap.size a + freeBytes r.heap.size used B) := by
    rw [freeBytes_append, freeBytes_cons, ha]
    rfl
  have hadd := add_eq (u := r.process.usedUpReserv) (v := r.heap.size a) (by omega)
  let h₁ := r.heap.mAllocate a false
  let r' : Reserve := {
    heap := h₁.setNode a { (h₁.node a).setFlags true false with isAllocated := true }
    process := { r.process with usedUpReserv := r.process.usedUpReserv + r.heap.size a } }
  have hself₁ : h₁.node a = { r.heap.node a with isAllocated := false } :=
    Heap.node_setNode_self a _
  have hself : r'.heap.node a = { (h₁.node a).setFlags true false with isAllocated := true } :=
    Heap.node_setNode_self a _
  have hnode : ∀ c, c ≠ a → r'.heap.node c = r.heap.node c := fun c hc =>
    (Heap.node_setNode_of_ne hc _).trans (Heap.node_setNode_of_ne hc _)
  have hsize : ∀ c, r'.heap.size c = r.heap.size c := by
    intro c
    unfold Heap.size
    by_cases hc : c = a
    · rw [hc, hself, hself₁]
      rfl
    · rw [hnode c hc]
  have hslot : ∀ c, r'.heap.slotOf c = r.heap.slotOf c := by
    intro c
    unfold Heap.slotOf
    by_cases hc : c = a
    · rw [hc, hself]
      have hindex := (h₁.node a).index_setFlags true false
      rw [hself₁] at hindex
      exact congrArg BitVec.toNat (hself₁ ▸ hindex)
    · rw [hnode c hc]
  refine ⟨r', ?_, ⟨?_, ?_, h.bound, h.small, ?_, ?_, h.limit⟩, ?_⟩
  · unfold takeBlock Heap.mSplitInto2Block addUsedUp
    dsimp only
    rw [Heap.size_mAllocate, hadd, if_neg (Nat.not_lt.2 hn)]
    rfl
  · exact (h.slots.congr (fun c _ => hslot c) fun _ => Iff.rfl).withUsedUp _
  · exact h.tiles.congr fun c _ => Heap.endOf_congr (hsize c)
  · intro c hc
    by_cases hca : c = a
    · rw [hca, hself]
      exact BlockNode.isReserved_setFlags _ _ _
    · rw [hnode c hca]
      exact h.reserved c hc
  · have hfree' : freeBytes r'.heap.size (Function.update used a true) (A ++ a :: B) =
        freeBytes r.heap.size used A + freeBytes r.heap.size used B := by
      rw [freeBytes_append, freeBytes_cons, Function.update_self, if_pos rfl, Nat.zero_add,
        freeBytes_congr fun c hc =>
          ⟨hsize c, Function.update_of_ne (ne_of_mem_of_not_mem hc haA) _ _⟩,
        freeBytes_congr fun c hc =>
          ⟨hsize c, Function.update_of_ne (ne_of_mem_of_not_mem hc haB) _ _⟩]
    change r.process.usedUpReserv + r.heap.size a + _ = size
    rw [hfree']
    omega
  · intro c hc
    by_cases hca : c = a
    · rw [hca, hself, Function.update_self]
      exact BlockNode.isReserveFree_setFlags _ _ _
    · rw [hnode c hca, Function.update_of_ne hca]
      exact htold c hc

def takeMark (used : ℕ → Bool) (a m : ℕ) : ℕ → Bool :=
  Function.update (Function.update used a true) m false

section
variable {m c : ℕ}

theorem takeMark_taken (hma : m ≠ a) : takeMark used a m a = true :=
  (Function.update_of_ne hma.symm _ _).trans (Function.update_self a _ _)

theorem takeMark_rest : takeMark used a m m = false := Function.update_self m _ _

theorem takeMark_of_ne (hc : c ≠ a ∧ c ≠ m) : takeMark used a m c = used c :=
  (Function.update_of_ne hc.2 _ _).trans (Function.update_of_ne hc.1 _ _)

theorem mem_taken_cases (hc : c ∈ A ++ a :: m :: B) :
    c = a ∨ c = m ∨ c ∈ A ++ B ∧ c ∈ A ++ a :: B := by
  simp only [List.mem_append, List.mem_cons] at hc ⊢
  tauto

end

/-- A part of which the first bytes are taken is where no other part begins. -/
theorem Parts.fresh (h : Parts r start size (A ++ a :: B) used)
    (hn : n + 2 * sizeOfBlockNode < r.heap.size a) :
    ∀ c ∈ A ++ B, c ≠ a ∧ c ≠ a + n + sizeOfBlockNode := by
  intro c hc
  have hsorted := h.tiles.pairwise Heap.lt_endOf
  rw [List.pairwise_append, List.pairwise_cons] at hsorted
  have hend : a + n + sizeOfBlockNode < r.heap.endOf a := by
    unfold Heap.endOf
    omega
  rcases List.mem_append.1 hc with hc | hc
  · have hle := hsorted.2.2 c hc a List.mem_cons_self
    have hlt := Heap.lt_endOf (h := r.heap) c
    omega
  · have hle := hsorted.2.1.1 c hc
    have hpos : 0 < sizeOfBlockNode := by decide
    omega

/-- A free block that is larger is cut, and its rest is put into a slot. -/
theorem takeBlock_eq_cut {n' : ProcessNode} {i : ℕ}
    (hn : n + 2 * sizeOfBlockNode < r.heap.size a)
    (hlt : r.process.usedUpReserv + r.heap.size a < 2 ^ 32)
    (hput : ({ r.process with usedUpReserv := r.process.usedUpReserv + r.heap.size a -
        (r.heap.size a - n - sizeOfBlockNode) } : ProcessNode).mPutOffset
      (offsetOf (a + n + sizeOfBlockNode + sizeOfBlockNode)) = .ok (i, n')) :
    r.takeBlock a n = .ok ⟨r.heap.cut a n i, n'⟩ := by
  have hadd := add_eq hlt
  have hsub := sub_eq (u := r.process.usedUpReserv + r.heap.size a)
    (v := r.heap.size a - n - sizeOfBlockNode) (by omega) hlt
  have hlarge : n + 2 * sizeOfBlockNode < (r.heap.mAllocate a false).size a := by
    rw [Heap.size_mAllocate]
    exact hn
  have hrest : (r.heap.cutSizes a n).size (a + n + sizeOfBlockNode) =
      r.heap.size a - n - sizeOfBlockNode := by
    unfold Heap.size
    rw [Heap.node_cutSizes_rest]
    rfl
  unfold takeBlock addUsedUp Heap.mSplitInto2Block
  dsimp only
  rw [if_pos hlarge, Heap.size_mAllocate, hadd]
  change (do
    let r' ← mKeepBlock ⟨(r.heap.cutSizes a n).setNode _ _, { r.process with usedUpReserv :=
      (r.process.usedUpReserv + r.heap.size a +
        (2 ^ 32 - (r.heap.cutSizes a n).size (a + n + sizeOfBlockNode) % 2 ^ 32)) % 2 ^ 32 }⟩
      (a + n + sizeOfBlockNode)
    pure (r'.setNode a { (r'.heap.node a).setFlags true false with isAllocated := true })) = _
  rw [hrest, hsub]
  unfold mKeepBlock
  dsimp only
  rw [hput]
  rfl

/-- The bytes that are free when the first `n` bytes of a free part are taken. -/
theorem freeBytes_cut {m i : ℕ} (hm : m = a + n + sizeOfBlockNode)
    (hnew : ∀ c ∈ A ++ B, c ≠ a ∧ c ≠ m) :
    freeBytes (r.heap.cut a n i).size (takeMark used a m) (A ++ a :: m :: B) =
      freeBytes r.heap.size used A +
        (r.heap.size a - n - sizeOfBlockNode + freeBytes r.heap.size used B) := by
  have hma : m ≠ a := hm ▸ (Heap.ne_rest (a := a) (n := n)).symm
  have hsize : ∀ c ∈ A ++ B, (r.heap.cut a n i).size c = r.heap.size c := fun c hc =>
    congrArg BlockNode.blockSize
      (Heap.node_cut_of_ne (hnew c hc).1 (hm ▸ (hnew c hc).2))
  have hkept : ∀ c ∈ A ++ B, (r.heap.cut a n i).size c = r.heap.size c ∧
      takeMark used a m c = used c := fun c hc => ⟨hsize c hc, takeMark_of_ne (hnew c hc)⟩
  rw [freeBytes_append, freeBytes_cons, freeBytes_cons, takeMark_taken hma, takeMark_rest,
    if_pos rfl, if_neg Bool.false_ne_true, Nat.zero_add,
    freeBytes_congr fun c hc => hkept c (List.mem_append_left B hc),
    freeBytes_congr fun c hc => hkept c (List.mem_append_right A hc), hm, Heap.size_cut_rest]

/-- The blocks that are not cut keep their slots. -/
theorem slotOf_cut_of_mem {c i : ℕ}
    (hnew : ∀ c ∈ A ++ B, c ≠ a ∧ c ≠ a + n + sizeOfBlockNode) (hc : c ∈ A ++ a :: B) :
    (r.heap.cut a n i).slotOf c = r.heap.slotOf c := by
  by_cases hca : c = a
  · rw [hca, Heap.slotOf_cut_self]
  · have hc' : c ∈ A ++ B := by
      simp only [List.mem_append, List.mem_cons] at hc ⊢
      tauto
    exact congrArg (fun b : BlockNode => b.index.toNat)
      (Heap.node_cut_of_ne (hnew c hc').1 (hnew c hc').2)

/-- A free part is taken, and what it has too much is kept. -/
theorem Parts.takeFirst (h : Parts r start size (A ++ a :: B) used)
    (htold : r.Told (A ++ a :: B) used) (ha : used a = false)
    (hn : n + 2 * sizeOfBlockNode < r.heap.size a) {i : ℕ} {free : List ℕ}
    (ht : r.process.Threaded (i :: free)) :
    ∃ r', r.takeBlock a n = .ok r' ∧
      Parts r' start size (A ++ a :: (a + sizeOfBlockNode + n) :: B)
        (takeMark used a (a + sizeOfBlockNode + n)) ∧
      r'.Told (A ++ a :: (a + sizeOfBlockNode + n) :: B)
        (takeMark used a (a + sizeOfBlockNode + n)) := by
  have hcount := h.account
  have hsmall := h.small
  have hsixteen : sizeOfBlockNode = 16 := rfl
  have hm : a + sizeOfBlockNode + n = a + n + sizeOfBlockNode := by omega
  rw [hm]
  let m := a + n + sizeOfBlockNode
  let s := r.heap.size a - n - sizeOfBlockNode
  have hma : m ≠ a := by omega
  have hs : r.heap.size a = n + sizeOfBlockNode + s := by omega
  have hnew : ∀ c ∈ A ++ B, c ≠ a ∧ c ≠ m := h.fresh hn
  have hfree : freeBytes r.heap.size used (A ++ a :: B) = freeBytes r.heap.size used A +
      (r.heap.size a + freeBytes r.heap.size used B) := by
    rw [freeBytes_append, freeBytes_cons, ha]
    rfl
  have hmbound : m + sizeOfBlockNode < 2 ^ 63 := by
    have hle := (h.tiles.bounds Heap.lt_endOf a (by simp)).2
    have hbound := h.bound
    unfold Heap.endOf at hle
    omega
  have hnode : ∀ c ∈ A ++ B, (r.heap.cut a n i).node c = r.heap.node c := fun c hc =>
    Heap.node_cut_of_ne (hnew c hc).1 (hnew c hc).2
  have hslotM : (r.heap.cut a n i).slotOf m = i := by
    refine Heap.slotOf_cut_rest ?_
    have hlt := ht.size
    have hchain := ((ht.chain.2.2 i).1 List.mem_cons_self).1
    have hnull : nullIndex.toNat = 65535 := rfl
    omega
  have hmem : ∀ c, c ∈ A ++ a :: m :: B ↔ c = m ∨ c ∈ A ++ a :: B := by
    intro c
    simp only [List.mem_append, List.mem_cons]
    tauto
  let process := { r.process with usedUpReserv := r.process.usedUpReserv + r.heap.size a - s }
  have ht' : process.Threaded (i :: free) := ⟨ht.chain, ht.size, ht.length⟩
  obtain ⟨n', hput, hslots', haccount⟩ :=
    (h.slots.withUsedUp _).put ht' hmbound hslotM (fun c hc => slotOf_cut_of_mem hnew hc) hmem
  refine ⟨⟨r.heap.cut a n i, n'⟩, takeBlock_eq_cut hn (by omega) hput,
    ⟨hslots', ?_, h.bound, h.small, ?_, ?_, haccount.sizeOfReserv.trans h.limit⟩, ?_⟩
  · have hsplit := Heap.tiles_split h.tiles hs Heap.size_cut_self
      (by rw [hm]; exact Heap.size_cut_rest (i := i))
      fun c hc => congrArg BlockNode.blockSize (hnode c hc)
    rw [hm] at hsplit
    exact hsplit
  · intro c hc
    change ((r.heap.cut a n i).node c).isReserved = true
    rcases mem_taken_cases hc with rfl | rfl | ⟨hc, hold⟩
    · rw [Heap.node_cut_self]
      exact BlockNode.isReserved_setFlags _ _ _
    · rw [Heap.node_cut_rest, BlockNode.isReserved_setIndex]
      exact BlockNode.isReserved_setFlags _ _ _
    · rw [hnode c hc]
      exact h.reserved c hold
  · have hused : n'.usedUpReserv = r.process.usedUpReserv + r.heap.size a - s :=
      haccount.usedUpReserv
    change n'.usedUpReserv + freeBytes (r.heap.cut a n i).size _ _ = size
    rw [hused, freeBytes_cut rfl hnew]
    omega
  · intro c hc
    change ((r.heap.cut a n i).node c).isReserveFree = !takeMark used a m c
    rcases mem_taken_cases hc with rfl | rfl | ⟨hc, hold⟩
    · rw [Heap.node_cut_self, takeMark_taken hma]
      exact BlockNode.isReserveFree_setFlags _ _ _
    · rw [Heap.node_cut_rest, BlockNode.isReserveFree_setIndex, takeMark_rest]
      exact BlockNode.isReserveFree_setFlags _ _ _
    · rw [hnode c hc, takeMark_of_ne (hnew c hc)]
      exact htold c hold

end Reserve

end UdtKernel.SharedAllocator
