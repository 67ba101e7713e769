import Mathlib.Data.List.Range
import Mathlib.Data.List.Perm.Subperm
import UdtKernel.Lib.Linked
import UdtKernel.Lib.Run
import UdtKernel.SharedAllocator.ProcessNode

set_option autoImplicit false

/-! A process node keeps its free slots in one chain, and its blocks know their slots. -/

namespace UdtKernel.SharedAllocator
open UdtKernel.Lib

/-- A process node, and `FNextNode` of the `block_node_t` before the data at an offset. -/
structure SlotTable where
  node : ProcessNode
  header : ℕ → Offset

namespace SlotTable

variable (t : SlotTable)

def mKeepBlock (o : ℕ) : Except Fault SlotTable := do
  let (index, node) ← t.node.mPutOffset (BitVec.ofNat 64 o)
  return {
    node
    header := Function.update t.header o
      (setIndexOfOffset (t.header o) (BitVec.ofNat 16 index)) }

def mUnkeepBlock (o : ℕ) : Except Fault SlotTable := do
  let node ← t.node.mPopOffsetById (getIndexOfOffset (t.header o)).toNat
  return { t with node }

/-- `MMallocImpl` makes room for an offset, and keeps the block that `MMallocBlock` found. -/
def malloc (block : Option (ℕ × Offset)) (isMemory : Bool) : Except Fault SlotTable := do
  let node ← t.node.mGetOrRealocateProcessNode 1 isMemory
  match block with
  | some (o, nextNode) => mKeepBlock ⟨node, Function.update t.header o nextNode⟩ o
  | none => return { t with node }

def create (aPid aReserv : ℕ) (reserv : Option (ℕ × Offset)) : Except Fault SlotTable :=
  let node := ProcessNode.new aPid defProcessSize aReserv
  match reserv with
  | some (o, nextNode) => mKeepBlock ⟨node, fun _ => nextNode⟩ o
  | none => .ok ⟨node, fun _ => nullOffset⟩

end SlotTable

inductive SlotStep where
  | malloc (block : Option (ℕ × Offset)) (isMemory : Bool)
  | unkeep (o : ℕ)

def slotStep : SlotStep → SlotTable → Except Fault SlotTable
  | .malloc block isMemory, t => t.malloc block isMemory
  | .unkeep o, t => t.mUnkeepBlock o

def freeBehind (w : Offset) (i : ℕ) : ℕ :=
  if getIndexOfOffset w = nullIndex then i + 1 else (getIndexOfOffset w).toNat

namespace ProcessNode

variable (n : ProcessNode)

def IsFree (i : ℕ) : Prop := i < n.arraySize ∧ isNullOffset (n.offsets i) = true

def IsUsed (i : ℕ) : Prop := i < n.arraySize ∧ isNullOffset (n.offsets i) = false

instance (i : ℕ) : Decidable (n.IsUsed i) := inferInstanceAs (Decidable (_ ∧ _))

def usedSlots : List ℕ := (List.range n.arraySize).filter fun i => decide (n.IsUsed i)

def nextFree (i : ℕ) : ℕ := freeBehind (n.offsets i) i

def SameBlocks (n' : ProcessNode) : Prop :=
  (∀ i, n.IsUsed i → n'.IsUsed i ∧ n'.offsets i = n.offsets i) ∧ ∀ i, n'.IsUsed i → n.IsUsed i

structure SameAccount (n n' : ProcessNode) : Prop where
  pid : n'.pid = n.pid
  sizeOfReserv : n'.sizeOfReserv = n.sizeOfReserv
  usedUpReserv : n'.usedUpReserv = n.usedUpReserv

def IsChain (free : List ℕ) : Prop :=
  free.Nodup ∧ Linked id n.nextFree n.minFreeIndex free n.arraySize ∧ ∀ i, i ∈ free ↔ n.IsFree i

end ProcessNode

def Holds (n : ProcessNode) (o : ℕ) : Prop := ∃ i, n.IsUsed i ∧ n.offsets i = BitVec.ofNat 64 o

instance (n : ProcessNode) (o : ℕ) : Decidable (Holds n o) :=
  decidable_of_iff (∃ i < n.arraySize, n.IsUsed i ∧ n.offsets i = BitVec.ofNat 64 o)
    ⟨fun ⟨i, _, h⟩ => ⟨i, h⟩, fun ⟨i, h⟩ => ⟨i, h.1.1, h⟩⟩

structure SlotTable.Sound (t : SlotTable) : Prop where
  chain : ∃ free, t.node.IsChain free
  count : t.node.alloactionCount = t.node.usedSlots.length
  count_le : t.node.alloactionCount ≤ t.node.arraySize
  index : ∀ i, t.node.IsUsed i →
    (getIndexOfOffset (t.header (t.node.offsets i).toNat)).toNat = i

/-- The offset went to a free slot, and the other slots kept theirs. -/
def SlotTable.PutsFree (t t' : SlotTable) (o : ℕ) : Prop :=
  ∃ i, i < t'.node.arraySize ∧ ¬ t.node.IsUsed i ∧ t'.node.offsets i = BitVec.ofNat 64 o ∧
    ∀ j, j ≠ i → t.node.IsUsed j → t'.node.IsUsed j ∧ t'.node.offsets j = t.node.offsets j

/-- The allocator keeps a block that is not kept, and gives up one that is. -/
def Performs (t : SlotTable) : SlotStep → Prop
  | .malloc (some (o, _)) isMemory =>
    o < 2 ^ 63 ∧ ¬ Holds t.node o ∧ (t.node.isFull 1 = true → isMemory = true)
  | .malloc none isMemory => t.node.isFull 1 = true → isMemory = true
  | .unkeep o => o < 2 ^ 63 ∧ Holds t.node o

instance (t : SlotTable) : (st : SlotStep) → Decidable (Performs t st)
  | .malloc (some (_, _)) _ => inferInstanceAs (Decidable (_ ∧ _))
  | .malloc none _ => inferInstanceAs (Decidable (_ → _))
  | .unkeep _ => inferInstanceAs (Decidable (_ ∧ _))

/-- A larger node has slots for indexes only. -/
def GrowsLittle (t : SlotTable) : SlotStep → Prop
  | .malloc _ _ => t.node.isFull 1 = true → arraySizeFor (t.node.requredMemory 1) < nullIndex.toNat
  | .unkeep _ => True

instance (t : SlotTable) : (st : SlotStep) → Decidable (GrowsLittle t st)
  | .malloc _ _ => inferInstanceAs (Decidable (_ → _))
  | .unkeep _ => isTrue trivial

theorem isNullOffset_ofNat {o : ℕ} (ho : o < 2 ^ 63) :
    isNullOffset (BitVec.ofNat 64 o) = false := by
  unfold isNullOffset
  rw [bne_eq_false_iff_eq]
  apply BitVec.eq_of_getLsbD_eq
  intro i hi
  rw [BitVec.getLsbD_and]
  change _ = (0#64).getLsbD i
  rw [BitVec.getLsbD_zero]
  by_cases hlast : i = 63
  · subst hlast
    rw [BitVec.getLsbD_ofNat, Nat.testBit_lt_two_pow ho]
    rfl
  · have hmask : nullOffset.getLsbD i = false := by
      revert hlast
      revert i
      decide
    rw [hmask, Bool.and_false]

theorem toNat_ofNat {o : ℕ} (ho : o < 2 ^ 63) : (BitVec.ofNat 64 o).toNat = o := by
  rw [BitVec.toNat_ofNat]
  exact Nat.mod_eq_of_lt (by omega)

namespace ProcessNode

variable {n : ProcessNode}

/-- The slots of a node that is not too large. -/
structure Threaded (n : ProcessNode) (free : List ℕ) : Prop where
  chain : n.IsChain free
  size : n.arraySize < nullIndex.toNat
  length : free.length + n.alloactionCount = n.arraySize

theorem firstFree_eq {i : ℕ} (h : n.IsFree i) : n.firstFree i = i := by
  obtain ⟨hlt, hnull⟩ := h
  unfold firstFree
  obtain ⟨k, hk⟩ := Nat.exists_eq_succ_of_ne_zero (by omega : n.arraySize - i ≠ 0)
  rw [hk, Nat.succ_eq_add_one, List.range'_succ, List.find?_cons, hnull]
  rfl

theorem Threaded.usedSlots_length {free : List ℕ} (h : n.Threaded free) :
    n.alloactionCount = n.usedSlots.length := by
  obtain ⟨hnodup, -, hmem⟩ := h.chain
  have hperm : free.Perm ((List.range n.arraySize).filter fun i => !decide (n.IsUsed i)) := by
    rw [List.perm_ext_iff_of_nodup hnodup (List.nodup_range.filter _)]
    intro i
    rw [hmem, List.mem_filter, List.mem_range, IsFree]
    unfold IsUsed
    constructor
    · rintro ⟨hlt, hnull⟩
      exact ⟨hlt, by simp [hnull]⟩
    · rintro ⟨hlt, hnull⟩
      simp only [hlt, true_and, Bool.not_eq_true', decide_eq_false_iff_not,
        Bool.not_eq_false] at hnull
      exact ⟨hlt, hnull⟩
  have hsplit := List.length_eq_length_filter_add (l := List.range n.arraySize)
    fun i => decide (n.IsUsed i)
  rw [List.length_range, ← hperm.length_eq] at hsplit
  have hlength := h.length
  unfold usedSlots
  omega

/-- An offset comes to the first slot of the chain. -/
theorem Threaded.put {free : List ℕ} {i : ℕ} (h : n.Threaded (i :: free)) {w : Offset}
    (hw : isNullOffset w = false) :
    ∃ n', n.mPutOffset w = .ok (i, n') ∧ n'.Threaded free ∧ n'.arraySize = n.arraySize ∧
      n.IsFree i ∧ n'.offsets = Function.update n.offsets i w ∧ n.SameAccount n' := by
  obtain ⟨⟨hnodup, ⟨hmin, hlinked⟩, hmem⟩, hsize, hlength⟩ := h
  obtain ⟨hnot, hnodup⟩ := List.nodup_cons.1 hnodup
  have hfree : n.IsFree i := (hmem i).1 List.mem_cons_self
  have hmin : n.minFreeIndex = i := hmin
  have hbound : nullIndex.toNat = 65535 := rfl
  have hlt := hfree.1
  have hnext : (if getIndexOfOffset (n.offsets i) = nullIndex then (i + 1) % 2 ^ 32
      else (getIndexOfOffset (n.offsets i)).toNat) = n.nextFree i := by
    unfold nextFree freeBehind
    split_ifs
    · exact Nat.mod_eq_of_lt (by omega)
    · rfl
  rw [List.length_cons] at hlength
  unfold mPutOffset
  dsimp only
  rw [hmin, firstFree_eq hfree, if_neg (Nat.not_le.2 hlt), hnext]
  refine ⟨_, rfl, ⟨⟨hnodup, ?_, ?_⟩, hsize, ?_⟩, rfl, hfree, rfl, ⟨rfl, rfl, rfl⟩⟩
  · refine hlinked.congr fun j hj => ?_
    have hne : j ≠ i := fun heq => hnot (heq ▸ hj)
    exact congrArg (freeBehind · j) (Function.update_of_ne hne _ _)
  · intro j
    unfold IsFree
    dsimp only
    by_cases hj : j = i
    · subst hj
      rw [Function.update_self, hw]
      constructor
      · intro hj
        exact absurd hj hnot
      · rintro ⟨-, hnull⟩
        cases hnull
    · rw [Function.update_of_ne hj, ← IsFree, ← hmem, List.mem_cons]
      exact ⟨Or.inr, fun hor => hor.resolve_left hj⟩
  · dsimp only
    rw [Nat.mod_eq_of_lt (by omega)]
    omega

theorem Threaded.pop {free : List ℕ} (h : n.Threaded free) {i : ℕ} (hused : n.IsUsed i) :
    ∃ n', n.mPopOffsetById i = .ok n' ∧ n'.Threaded (i :: free) ∧ n'.arraySize = n.arraySize ∧
      n.SameAccount n' ∧
      ∃ v, n'.offsets = Function.update n.offsets i (setIndexOfOffset nullOffset v) := by
  obtain ⟨⟨hnodup, hlinked, hmem⟩, hsize, hlength⟩ := h
  obtain ⟨hlt, hnull⟩ := hused
  have hbound : nullIndex.toNat = 65535 := rfl
  have hnot : i ∉ free := by
    intro hi
    have hfree := ((hmem i).1 hi).2
    rw [hnull] at hfree
    cases hfree
  have hmin : n.minFreeIndex ≤ n.arraySize := by
    cases free with
    | nil => exact Nat.le_of_eq hlinked
    | cons j rest =>
      have hmin : n.minFreeIndex = j := hlinked.1
      rw [hmin]
      exact Nat.le_of_lt ((hmem j).1 List.mem_cons_self).1
  have hpos : n.alloactionCount ≠ 0 := by
    have hrange : free ⊆ (List.range n.arraySize).erase i := by
      intro j hj
      have hji : j ≠ i := fun heq => hnot (heq ▸ hj)
      exact (List.mem_erase_of_ne hji).2 (List.mem_range.2 ((hmem j).1 hj).1)
    have hle := (List.subperm_of_subset hnodup hrange).length_le
    rw [List.length_erase_of_mem (List.mem_range.2 hlt), List.length_range] at hle
    omega
  unfold mPopOffsetById
  rw [if_neg (Nat.not_le.2 hlt)]
  refine ⟨_, rfl, ⟨⟨List.nodup_cons.2 ⟨hnot, hnodup⟩, ⟨?_, ?_⟩, ?_⟩, hsize, ?_⟩, rfl,
    ⟨rfl, rfl, rfl⟩, _, rfl⟩
  · exact Nat.mod_eq_of_lt (by omega)
  · have hnext : ∀ v : Index, v.toNat = n.minFreeIndex → v ≠ nullIndex := by
      rintro v hv rfl
      omega
    have hindex : (BitVec.ofNat 16 n.minFreeIndex).toNat = n.minFreeIndex := by
      rw [BitVec.toNat_ofNat]
      exact Nat.mod_eq_of_lt (by omega)
    have hfirst : freeBehind (setIndexOfOffset nullOffset (BitVec.ofNat 16 n.minFreeIndex)) i =
        n.minFreeIndex := by
      rw [freeBehind, getIndexOfOffset_set, if_neg (hnext _ hindex), hindex]
    rw [nextFree]
    dsimp only
    rw [Function.update_self, hfirst]
    refine hlinked.congr fun j hj => ?_
    have hne : j ≠ i := fun heq => hnot (heq ▸ hj)
    exact congrArg (freeBehind · j) (Function.update_of_ne hne _ _)
  · intro j
    unfold IsFree
    dsimp only
    by_cases hj : j = i
    · subst hj
      rw [Function.update_self]
      exact ⟨fun _ => ⟨hlt, isNullOffset_set _⟩, fun _ => List.mem_cons_self⟩
    · rw [Function.update_of_ne hj, ← IsFree, ← hmem, List.mem_cons]
      exact ⟨fun hor => hor.resolve_left hj, Or.inr⟩
  · dsimp only
    rw [List.length_cons]
    omega

theorem Threaded.count_lt {free : List ℕ} (h : n.Threaded free) :
    (n.alloactionCount + 1) % 2 ^ 32 = n.alloactionCount + 1 := by
  have hsize := h.size
  have hlength := h.length
  have hbound : nullIndex.toNat = 65535 := rfl
  exact Nat.mod_eq_of_lt (by omega)

theorem isFull_iff {free : List ℕ} (h : n.Threaded free) : n.isFull 1 = true ↔ free = [] := by
  have hlength := h.length
  unfold isFull
  rw [h.count_lt, Bool.and_eq_true, decide_eq_true_iff, decide_eq_true_iff,
    ← List.length_eq_zero_iff]
  omega

theorem arraySizeFor_requredMemory {free : List ℕ} (h : n.Threaded free) :
    arraySizeFor (n.requredMemory 1) = (n.alloactionCount + 1) * 3 / 2 := by
  have hsize := h.size
  have hlength := h.length
  have hbound : nullIndex.toNat = 65535 := rfl
  unfold arraySizeFor requredMemory sizeOfProcessNode sizeOfOffset
  rw [h.count_lt, Nat.add_sub_cancel_left, Nat.mod_eq_of_lt (by omega)]
  omega

/-- A full node grows: its new slots follow each other. -/
theorem Threaded.copy (h : n.Threaded [])
    (hsize : arraySizeFor (n.requredMemory 1) < nullIndex.toNat) :
    ∃ free, (n.copy (n.requredMemory 1)).Threaded free ∧ free ≠ [] ∧
      n.SameBlocks (n.copy (n.requredMemory 1)) := by
  have hsizeEq := arraySizeFor_requredMemory h
  obtain ⟨⟨-, hmin, hmem⟩, -, hlength⟩ := h
  have hmin : n.minFreeIndex = n.arraySize := hmin
  rw [List.length_nil, Nat.zero_add] at hlength
  have hused : ∀ i < n.arraySize, isNullOffset (n.offsets i) = false := by
    intro i hi
    rw [Bool.eq_false_iff]
    intro hnull
    cases (hmem i).2 ⟨hi, hnull⟩
  obtain ⟨k, hk⟩ : ∃ k, arraySizeFor (n.requredMemory 1) = n.arraySize + (k + 1) :=
    ⟨(n.alloactionCount + 1) * 3 / 2 - n.arraySize - 1, by omega⟩
  have hnew : ∀ i, ¬ i < n.arraySize →
      (n.copy (n.requredMemory 1)).offsets i = unusedSlot := fun i hi => if_neg hi
  have hnull : isNullOffset unusedSlot = true := isNullOffset_set nullIndex
  refine ⟨List.range' n.arraySize (k + 1), ⟨⟨List.nodup_range', ?_, ?_⟩, hsize, ?_⟩, ?_, ?_⟩
  · change Linked id _ n.minFreeIndex _ (arraySizeFor (n.requredMemory 1))
    rw [hmin, hk]
    refine Linked.range' n.arraySize fun i hle hlt => ?_
    rw [nextFree, hnew i (Nat.not_lt.2 hle)]
    unfold freeBehind unusedSlot
    rw [getIndexOfOffset_set, if_pos rfl]
  · intro i
    unfold IsFree
    change _ ↔ i < arraySizeFor (n.requredMemory 1) ∧ _
    rw [List.mem_range'_1, hk]
    by_cases hi : i < n.arraySize
    · have hold : (n.copy (n.requredMemory 1)).offsets i = n.offsets i := if_pos hi
      rw [hold, hused i hi]
      constructor
      · rintro ⟨hle, -⟩
        omega
      · rintro ⟨-, hfalse⟩
        cases hfalse
    · rw [hnew i hi]
      constructor
      · rintro ⟨-, hlt⟩
        exact ⟨hlt, hnull⟩
      · rintro ⟨hlt, -⟩
        exact ⟨Nat.not_lt.1 hi, hlt⟩
  · rw [List.length_range']
    change _ + n.alloactionCount = arraySizeFor (n.requredMemory 1)
    omega
  · rw [List.range'_succ]
    exact List.cons_ne_nil _ _
  · constructor
    · rintro i ⟨hi, hfull⟩
      have hold : (n.copy (n.requredMemory 1)).offsets i = n.offsets i := if_pos hi
      refine ⟨⟨?_, by rw [hold, hfull]⟩, hold⟩
      change i < arraySizeFor (n.requredMemory 1)
      omega
    · rintro i ⟨-, hfull⟩
      by_cases hi : i < n.arraySize
      · exact ⟨hi, hused i hi⟩
      · rw [hnew i hi, hnull] at hfull
        cases hfull

/-- There is room for an offset after `MGetOrRealocateProcessNode`. -/
theorem Threaded.mGetOrRealocateProcessNode {free : List ℕ} (h : n.Threaded free)
    {isMemory : Bool} (hmemory : n.isFull 1 = true → isMemory = true)
    (hsize : n.isFull 1 = true → arraySizeFor (n.requredMemory 1) < nullIndex.toNat) :
    ∃ n' i free', n.mGetOrRealocateProcessNode 1 isMemory = .ok n' ∧ n'.Threaded (i :: free') ∧
      n.SameBlocks n' ∧ n.SameAccount n' := by
  unfold ProcessNode.mGetOrRealocateProcessNode
  by_cases hfull : n.isFull 1 = true
  · rw [if_pos hfull, if_pos (hmemory hfull)]
    rw [isFull_iff h] at hfull
    subst hfull
    obtain ⟨free', hthreaded, hne, hsame⟩ := h.copy (hsize ((isFull_iff h).2 rfl))
    obtain ⟨i, free', rfl⟩ := List.exists_cons_of_ne_nil hne
    exact ⟨_, i, free', rfl, hthreaded, hsame, ⟨rfl, rfl, rfl⟩⟩
  · rw [if_neg hfull]
    rw [isFull_iff h] at hfull
    obtain ⟨i, free', rfl⟩ := List.exists_cons_of_ne_nil hfull
    exact ⟨n, i, free', rfl, h, ⟨fun i hi => ⟨hi, rfl⟩, fun _ hi => hi⟩, ⟨rfl, rfl, rfl⟩⟩

theorem isUsed_update {n n' : ProcessNode} {i : ℕ} {w : Offset} (hi : i < n.arraySize)
    (hw : isNullOffset w = false) (hsize : n'.arraySize = n.arraySize)
    (hoffsets : n'.offsets = Function.update n.offsets i w) (j : ℕ) :
    n'.IsUsed j ↔ j = i ∨ n.IsUsed j := by
  unfold IsUsed
  rw [hsize, hoffsets]
  by_cases hj : j = i
  · rw [hj, Function.update_self]
    exact ⟨fun _ => Or.inl rfl, fun _ => ⟨hi, hw⟩⟩
  · rw [Function.update_of_ne hj]
    exact ⟨Or.inr, fun h => h.resolve_left hj⟩

end ProcessNode

namespace SlotTable

variable {t : SlotTable}

/-- A slot table whose headers name the slots. -/
structure Kept (t : SlotTable) (free : List ℕ) : Prop where
  threaded : t.node.Threaded free
  index : ∀ i, t.node.IsUsed i →
    (getIndexOfOffset (t.header (t.node.offsets i).toNat)).toNat = i

theorem Kept.sound {free : List ℕ} (h : t.Kept free) : t.Sound := by
  refine ⟨⟨free, h.threaded.chain⟩, h.threaded.usedSlots_length, ?_, h.index⟩
  have hlength := h.threaded.length
  omega

theorem offset_ne {n : ProcessNode} {i o : ℕ} (ho : o < 2 ^ 63) (hnot : ¬ Holds n o)
    (hi : n.IsUsed i) : (n.offsets i).toNat ≠ o := by
  intro heq
  refine hnot ⟨i, hi, ?_⟩
  apply BitVec.eq_of_toNat_eq
  rw [heq, toNat_ofNat ho]

/-- A block that is not kept is kept then. -/
theorem mKeepBlock_kept {free : List ℕ} {i o : ℕ} (h : t.Kept (i :: free)) (ho : o < 2 ^ 63)
    (hnot : ¬ Holds t.node o) (w : Offset) :
    ∃ t', mKeepBlock ⟨t.node, Function.update t.header o w⟩ o = .ok t' ∧ t'.Kept free ∧
      t.PutsFree t' o ∧ t.node.SameAccount t'.node := by
  obtain ⟨n', hput, hthreaded, hsize, hfree, hoffsets, haccount⟩ :=
    h.threaded.put (isNullOffset_ofNat ho)
  have hlt := hfree.1
  have hbound := h.threaded.size
  have hindex : (BitVec.ofNat 16 i).toNat = i := by
    rw [BitVec.toNat_ofNat]
    have hnull : nullIndex.toNat = 65535 := rfl
    exact Nat.mod_eq_of_lt (by omega)
  have hused := ProcessNode.isUsed_update hlt (isNullOffset_ofNat ho) hsize hoffsets
  have hunused : ¬ t.node.IsUsed i := by
    rintro ⟨-, hfull⟩
    rw [hfree.2] at hfull
    cases hfull
  unfold mKeepBlock
  rw [hput]
  refine ⟨_, rfl, ⟨hthreaded, ?_⟩, ⟨i, ?_, hunused, ?_, ?_⟩, haccount⟩
  · intro j hj
    dsimp only at hj ⊢
    rw [hoffsets]
    rcases (hused j).1 hj with rfl | hj
    · rw [Function.update_self, Function.update_self, toNat_ofNat ho, Function.update_self,
        getIndexOfOffset_set, hindex]
    · have hji : j ≠ i := fun heq => hunused (heq ▸ hj)
      have hne := offset_ne ho hnot hj
      rw [Function.update_of_ne hji, Function.update_of_ne hne, Function.update_of_ne hne]
      exact h.index j hj
  · dsimp only
    rw [hsize]
    exact hlt
  · dsimp only
    rw [hoffsets, Function.update_self]
  · intro j hji hj
    dsimp only
    refine ⟨(hused j).2 (Or.inr hj), ?_⟩
    rw [hoffsets, Function.update_of_ne hji]

/-- The table after the node has moved. -/
theorem Kept.move {free free' : List ℕ} {n' : ProcessNode} (h : t.Kept free)
    (hthreaded : n'.Threaded free') (hsame : t.node.SameBlocks n') : Kept ⟨n', t.header⟩ free' := by
  refine ⟨hthreaded, fun i hi => ?_⟩
  have hold := hsame.2 i hi
  dsimp only at hi ⊢
  rw [(hsame.1 i hold).2]
  exact h.index i hold

theorem holds_of_same {n n' : ProcessNode} (hsame : n.SameBlocks n') {o : ℕ} :
    Holds n' o → Holds n o := by
  rintro ⟨i, hi, heq⟩
  have hold := hsame.2 i hi
  exact ⟨i, hold, (hsame.1 i hold).2 ▸ heq⟩

theorem PutsFree.of_same {n' : ProcessNode} {t' : SlotTable} (hsame : t.node.SameBlocks n') {o : ℕ}
    (h : PutsFree ⟨n', t.header⟩ t' o) : t.PutsFree t' o := by
  obtain ⟨i, hlt, hunused, hoffset, hrest⟩ := h
  refine ⟨i, hlt, fun hi => hunused (hsame.1 i hi).1, hoffset, fun j hji hj => ?_⟩
  obtain ⟨hused, heq⟩ := hsame.1 j hj
  obtain ⟨hused', heq'⟩ := hrest j hji hused
  exact ⟨hused', heq'.trans heq⟩

/-- What a step that the allocator performs makes of the table. -/
def StepsWell (t t' : SlotTable) : SlotStep → Prop
  | .malloc (some (o, _)) _ => t.PutsFree t' o
  | _ => True

theorem slotStep_kept {free : List ℕ} (h : t.Kept free) {st : SlotStep} (hst : Performs t st)
    (hgrow : GrowsLittle t st) :
    ∃ t' free', slotStep st t = .ok t' ∧ t'.Kept free' ∧ t.StepsWell t' st := by
  cases st with
  | malloc block isMemory =>
    cases block with
    | none =>
      obtain ⟨n', i, free', hnode, hthreaded, hsame, -⟩ :=
        h.threaded.mGetOrRealocateProcessNode hst hgrow
      refine ⟨⟨n', t.header⟩, i :: free', ?_, h.move hthreaded hsame, trivial⟩
      change t.malloc none isMemory = _
      unfold malloc
      rw [hnode]
      rfl
    | some block =>
      obtain ⟨o, w⟩ := block
      obtain ⟨ho, hnot, hmemory⟩ := hst
      obtain ⟨n', i, free', hnode, hthreaded, hsame, -⟩ :=
        h.threaded.mGetOrRealocateProcessNode hmemory hgrow
      obtain ⟨t', hkeep, hkept, hputs, -⟩ := mKeepBlock_kept (h.move hthreaded hsame) ho
        (fun hholds => hnot (holds_of_same hsame hholds)) w
      refine ⟨t', free', ?_, hkept, hputs.of_same hsame⟩
      change t.malloc (some (o, w)) isMemory = _
      unfold malloc
      rw [hnode]
      exact hkeep
  | unkeep o =>
    obtain ⟨ho, i, hi, hoffset⟩ := hst
    have hindex := h.index i hi
    rw [hoffset, toNat_ofNat ho] at hindex
    obtain ⟨n', hpop, hthreaded, hsize, -, v, hoffsets⟩ := h.threaded.pop hi
    refine ⟨⟨n', t.header⟩, i :: free, ?_, ⟨hthreaded, ?_⟩, trivial⟩
    · change t.mUnkeepBlock o = _
      unfold mUnkeepBlock
      rw [hindex, hpop]
      rfl
    · intro j hj
      dsimp only at hj ⊢
      have hji : j ≠ i := by
        rintro rfl
        have hfull := hj.2
        rw [hoffsets, Function.update_self, isNullOffset_set] at hfull
        cases hfull
      have hold : t.node.IsUsed j := by
        have hj' := hj
        unfold ProcessNode.IsUsed at hj'
        rw [hsize, hoffsets, Function.update_of_ne hji] at hj'
        exact hj'
      rw [hoffsets, Function.update_of_ne hji]
      exact h.index j hold

theorem threaded_new (aPid aReserv : ℕ) :
    (ProcessNode.new aPid defProcessSize aReserv).Threaded (List.range' 0 30) := by
  have hnull : isNullOffset unusedSlot = true := isNullOffset_set nullIndex
  refine ⟨⟨List.nodup_range', ?_, ?_⟩, ?_, rfl⟩
  · refine Linked.range' 0 fun i _ _ => ?_
    change freeBehind unusedSlot i = i + 1
    unfold freeBehind unusedSlot
    rw [getIndexOfOffset_set, if_pos rfl]
  · intro i
    rw [List.mem_range'_1]
    change _ ↔ i < 30 ∧ isNullOffset unusedSlot = true
    rw [hnull]
    exact ⟨fun h => ⟨by omega, rfl⟩, fun h => ⟨Nat.zero_le i, by omega⟩⟩
  · change 30 < 65535
    decide

theorem not_isUsed_new (aPid aReserv i : ℕ) :
    ¬ (ProcessNode.new aPid defProcessSize aReserv).IsUsed i := by
  rintro ⟨-, hfull⟩
  have hnull : isNullOffset unusedSlot = true := isNullOffset_set nullIndex
  change isNullOffset unusedSlot = false at hfull
  rw [hnull] at hfull
  cases hfull

theorem create_kept (aPid aReserv : ℕ) {reserv : Option (ℕ × Offset)}
    (hreserv : ∀ b ∈ reserv, b.1 < 2 ^ 63) :
    ∃ t free, create aPid aReserv reserv = .ok t ∧ t.Kept free := by
  have hnew := threaded_new aPid aReserv
  have hindex : ∀ (header : ℕ → Offset) i,
      (ProcessNode.new aPid defProcessSize aReserv).IsUsed i →
      (getIndexOfOffset (header ((ProcessNode.new aPid defProcessSize aReserv).offsets
        i).toNat)).toNat = i :=
    fun header i hi => absurd hi (not_isUsed_new aPid aReserv i)
  cases reserv with
  | none => exact ⟨_, _, rfl, hnew, hindex _⟩
  | some b =>
    obtain ⟨o, w⟩ := b
    have hkept : Kept ⟨ProcessNode.new aPid defProcessSize aReserv, fun _ => w⟩
        (0 :: List.range' 1 29) := ⟨hnew, hindex _⟩
    have hnot : ¬ Holds (ProcessNode.new aPid defProcessSize aReserv) o := by
      rintro ⟨i, hi, -⟩
      exact not_isUsed_new aPid aReserv i hi
    obtain ⟨t, hkeep, ht, -, -⟩ := mKeepBlock_kept hkept (hreserv _ rfl) hnot w
    refine ⟨t, _, ?_, ht⟩
    rw [← hkeep, Function.update_eq_self]
    rfl

theorem runAll_kept {steps : List SlotStep} {free : List ℕ} (h : t.Kept free)
    (hsteps : EveryStep slotStep (fun t st => Performs t st ∧ GrowsLittle t st) steps t) :
    ∃ t' free', runAll slotStep steps t = .ok t' ∧ t'.Kept free' := by
  obtain ⟨t', hrun, free', hkept⟩ := runAll_of_step
    (I := fun t => ∃ free, Kept t free) (fun t st ht hst => by
      obtain ⟨free, h⟩ := ht
      obtain ⟨t', free', hstep, hkept, -⟩ := slotStep_kept h hst.1 hst.2
      exact ⟨t', hstep, free', hkept⟩) ⟨free, h⟩ hsteps
  exact ⟨t', free', hrun, hkept⟩

/-- The slots of a process, in every run in which its node stays small. -/
theorem runAll_slots_sound (aPid aReserv : ℕ) {reserv : Option (ℕ × Offset)}
    (hreserv : ∀ b ∈ reserv, b.1 < 2 ^ 63) {steps : List SlotStep}
    (hsteps : ∀ t ∈ (create aPid aReserv reserv).toOption,
      EveryStep slotStep (fun t st => Performs t st ∧ GrowsLittle t st) steps t) :
    ∃ t₀ t, create aPid aReserv reserv = .ok t₀ ∧ runAll slotStep steps t₀ = .ok t ∧ t.Sound ∧
      ∀ st, Performs t st → GrowsLittle t st →
        ∃ t', slotStep st t = .ok t' ∧ t'.Sound ∧ t.StepsWell t' st := by
  obtain ⟨t₀, free₀, hcreate, hkept₀⟩ := create_kept aPid aReserv hreserv
  obtain ⟨t, free, hrun, hkept⟩ := runAll_kept hkept₀ (hsteps t₀ (by rw [hcreate]; rfl))
  refine ⟨t₀, t, hcreate, hrun, hkept.sound, fun st hst hgrow => ?_⟩
  obtain ⟨t', free', hstep, hkept', hwell⟩ := slotStep_kept hkept hst hgrow
  exact ⟨t', hstep, hkept'.sound, hwell⟩

def blockAt (i : ℕ) : ℕ := 1024 + 24 * i

def fillStep (i : ℕ) : SlotStep := .malloc (some (blockAt i, 0)) true

/-- The block of a reserve and so many more that the node grows; one is given up, and its slot is
    taken again. -/
def someSteps : List SlotStep :=
  .malloc none false :: (List.range 31).map fillStep ++
    [.unkeep (blockAt 3), .malloc (some (4096, 512)) false]

theorem runAll_slots_sound_someSteps :
    (∀ b ∈ some (512, nullOffset), b.1 < 2 ^ 63) ∧
    ∃ t₀ t, create 7 1000 (some (512, nullOffset)) = .ok t₀ ∧
      runAll slotStep someSteps t₀ = .ok t ∧ t₀.node.arraySize < t.node.arraySize ∧ t.Sound ∧
      ∀ st, Performs t st → GrowsLittle t st →
        ∃ t', slotStep st t = .ok t' ∧ t'.Sound ∧ t.StepsWell t' st := by
  have hreserv : ∀ b ∈ some (512, nullOffset), b.1 < 2 ^ 63 := by
    rintro b hb
    cases hb
    decide
  have hgrown : ∀ t₀ ∈ (create 7 1000 (some (512, nullOffset))).toOption,
      ∀ t ∈ (runAll slotStep someSteps t₀).toOption, t₀.node.arraySize < t.node.arraySize := by
    decide +kernel
  have hsteps : ∀ t ∈ (create 7 1000 (some (512, nullOffset))).toOption,
      EveryStep slotStep (fun t st => Performs t st ∧ GrowsLittle t st) someSteps t := by
    intro t ht
    cases ht
    decide +kernel
  obtain ⟨t₀, t, hcreate, hrun, hsound⟩ := runAll_slots_sound 7 1000 hreserv hsteps
  refine ⟨hreserv, t₀, t, hcreate, hrun, hgrown t₀ ?_ t ?_, hsound⟩
  · rw [hcreate]
    rfl
  · rw [hrun]
    rfl

theorem ofNat_blockAt_inj {i j : ℕ} (hi : i < 2 ^ 20) (hj : j < 2 ^ 20)
    (h : BitVec.ofNat 64 (blockAt i) = BitVec.ofNat 64 (blockAt j)) : i = j := by
  have hnat := congrArg BitVec.toNat h
  unfold blockAt at hnat
  rw [toNat_ofNat (by omega), toNat_ofNat (by omega)] at hnat
  omega

/-- The state after blocks were kept and none was given up. -/
structure Filled (n : ℕ) (t : SlotTable) : Prop where
  count : t.node.alloactionCount = n
  minFreeIndex : t.node.minFreeIndex = n
  le_arraySize : n ≤ t.node.arraySize
  arraySize_le : t.node.arraySize ≤ 2 ^ 19
  used : ∀ i < n, t.node.offsets i = BitVec.ofNat 64 (blockAt i)
  unused : ∀ i, n ≤ i → i < t.node.arraySize → t.node.offsets i = unusedSlot
  header : ∀ i < n, getIndexOfOffset (t.header (blockAt i)) = BitVec.ofNat 16 i

theorem blockAt_lt {i : ℕ} (hi : i < 2 ^ 20) : blockAt i < 2 ^ 63 := by
  unfold blockAt
  omega

theorem Filled.not_holds {n : ℕ} (h : Filled n t) (hn : n ≤ 65536) :
    ¬ Holds t.node (blockAt n) := by
  rintro ⟨i, ⟨hi, hfull⟩, heq⟩
  by_cases hin : i < n
  · rw [h.used i hin] at heq
    have hin' := ofNat_blockAt_inj (by omega) (by omega) heq
    omega
  · have hnull : isNullOffset unusedSlot = true := isNullOffset_set nullIndex
    rw [h.unused i (Nat.not_lt.1 hin) hi, hnull] at hfull
    cases hfull

/-- There is a free slot behind the used ones, if the node grows for it or not. -/
theorem Filled.grow {n : ℕ} (h : Filled n t) (hn : n ≤ 65536) :
    ∃ node, t.node.mGetOrRealocateProcessNode 1 true = .ok node ∧ Filled n ⟨node, t.header⟩ ∧
      n < node.arraySize := by
  have hcount := h.count
  have hle := h.le_arraySize
  have hmod : (t.node.alloactionCount + 1) % 2 ^ 32 = n + 1 := by
    rw [hcount]
    exact Nat.mod_eq_of_lt (by omega)
  unfold ProcessNode.mGetOrRealocateProcessNode
  by_cases hfull : t.node.isFull 1 = true
  · rw [if_pos hfull, if_pos rfl]
    have hsize : arraySizeFor (t.node.requredMemory 1) = (n + 1) * 3 / 2 := by
      unfold arraySizeFor ProcessNode.requredMemory sizeOfProcessNode sizeOfOffset
      rw [hmod, Nat.add_sub_cancel_left, Nat.mod_eq_of_lt (by omega)]
      omega
    unfold ProcessNode.isFull at hfull
    rw [hmod, Bool.and_eq_true, decide_eq_true_iff, decide_eq_true_iff] at hfull
    have hlt : n < (t.node.copy (t.node.requredMemory 1)).arraySize := by
      change n < arraySizeFor (t.node.requredMemory 1)
      omega
    refine ⟨_, rfl, ⟨hcount, h.minFreeIndex, Nat.le_of_lt hlt, ?_, ?_, ?_, h.header⟩, hlt⟩
    · change arraySizeFor (t.node.requredMemory 1) ≤ 2 ^ 19
      omega
    · intro i hi
      exact (if_pos (by omega)).trans (h.used i hi)
    · intro i hi _
      by_cases hold : i < t.node.arraySize
      · exact (if_pos hold).trans (h.unused i hi hold)
      · exact if_neg hold
  · rw [if_neg hfull]
    refine ⟨t.node, rfl, h, ?_⟩
    unfold ProcessNode.isFull at hfull
    rw [hmod, Bool.and_eq_true, decide_eq_true_iff, decide_eq_true_iff] at hfull
    omega

theorem Filled.step {n : ℕ} (h : Filled n t) (hn : n ≤ 65536) :
    Performs t (fillStep n) ∧ ∃ t', slotStep (fillStep n) t = .ok t' ∧ Filled (n + 1) t' := by
  refine ⟨⟨blockAt_lt (by omega), h.not_holds hn, fun _ => rfl⟩, ?_⟩
  obtain ⟨node, hnode, hfilled, hlt⟩ := h.grow hn
  have hsmall := hfilled.arraySize_le
  have hnull : isNullOffset unusedSlot = true := isNullOffset_set nullIndex
  have hslot := hfilled.unused n (Nat.le_refl n) hlt
  have hmin := hfilled.minFreeIndex
  have hcount := hfilled.count
  dsimp only at hsmall hslot hmin hcount
  have hfree : node.IsFree n := ⟨hlt, by rw [hslot, hnull]⟩
  have hindex : getIndexOfOffset unusedSlot = nullIndex := getIndexOfOffset_set _ _
  have hput : node.mPutOffset (BitVec.ofNat 64 (blockAt n)) = .ok (n, { node with
      minFreeIndex := n + 1
      offsets := Function.update node.offsets n (BitVec.ofNat 64 (blockAt n))
      alloactionCount := n + 1 }) := by
    unfold ProcessNode.mPutOffset
    dsimp only
    rw [hmin, ProcessNode.firstFree_eq hfree, if_neg (Nat.not_le.2 hlt), hslot, hindex, if_pos rfl,
      hcount, Nat.mod_eq_of_lt (by omega)]
  change ∃ t', t.malloc (some (blockAt n, 0)) true = .ok t' ∧ Filled (n + 1) t'
  unfold malloc
  rw [hnode]
  change ∃ t', mKeepBlock ⟨node, Function.update t.header (blockAt n) 0⟩ (blockAt n) = .ok t' ∧ _
  unfold mKeepBlock
  rw [hput]
  refine ⟨_, rfl, ⟨rfl, rfl, hlt, hsmall, ?_, ?_, ?_⟩⟩
  · intro i hi
    dsimp only
    by_cases hin : i = n
    · rw [hin, Function.update_self]
    · rw [Function.update_of_ne hin]
      exact hfilled.used i (by omega)
  · intro i hi hsize
    dsimp only
    rw [Function.update_of_ne (by omega)]
    exact hfilled.unused i (by omega) hsize
  · intro i hi
    dsimp only
    by_cases hin : i = n
    · rw [hin, Function.update_self, getIndexOfOffset_set]
    · have hne : blockAt i ≠ blockAt n := by
        unfold blockAt
        omega
      rw [Function.update_of_ne hne, Function.update_of_ne hne]
      exact h.header i (by omega)

theorem Filled.run {m n : ℕ} (h : Filled n t) (hn : n + m ≤ 65537) :
    EveryStep slotStep Performs ((List.range' n m).map fillStep) t ∧
      ∃ t', runAll slotStep ((List.range' n m).map fillStep) t = .ok t' ∧ Filled (n + m) t' := by
  induction m generalizing n t with
  | zero => exact ⟨trivial, t, rfl, h⟩
  | succ m ih =>
    obtain ⟨hperforms, t₁, hstep, hfilled⟩ := h.step (by omega)
    obtain ⟨hevery, t', hrun, hfilled'⟩ := ih hfilled (by omega)
    rw [List.range'_succ, List.map_cons]
    refine ⟨⟨hperforms, ?_⟩, t', ?_, ?_⟩
    · intro t₂ ht₂
      rw [hstep] at ht₂
      cases ht₂
      exact hevery
    · rw [runAll_cons_of_ok hstep]
      exact hrun
    · rw [Nat.add_comm m 1, ← Nat.add_assoc]
      exact hfilled'

/-- The block in slot 65536 is told that it is in slot 0. -/
theorem slots_false_of_large :
    ∃ t₀, create 1 0 none = .ok t₀ ∧ ∃ steps, EveryStep slotStep Performs steps t₀ ∧
      ∃ t, runAll slotStep steps t₀ = .ok t ∧ ¬ t.Sound := by
  have hstart : Filled 0 ⟨ProcessNode.new 1 defProcessSize 0, fun _ => nullOffset⟩ := by
    refine ⟨rfl, rfl, Nat.zero_le _, by decide, ?_, fun _ _ _ => rfl, ?_⟩
    · intro i hi
      omega
    · intro i hi
      omega
  obtain ⟨hevery, t, hrun, hfilled⟩ := hstart.run (by decide : 0 + 65537 ≤ 65537)
  refine ⟨_, rfl, _, hevery, t, hrun, fun hsound => ?_⟩
  have hlt : 65536 < 0 + 65537 := by decide
  have hslot := hfilled.used 65536 hlt
  have hused : t.node.IsUsed 65536 := by
    refine ⟨Nat.lt_of_lt_of_le hlt hfilled.le_arraySize, ?_⟩
    rw [hslot]
    exact isNullOffset_ofNat (blockAt_lt (by omega))
  have hindex := hsound.index 65536 hused
  rw [hslot, toNat_ofNat (blockAt_lt (by omega)), hfilled.header 65536 hlt] at hindex
  revert hindex
  decide

end SlotTable

end UdtKernel.SharedAllocator
