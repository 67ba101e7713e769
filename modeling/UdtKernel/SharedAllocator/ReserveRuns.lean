import UdtKernel.SharedAllocator.HeapRuns
import UdtKernel.SharedAllocator.ReserveParts

set_option autoImplicit false

/-! Runs of allocations from a reserve and of frees of its blocks. -/

namespace UdtKernel.SharedAllocator
open UdtKernel.Lib

inductive ReserveStep where
  | malloc (xWantedSize : ℕ) (isMemory : Bool)
  | free (node : ℕ)

def reserveStep : ReserveStep → Reserve → Except Fault Reserve
  | .malloc xWantedSize isMemory, r => do
    let process ← r.process.mGetOrRealocateProcessNode 1 isMemory
    let (_, r) ← Reserve.mMallocImpl { r with process } xWantedSize
    return r
  | .free node, r => r.mFreeReservedBlock node

namespace Reserve

def create (h : Heap) (aPid aReserv : ℕ) : Except Fault (Option (ℕ × Reserve)) := do
  let process := ProcessNode.new aPid defProcessSize aReserv
  let (p, heap) ← h.mMallocBlock process.sizeOfReserv true 0
  match p with
  | none => return none
  | some p => do
    let r ← mCreateReservForProcess ⟨heap, process⟩ (p - sizeOfBlockNode)
    return some (p - sizeOfBlockNode, r)

variable (r : Reserve)

structure SoundWith (start size : ℕ) (parts : List ℕ) : Prop where
  tiles : Linked id r.heap.endOf start parts (start + sizeOfBlockNode + size)
  disjoint : parts.Pairwise fun a b => r.heap.endOf a ≤ b
  kept : ∀ b, b ∈ parts ↔ ∃ i < r.process.arraySize, r.keeps i = true ∧ r.blockOf i = b
  reserved : ∀ b ∈ parts, (r.heap.node b).isReserved = true
  apart : ∀ a ∈ parts, ∀ b ∈ parts, (r.heap.node a).isReserveFree = true →
    (r.heap.node b).isReserveFree = true → r.heap.endOf a ≠ b
  usedUp : r.process.usedUpReserv +
    freeBytes r.heap.size (fun b => !(r.heap.node b).isReserveFree) parts = size
  limit : r.process.usedUpReserv ≤ r.process.sizeOfReserv

def Sound (start size : ℕ) : Prop := ∃ parts, r.SoundWith start size parts

/-- The node gets memory to grow, and what is freed is a used block of the reserve. -/
def Performs : ReserveStep → Prop
  | .malloc _ isMemory => r.process.isFull 1 = true → isMemory = true
  | .free node => ∃ i < r.process.arraySize, r.keeps i = true ∧ r.blockOf i = node ∧
      (r.heap.node node).isReserved = true ∧ (r.heap.node node).isReserveFree = false

/-- No free block above is in a slot before this one. -/
def InReach (node i : ℕ) : Prop := ∀ k < i, r.keepsFree k = true → ¬ node < r.blockOf k

/-- No free block below is met after the one in this slot. -/
def IsLast (node i : ℕ) : Prop :=
  ∀ j < r.process.arraySize, i < j → r.keepsFree j = true → r.blockOf j < node → ¬ r.InReach node j

/-- The free blocks beside a block are where the search for them looks. -/
def NoneHidden (node : ℕ) : Prop :=
  (∀ i < r.process.arraySize, r.keepsFree i = true → r.heap.endOf (r.blockOf i) = node →
    r.InReach node i ∧ r.IsLast node i) ∧
  ∀ i < r.process.arraySize, r.keepsFree i = true → r.blockOf i = r.heap.endOf node →
    r.InReach node i

def Finds : ReserveStep → Prop
  | .malloc _ _ => r.process.isFull 1 = true →
      arraySizeFor (r.process.requredMemory 1) < nullIndex.toNat
  | .free node => r.NoneHidden node

instance : (st : ReserveStep) → Decidable (r.Performs st)
  | .malloc _ _ => inferInstanceAs (Decidable (_ → _))
  | .free _ => inferInstanceAs (Decidable (∃ i < _, _))

instance (node i : ℕ) : Decidable (r.InReach node i) :=
  inferInstanceAs (Decidable (∀ k < i, _ → _))

instance (node i : ℕ) : Decidable (r.IsLast node i) :=
  inferInstanceAs (Decidable (∀ j < _, _ → _ → _ → _))

instance (node : ℕ) : Decidable (r.NoneHidden node) :=
  inferInstanceAs (Decidable ((∀ i < _, _ → _ → _) ∧ ∀ i < _, _ → _ → _))

instance : (st : ReserveStep) → Decidable (r.Finds st)
  | .malloc _ _ => inferInstanceAs (Decidable (_ → _))
  | .free node => inferInstanceAs (Decidable (r.NoneHidden node))

variable {r} {start size : ℕ} {A B parts : List ℕ} {used : ℕ → Bool} {a b : ℕ}

/-- The parts of a reserve, of which no two free ones are beside each other. -/
structure Inv (r : Reserve) (start size : ℕ) (parts : List ℕ) (used : ℕ → Bool) : Prop where
  divided : Parts r start size parts used
  told : r.Told parts used
  apart : Heap.Apart parts used

theorem blockOf_eq {i : ℕ} (hb : b + sizeOfBlockNode < 2 ^ 63)
    (hoffset : r.process.offsets i = offsetOf (b + sizeOfBlockNode)) : r.blockOf i = b := by
  unfold blockOf offsetOf at *
  rw [hoffset, toNat_ofNat hb, Nat.add_sub_cancel]

theorem Parts.keeps (h : Parts r start size parts used) (hb : b ∈ parts) :
    r.heap.slotOf b < r.process.arraySize ∧ r.keeps (r.heap.slotOf b) = true ∧
      r.blockOf (r.heap.slotOf b) = b := by
  obtain ⟨⟨hlt, hfull⟩, hoffset⟩ := h.slots.holds b hb
  have hblock := blockOf_eq (h.lt_bound b hb) hoffset
  refine ⟨hlt, ?_, hblock⟩
  unfold Reserve.keeps
  rw [hfull, hblock, Bool.not_false, Bool.true_and, beq_iff_eq]
  rfl

theorem Parts.of_keeps (h : Parts r start size parts used) {i : ℕ} (hi : i < r.process.arraySize)
    (hk : r.keeps i = true) : r.blockOf i ∈ parts ∧ r.heap.slotOf (r.blockOf i) = i := by
  unfold Reserve.keeps at hk
  rw [Bool.and_eq_true, Bool.not_eq_true', beq_iff_eq] at hk
  obtain ⟨b, hb, rfl⟩ := h.slots.held i ⟨hi, hk.1⟩
  rw [(h.keeps hb).2.2]
  exact ⟨hb, rfl⟩

theorem Inv.keepsFree (h : Inv r start size parts used) (hb : b ∈ parts) (hfree : used b = false) :
    r.keepsFree (r.heap.slotOf b) = true := by
  obtain ⟨-, hkeeps, hblock⟩ := h.divided.keeps hb
  unfold Reserve.keepsFree
  rw [hkeeps, hblock, h.divided.reserved b hb, h.told b hb, hfree]
  rfl

theorem Inv.of_keepsFree (h : Inv r start size parts used) {i : ℕ} (hi : i < r.process.arraySize)
    (hk : r.keepsFree i = true) : r.blockOf i ∈ parts ∧ used (r.blockOf i) = false := by
  unfold Reserve.keepsFree at hk
  rw [Bool.and_eq_true, Bool.and_eq_true] at hk
  obtain ⟨hb, -⟩ := h.divided.of_keeps hi hk.1.1
  refine ⟨hb, ?_⟩
  rw [h.told _ hb, Bool.not_eq_true'] at hk
  exact hk.2

theorem Inv.sound (h : Inv r start size parts used) : r.Sound start size := by
  have htold : ∀ b ∈ parts, used b = !(r.heap.node b).isReserveFree := by
    intro b hb
    rw [h.told b hb, Bool.not_not]
  have husedUp := h.divided.account
  rw [freeBytes_congr fun b hb => ⟨rfl, htold b hb⟩] at husedUp
  have hsorted := h.divided.tiles.pairwise Heap.lt_endOf
  refine ⟨parts, h.divided.tiles, hsorted, fun b => ⟨fun hb => ⟨_, h.divided.keeps hb⟩, ?_⟩,
    h.divided.reserved, ?_, husedUp, ?_⟩
  · rintro ⟨i, hi, hk, rfl⟩
    exact (h.divided.of_keeps hi hk).1
  · intro a ha b hb hfreeA hfreeB hend
    rw [h.told a ha, Bool.not_eq_true'] at hfreeA
    rw [h.told b hb, Bool.not_eq_true'] at hfreeB
    exact h.apart.endOf_ne h.divided.tiles ha hb hfreeA hfreeB hend
  · rw [h.divided.limit]
    omega

theorem Inv.grow {n' : ProcessNode} {free : List ℕ} (h : Inv r start size parts used)
    (hthreaded : n'.Threaded free) (hsame : r.process.SameBlocks n')
    (haccount : r.process.SameAccount n') : Inv ⟨r.heap, n'⟩ start size parts used := by
  obtain ⟨hparts, htold, hapart⟩ := h
  refine ⟨⟨hparts.slots.grow hthreaded hsame, hparts.tiles, hparts.bound, hparts.small,
    hparts.reserved, ?_, haccount.sizeOfReserv.trans hparts.limit⟩, htold, hapart⟩
  dsimp only
  rw [haccount.usedUpReserv]
  exact hparts.account

/-- A part is taken, whole or in two. -/
theorem Inv.takeBlock (h : Inv r start size (A ++ a :: B) used) (ha : used a = false) {n i : ℕ}
    {free : List ℕ} (ht : r.process.Threaded (i :: free)) :
    ∃ r' parts' used', r.takeBlock a n = .ok r' ∧ Inv r' start size parts' used' := by
  obtain ⟨haA, haB⟩ := h.divided.not_mem
  obtain ⟨hA, hB, -, hhead⟩ := Heap.apart_middle.1 h.apart
  have hmark : ∀ l : List ℕ, a ∉ l → ∀ c ∈ l, Function.update used a true c = used c :=
    fun l hl c hc => Function.update_of_ne (ne_of_mem_of_not_mem hc hl) _ _
  have hself : Function.update used a true a = true := Function.update_self _ _ _
  by_cases hlarge : n + 2 * sizeOfBlockNode < r.heap.size a
  · obtain ⟨r', htake, hparts, htold⟩ := h.divided.takeFirst h.told ha hlarge ht
    refine ⟨r', _, _, htake, hparts, htold, ?_⟩
    have hnodup := hparts.nodup
    have hmA : a + sizeOfBlockNode + n ∉ A := by
      rw [List.nodup_append] at hnodup
      intro hmem
      exact hnodup.2.2 _ hmem _ (by simp) rfl
    have hmB : a + sizeOfBlockNode + n ∉ B := by
      rw [List.nodup_append, List.nodup_cons, List.nodup_cons] at hnodup
      exact hnodup.2.1.2.1
    have hma : a ≠ a + sizeOfBlockNode + n := by
      unfold sizeOfBlockNode
      omega
    have hmark' : ∀ l : List ℕ, a ∉ l → a + sizeOfBlockNode + n ∉ l → ∀ c ∈ l,
        takeMark used a (a + sizeOfBlockNode + n) c = used c := fun l hl hml c hc =>
      (Function.update_of_ne (ne_of_mem_of_not_mem hc hml) _ _).trans (hmark l hl c hc)
    have hmarkA : takeMark used a (a + sizeOfBlockNode + n) a = true :=
      (Function.update_of_ne hma _ _).trans hself
    have hB' := Heap.apart_congr hB (hmark' B haB hmB)
    refine Heap.apart_middle.2 ⟨Heap.apart_congr hA (hmark' A haA hmA), ?_,
      fun _ _ => Or.inr hmarkA, fun _ _ => Or.inl hmarkA⟩
    unfold Heap.Apart at hB' ⊢
    rw [List.isChain_cons]
    refine ⟨fun c hc => Or.inr ?_, hB'⟩
    rw [hmark' B haB hmB c (List.mem_of_mem_head? hc)]
    refine (hhead c hc).resolve_left ?_
    rw [ha]
    exact Bool.false_ne_true
  · obtain ⟨r', htake, hparts, htold⟩ := h.divided.takeWhole h.told ha (Nat.not_lt.1 hlarge)
    exact ⟨r', _, _, htake, hparts, htold, Heap.apart_middle.2
      ⟨Heap.apart_congr hA (hmark A haA), Heap.apart_congr hB (hmark B haB),
        fun _ _ => Or.inr hself, fun _ _ => Or.inl hself⟩⟩

theorem Inv.mMallocImpl (h : Inv r start size parts used) {i : ℕ} {free : List ℕ}
    (ht : r.process.Threaded (i :: free)) (xWantedSize : ℕ) :
    ∃ p r' parts' used', r.mMallocImpl xWantedSize = .ok (p, r') ∧
      Inv r' start size parts' used' := by
  unfold Reserve.mMallocImpl mMallocBlockFromReserv
  dsimp only
  split_ifs
  · exact ⟨none, r, parts, used, rfl, h⟩
  · exact ⟨none, r, parts, used, rfl, h⟩
  · cases hfind : (List.range r.process.arraySize).find? fun j =>
        r.keepsFree j && decide (Heap.roundUp xWantedSize ≤ r.heap.size (r.blockOf j)) with
    | none => exact ⟨none, r, parts, used, rfl, h⟩
    | some j =>
      have hj := List.find?_some hfind
      have hlt := List.mem_range.1 (List.mem_of_find?_eq_some hfind)
      rw [Bool.and_eq_true, decide_eq_true_iff] at hj
      obtain ⟨hmem, hfree⟩ := h.of_keepsFree hlt hj.1
      obtain ⟨A, B, rfl⟩ := List.append_of_mem hmem
      obtain ⟨r', parts', used', htake, hinv⟩ := h.takeBlock hfree ht
      refine ⟨some (r.blockOf j + sizeOfBlockNode), r', parts', used', ?_, hinv⟩
      dsimp only
      rw [htake]
      rfl
  · exact ⟨none, r, parts, used, rfl, h⟩
  · exact ⟨none, r, parts, used, rfl, h⟩

theorem neighbours_snd (node : ℕ) (l : List ℕ) (prev : Option ℕ) :
    (r.neighbours node l prev).2 =
      (l.find? fun i => r.keepsFree i && decide (node < r.blockOf i)).map r.blockOf := by
  induction l generalizing prev with
  | nil => rfl
  | cons i l ih =>
    unfold neighbours
    rw [List.find?_cons]
    cases hk : r.keepsFree i with
    | false => exact ih prev
    | true =>
      rw [if_pos rfl, Bool.true_and]
      by_cases hlow : r.blockOf i < node
      · rw [if_pos hlow, ih, decide_eq_false (Nat.not_lt.2 (Nat.le_of_lt hlow))]
      · rw [if_neg hlow]
        by_cases hhigh : node < r.blockOf i
        · rw [if_pos hhigh, decide_eq_true hhigh]
          rfl
        · rw [if_neg hhigh, ih, decide_eq_false hhigh]

theorem neighbours_fst_mem {node p : ℕ} {l : List ℕ} {prev : Option ℕ}
    (h : p ∈ (r.neighbours node l prev).1) :
    p ∈ prev ∨ ∃ i ∈ l, r.keepsFree i = true ∧ r.blockOf i = p ∧ p < node := by
  induction l generalizing prev with
  | nil => exact Or.inl h
  | cons i l ih =>
    have hrest : ∀ prev', p ∈ (r.neighbours node l prev').1 → p ∈ prev' ∨
        ∃ j ∈ i :: l, r.keepsFree j = true ∧ r.blockOf j = p ∧ p < node := by
      intro prev' hp
      exact (ih hp).imp_right fun ⟨j, hj, hkeeps⟩ => ⟨j, List.mem_cons_of_mem i hj, hkeeps⟩
    unfold neighbours at h
    split_ifs at h with hk hlow hhigh
    · rcases hrest _ h with heq | hin
      · cases heq
        exact Or.inr ⟨i, List.mem_cons_self, hk, rfl, hlow⟩
      · exact Or.inr hin
    · exact Or.inl h
    · exact hrest _ h
    · exact hrest _ h

/-- The search keeps the block before if it meets no other. -/
theorem neighbours_fst_keep {node n : ℕ} (s : ℕ) {prev : Option ℕ}
    (h : ∀ j, s ≤ j → j < s + n → r.keepsFree j = true → r.blockOf j < node →
      ∃ k, s ≤ k ∧ k < j ∧ r.keepsFree k = true ∧ node < r.blockOf k) :
    (r.neighbours node (List.range' s n) prev).1 = prev := by
  induction n generalizing s with
  | zero => rfl
  | succ n ih =>
    rw [List.range'_succ]
    have hrest : ¬ (r.keepsFree s = true ∧ node < r.blockOf s) →
        (r.neighbours node (List.range' (s + 1) n) prev).1 = prev := by
      intro hs
      refine ih (s + 1) fun j hle hlt hk hlow => ?_
      obtain ⟨k, hsk, hkj, hfree, hhigh⟩ := h j (by omega) (by omega) hk hlow
      refine ⟨k, ?_, hkj, hfree, hhigh⟩
      rcases Nat.eq_or_lt_of_le hsk with rfl | hlt'
      · exact absurd ⟨hfree, hhigh⟩ hs
      · exact hlt'
    unfold neighbours
    split_ifs with hk hlow hhigh
    · obtain ⟨k, hsk, hks, -⟩ := h s (Nat.le_refl s) (by omega) hk hlow
      omega
    · rfl
    · exact hrest fun hs => hhigh hs.2
    · exact hrest fun hs => hk hs.1

/-- The search ends with the last block before that it can meet. -/
theorem neighbours_fst_eq {node n i : ℕ} (s : ℕ) {prev : Option ℕ} (hle : s ≤ i) (hlt : i < s + n)
    (hk : r.keepsFree i = true) (hlow : r.blockOf i < node)
    (hreach : ∀ k, s ≤ k → k < i → r.keepsFree k = true → ¬ node < r.blockOf k)
    (hlast : ∀ j, i < j → j < s + n → r.keepsFree j = true → r.blockOf j < node →
      ∃ k, s ≤ k ∧ k < j ∧ r.keepsFree k = true ∧ node < r.blockOf k) :
    (r.neighbours node (List.range' s n) prev).1 = some (r.blockOf i) := by
  induction n generalizing s prev with
  | zero => omega
  | succ n ih =>
    rw [List.range'_succ]
    rcases Nat.eq_or_lt_of_le hle with rfl | hsi
    · unfold neighbours
      rw [if_pos hk, if_pos hlow]
      refine neighbours_fst_keep (s + 1) fun j hj hjn hkj hlowj => ?_
      obtain ⟨k, hsk, hkj, hfree, hhigh⟩ := hlast j hj (by omega) hkj hlowj
      refine ⟨k, ?_, hkj, hfree, hhigh⟩
      rcases Nat.eq_or_lt_of_le hsk with rfl | hlt'
      · omega
      · exact hlt'
    · have hrest : ∀ prev', (r.neighbours node (List.range' (s + 1) n) prev').1 =
          some (r.blockOf i) := by
        intro prev'
        refine ih (s + 1) hsi (by omega) (fun k hsk => hreach k (by omega))
          fun j hij hjn hkj hl => ?_
        obtain ⟨k, hsk, hkj, hfree, hhigh⟩ := hlast j hij (by omega) hkj hl
        refine ⟨k, ?_, hkj, hfree, hhigh⟩
        rcases Nat.eq_or_lt_of_le hsk with rfl | hlt'
        · exact absurd hhigh (hreach s (Nat.le_refl s) hsi hfree)
        · exact hlt'
      unfold neighbours
      split_ifs with hks hlows hhighs
      · exact hrest _
      · exact absurd hhighs (hreach s (Nat.le_refl s) hsi hks)
      · exact hrest _
      · exact hrest _

/-- The free blocks on both sides of a block, as the search has to find them. -/
structure Beside (A B : List ℕ) (used : ℕ → Bool) (prev next : Option ℕ) : Prop where
  prev_eq : ∀ a ∈ A.getLast?, used a = false → prev = some a
  prev_mem : ∀ p ∈ prev, p ∈ A ∧ used p = false
  next_eq : ∀ c ∈ B.head?, used c = false → next = some c
  next_mem : ∀ p ∈ next, p ∈ B ∧ used p = false

theorem Parts.before (h : Parts r start size (A ++ b :: B) used) {a : ℕ} (ha : a ∈ A) : a < b := by
  have hsorted := h.tiles.pairwise Heap.lt_endOf
  rw [List.pairwise_append] at hsorted
  exact Nat.lt_of_lt_of_le (Heap.lt_endOf a) (hsorted.2.2 a ha b List.mem_cons_self)

theorem Parts.behind (h : Parts r start size (A ++ b :: B) used) {c : ℕ} (hc : c ∈ B) :
    r.heap.endOf b ≤ c := by
  have hsorted := h.tiles.pairwise Heap.lt_endOf
  rw [List.pairwise_append, List.pairwise_cons] at hsorted
  exact hsorted.2.1.1 c hc

theorem Inv.neighbours (h : Inv r start size (A ++ b :: B) used) (hused : used b = true)
    (hfinds : r.NoneHidden b) :
    ∃ prev next, r.neighbours b (List.range r.process.arraySize) none = (prev, next) ∧
      Beside A B used prev next := by
  obtain ⟨m, hA, hm, hB⟩ := Linked.append.1 h.divided.tiles
  have hside : ∀ i < r.process.arraySize, r.keepsFree i = true →
      r.blockOf i < b ∧ r.blockOf i ∈ A ∨ b < r.blockOf i ∧ r.blockOf i ∈ B := by
    intro i hi hk
    obtain ⟨hmem, hfree⟩ := h.of_keepsFree hi hk
    rw [List.mem_append, List.mem_cons] at hmem
    rcases hmem with hmem | heq | hmem
    · exact Or.inl ⟨h.divided.before hmem, hmem⟩
    · rw [heq, hused] at hfree
      cases hfree
    · exact Or.inr ⟨Nat.lt_of_lt_of_le (Heap.lt_endOf b) (h.divided.behind hmem), hmem⟩
  refine ⟨_, _, rfl, ?_, ?_, ?_, ?_⟩
  · intro a ha hfree
    have hmem : a ∈ A ++ b :: B := List.mem_append_left _ (List.mem_of_getLast? ha)
    have hlt := h.divided.before (List.mem_of_getLast? ha)
    obtain ⟨hi, -, hblock⟩ := h.divided.keeps hmem
    have hk := h.keepsFree hmem hfree
    have hend : r.heap.endOf (r.blockOf (r.heap.slotOf a)) = b := by
      obtain ⟨A, rfl⟩ := List.getLast?_eq_some_iff.1 ha
      rw [hblock, (Linked.concat.1 hA).2, hm]
      rfl
    obtain ⟨hreach, hlast⟩ := hfinds.1 _ hi hk hend
    rw [List.range_eq_range', ← hblock]
    refine neighbours_fst_eq 0 (Nat.zero_le _) (by omega) hk (by rw [hblock]; exact hlt)
      (fun k _ => hreach k) fun j hij hj hkj hlow => ?_
    have hnot := hlast j (by omega) hij hkj hlow
    unfold InReach at hnot
    push Not at hnot
    obtain ⟨k, hkj', hfreeK, hhigh⟩ := hnot
    exact ⟨k, Nat.zero_le k, hkj', hfreeK, hhigh⟩
  · intro p hp
    rcases neighbours_fst_mem hp with hnone | ⟨i, hi, hk, rfl, hlow⟩
    · cases hnone
    · rw [List.mem_range] at hi
      rcases hside i hi hk with ⟨-, hmem⟩ | ⟨hhigh, -⟩
      · exact ⟨hmem, (h.of_keepsFree hi hk).2⟩
      · omega
  · intro c hc hfree
    have hmem : c ∈ A ++ b :: B :=
      List.mem_append_right _ (List.mem_cons_of_mem b (List.mem_of_mem_head? hc))
    obtain ⟨hi, -, hblock⟩ := h.divided.keeps hmem
    have hk := h.keepsFree hmem hfree
    have hend : r.blockOf (r.heap.slotOf c) = r.heap.endOf b := by
      obtain ⟨B, rfl⟩ := List.head?_eq_some_iff.1 hc
      rw [hblock]
      exact hB.1.symm
    have hreach := hfinds.2 _ hi hk hend
    have hhigh : b < r.blockOf (r.heap.slotOf c) := by
      rw [hend]
      exact Heap.lt_endOf b
    rw [neighbours_snd, Option.map_eq_some_iff]
    refine ⟨r.heap.slotOf c, List.find?_range_eq_some.2 ⟨?_, List.mem_range.2 hi, ?_⟩, hblock⟩
    · rw [hk, decide_eq_true hhigh]
      rfl
    · intro k hkc
      cases hkk : r.keepsFree k with
      | false => rfl
      | true =>
        rw [decide_eq_false (hreach k hkc hkk)]
        rfl
  · intro p hp
    rw [neighbours_snd, Option.mem_def, Option.map_eq_some_iff] at hp
    obtain ⟨i, hfind, rfl⟩ := hp
    have hi := List.mem_range.1 (List.mem_of_find?_eq_some hfind)
    have hk := List.find?_some hfind
    rw [Bool.and_eq_true, decide_eq_true_iff] at hk
    rcases hside i hi hk.1 with ⟨hlow, -⟩ | ⟨-, hmem⟩
    · omega
    · exact ⟨hmem, (h.of_keepsFree hi hk.1).2⟩

/-- The bytes of a block that is given back are not used up. -/
theorem Parts.release (h : Parts r start size (A ++ b :: B) used) (hused : used b = true) :
    Parts (r.subUsedUp (r.heap.size b)) start size (A ++ b :: B)
      (Function.update used b false) := by
  obtain ⟨hbA, hbB⟩ := h.not_mem
  have hmark : ∀ l : List ℕ, b ∉ l → ∀ c ∈ l, Function.update used b false c = used c :=
    fun l hl c hc => Function.update_of_ne (ne_of_mem_of_not_mem hc hl) _ _
  have hfree : freeBytes r.heap.size used (A ++ b :: B) =
      freeBytes r.heap.size used A + freeBytes r.heap.size used B := by
    rw [freeBytes_append, freeBytes_cons, hused, if_pos rfl, Nat.zero_add]
  have hfree' : freeBytes r.heap.size (Function.update used b false) (A ++ b :: B) =
      freeBytes r.heap.size used A + (r.heap.size b + freeBytes r.heap.size used B) := by
    rw [freeBytes_append, freeBytes_cons, Function.update_self, if_neg Bool.false_ne_true,
      freeBytes_congr fun c hc => ⟨rfl, hmark A hbA c hc⟩,
      freeBytes_congr fun c hc => ⟨rfl, hmark B hbB c hc⟩]
  have hle := freeBytes_le h.tiles (Function.update used b false)
  have hcount := h.account
  have hsmall := h.small
  have hsixteen : sizeOfBlockNode = 16 := rfl
  rw [hsixteen, List.length_append, List.length_cons] at hle
  refine ⟨h.slots.withUsedUp _, h.tiles, h.bound, h.small, h.reserved, ?_, h.limit⟩
  change (r.process.usedUpReserv + (2 ^ 32 - r.heap.size b % 2 ^ 32)) % 2 ^ 32 +
    freeBytes r.heap.size _ _ = size
  rw [sub_eq (by omega) (by omega), hfree']
  omega

theorem joinPrev_of_ne {prev : Option ℕ} (h : ∀ p ∈ prev, r.heap.endOf p ≠ b) :
    r.joinPrev b prev = .ok (b, r) := by
  cases prev with
  | none => rfl
  | some p => exact if_neg (h p rfl)

theorem joinNext_of_ne {next : Option ℕ} (h : ∀ p ∈ next, r.heap.endOf b ≠ p) :
    r.joinNext b next = .ok r := by
  cases next with
  | none => rfl
  | some p => exact if_neg (h p rfl)

theorem Parts.joinPrev {prev next : Option ℕ} (h : Parts r start size (A ++ b :: B) used)
    (hb : used b = false) (hA : Heap.Apart A used) (hbeside : Beside A B used prev next) :
    ∃ x r' A', r.joinPrev b prev = .ok (x, r') ∧ Parts r' start size (A' ++ x :: B) used ∧
      used x = false ∧ Heap.Apart A' used ∧ (∀ s ∈ A'.getLast?, used s = true) ∧
      r'.heap.next = r.heap.next ∧
      ∀ c ∈ A' ++ x :: B, c ≠ x → c ≠ b ∧ c ∈ A ++ b :: B := by
  have hstay : (∀ p ∈ prev, r.heap.endOf p ≠ b) → (∀ s ∈ A.getLast?, used s = true) →
      ∃ x r' A', r.joinPrev b prev = .ok (x, r') ∧ Parts r' start size (A' ++ x :: B) used ∧
        used x = false ∧ Heap.Apart A' used ∧ (∀ s ∈ A'.getLast?, used s = true) ∧
        r'.heap.next = r.heap.next ∧
        ∀ c ∈ A' ++ x :: B, c ≠ x → c ≠ b ∧ c ∈ A ++ b :: B := fun hne hlast =>
    ⟨b, r, A, joinPrev_of_ne hne, h, hb, hA, hlast, rfl, fun c hc hcb => ⟨hcb, hc⟩⟩
  rcases List.eq_nil_or_concat' A with rfl | ⟨A, a, rfl⟩
  · refine hstay (fun p hp => ?_) fun s hs => nomatch hs
    cases (hbeside.prev_mem p hp).1
  · obtain ⟨m, hl, hm, -⟩ := Linked.append.1 h.tiles
    have hend : r.heap.endOf a = b := by
      rw [(Linked.concat.1 hl).2, hm]
      rfl
    cases ha : used a with
    | true =>
      refine hstay (fun p hp heq => ?_) fun s hs => ?_
      · obtain ⟨hmem, hfree⟩ := hbeside.prev_mem p hp
        rcases List.mem_append.1 hmem with hmem | hmem
        · have h' : Parts r start size (A ++ a :: b :: B) used := by
            rw [← List.append_cons] at h
            exact h
          have hle := h'.tiles.pairwise Heap.lt_endOf
          rw [List.pairwise_append] at hle
          have hpa := hle.2.2 p hmem a List.mem_cons_self
          have hlt := Heap.lt_endOf (h := r.heap) a
          omega
        · rw [List.mem_singleton.1 hmem, ha] at hfree
          cases hfree
      · rw [List.getLast?_concat] at hs
        cases hs
        exact ha
    | false =>
      have hprev := hbeside.prev_eq a List.getLast?_concat ha
      have hnodup := h.not_mem
      rw [← List.append_cons] at h
      obtain ⟨r', hjoin, hparts, hnext⟩ := h.join ha hb
      obtain ⟨hapart, hlast⟩ := Heap.apart_last hA ha
      refine ⟨a, r', A, ?_, hparts, ha, hapart, hlast, hnext, fun c hc hca => ?_⟩
      · rw [hprev]
        unfold Reserve.joinPrev
        dsimp only
        rw [if_pos hend, hjoin]
        rfl
      · rw [List.mem_append, List.mem_cons] at hc
        simp only [List.mem_append, List.mem_cons, not_or] at hnodup ⊢
        rcases hc with hc | hc | hc
        · exact ⟨ne_of_mem_of_not_mem hc hnodup.1.1, Or.inl (Or.inl hc)⟩
        · exact absurd hc hca
        · exact ⟨ne_of_mem_of_not_mem hc hnodup.2, Or.inr (Or.inr hc)⟩

theorem Parts.joinNext {next : Option ℕ} (h : Parts r start size (A ++ b :: B) used)
    (hb : used b = false) (hB : Heap.Apart B used)
    (hnext_eq : ∀ c ∈ B.head?, used c = false → next = some c)
    (hnext_mem : ∀ p ∈ next, p ∈ B ∧ used p = false) :
    ∃ r' B', r.joinNext b next = .ok r' ∧ Parts r' start size (A ++ b :: B') used ∧
      Heap.Apart B' used ∧ (∀ s ∈ B'.head?, used s = true) ∧ r'.heap.next = r.heap.next ∧
      ∀ c ∈ B', c ∈ B := by
  cases B with
  | nil =>
    refine ⟨r, [], joinNext_of_ne fun p hp => ?_, h, hB, fun s hs => (nomatch hs), rfl,
      fun _ hc => hc⟩
    cases (hnext_mem p hp).1
  | cons c B =>
    obtain ⟨m, -, -, hend, -⟩ := Linked.append.1 h.tiles
    have hend : r.heap.endOf b = c := hend
    cases hc : used c with
    | true =>
      refine ⟨r, c :: B, joinNext_of_ne fun p hp heq => ?_, h, hB, fun s hs => ?_, rfl,
        fun _ hd => hd⟩
      · obtain ⟨-, hfree⟩ := hnext_mem p hp
        rw [← heq, hend, hc] at hfree
        cases hfree
      · cases hs
        exact hc
    | false =>
      have hnext := hnext_eq c rfl hc
      obtain ⟨r', hjoin, hparts, hnext'⟩ := h.join hb hc
      obtain ⟨hapart, hhead⟩ := Heap.apart_head hB hc
      refine ⟨r', B, ?_, hparts, hapart, hhead, hnext', fun d hd => List.mem_cons_of_mem c hd⟩
      rw [hnext]
      unfold Reserve.joinNext
      dsimp only
      rw [if_pos hend, hjoin]

/-- The end of `MFreeReservedBlock` changes one bit of a header. -/
theorem Parts.markFree (h : Parts r start size parts used) (x : ℕ) :
    Parts (r.setNode x { r.heap.node x with
      nextNode := setFlag (r.heap.node x).nextNode reserveBit true }) start size parts used := by
  let r' := r.setNode x { r.heap.node x with
    nextNode := setFlag (r.heap.node x).nextNode reserveBit true }
  have hself : r'.heap.node x = { r.heap.node x with
      nextNode := setFlag (r.heap.node x).nextNode reserveBit true } := Heap.node_setNode_self x _
  have hnode : ∀ c, c ≠ x → r'.heap.node c = r.heap.node c := fun c hc =>
    Heap.node_setNode_of_ne hc _
  have hsize : r'.heap.size = r.heap.size := by
    funext c
    unfold Heap.size
    by_cases hc : c = x
    · rw [hc, hself]
    · rw [hnode c hc]
  have hslot : ∀ c, r'.heap.slotOf c = r.heap.slotOf c := by
    intro c
    unfold Heap.slotOf
    by_cases hc : c = x
    · rw [hc, hself]
      exact congrArg BitVec.toNat (getIndexOfOffset_setFlag (by decide) (by decide) _ _)
    · rw [hnode c hc]
  refine ⟨h.slots.congr (fun c _ => hslot c) fun _ => Iff.rfl, ?_, h.bound, h.small, ?_, ?_,
    h.limit⟩
  · exact h.tiles.congr fun c _ => Heap.endOf_congr (congrFun hsize c)
  · intro c hc
    by_cases hcx : c = x
    · have hflag := h.reserved x (hcx ▸ hc)
      unfold BlockNode.isReserved at hflag
      change (r'.heap.node c).isReserved = true
      unfold BlockNode.isReserved
      rw [getFlag_eq (by decide)] at hflag ⊢
      rw [hcx, hself, getLsbD_setFlag (by decide), if_neg (by decide)]
      exact hflag
    · rw [hnode c hcx]
      exact h.reserved c hc
  · change r.process.usedUpReserv + freeBytes r'.heap.size used parts = size
    rw [hsize]
    exact h.account

theorem Inv.mFreeReservedBlock (h : Inv r start size (A ++ b :: B) used) (hused : used b = true)
    (hfinds : r.NoneHidden b) :
    ∃ r' parts' used', r.mFreeReservedBlock b = .ok r' ∧ Inv r' start size parts' used' := by
  obtain ⟨prev, next, hsearch, hbeside⟩ := h.neighbours hused hfinds
  obtain ⟨hbA, hbB⟩ := h.divided.not_mem
  obtain ⟨hapartA, hapartB, -, -⟩ := Heap.apart_middle.1 h.apart
  have hmark : ∀ c, c ≠ b → Function.update used b false c = used c := fun c hc =>
    Function.update_of_ne hc _ _
  have hmarkB : ∀ c ∈ B, Function.update used b false c = used c := fun c hc =>
    hmark c (ne_of_mem_of_not_mem hc hbB)
  have hmarkA : ∀ c ∈ A, Function.update used b false c = used c := fun c hc =>
    hmark c (ne_of_mem_of_not_mem hc hbA)
  have hbeside' : Beside A B (Function.update used b false) prev next := by
    refine ⟨fun a ha hfree => hbeside.prev_eq a ha ?_, fun p hp => ?_,
      fun c hc hfree => hbeside.next_eq c hc ?_, fun p hp => ?_⟩
    · rw [← hmarkA a (List.mem_of_getLast? ha)]
      exact hfree
    · obtain ⟨hmem, hfree⟩ := hbeside.prev_mem p hp
      exact ⟨hmem, (hmarkA p hmem).trans hfree⟩
    · rw [← hmarkB c (List.mem_of_mem_head? hc)]
      exact hfree
    · obtain ⟨hmem, hfree⟩ := hbeside.next_mem p hp
      exact ⟨hmem, (hmarkB p hmem).trans hfree⟩
  obtain ⟨x, r₁, A', hprev, hparts₁, hx, hA', hlast, hnext₁, hmem₁⟩ :=
    (h.divided.release hused).joinPrev (Function.update_self b _ _)
      (Heap.apart_congr hapartA hmarkA) hbeside'
  obtain ⟨r₂, B', hnext, hparts₂, hB', hhead, hnext₂, hmem₂⟩ :=
    hparts₁.joinNext hx (Heap.apart_congr hapartB hmarkB) hbeside'.next_eq hbeside'.next_mem
  refine ⟨_, A' ++ x :: B', Function.update used b false, ?_, hparts₂.markFree x, fun c hc => ?_,
    Heap.apart_middle.2
      ⟨hA', hB', fun s hs => Or.inl (hlast s hs), fun s hs => Or.inr (hhead s hs)⟩⟩
  · unfold Reserve.mFreeReservedBlock
    dsimp only
    rw [hsearch]
    dsimp only
    rw [hprev]
    change (do
      let r ← r₁.joinNext x next
      pure _) = _
    rw [hnext]
    rfl
  · by_cases hcx : c = x
    · rw [hcx, hx]
      unfold Reserve.setNode
      dsimp only
      rw [Heap.node_setNode_self]
      unfold BlockNode.isReserveFree
      rw [getFlag_eq (by decide), getLsbD_setFlag (by decide), if_pos rfl]
      rfl
    · have hc' : c ∈ A' ++ x :: B := by
        rw [List.mem_append, List.mem_cons] at hc ⊢
        exact hc.imp_right (Or.imp_right (hmem₂ c))
      obtain ⟨hcb, hold⟩ := hmem₁ c hc' hcx
      have htold := h.told c hold
      unfold Reserve.setNode
      dsimp only
      rw [Heap.node_setNode_of_ne hcx, hmark c hcb, ← htold]
      have hnextc : r₂.heap.next c = r.heap.next c :=
        (congrFun hnext₂ c).trans (congrFun hnext₁ c)
      exact congrArg (getFlag · reserveBit) hnextc

theorem reserveStep_inv (h : Inv r start size parts used) {st : ReserveStep} (hst : r.Performs st)
    (hfinds : r.Finds st) :
    ∃ r' parts' used', reserveStep st r = .ok r' ∧ Inv r' start size parts' used' := by
  cases st with
  | malloc xWantedSize isMemory =>
    obtain ⟨free, ht⟩ := h.divided.slots.threaded
    obtain ⟨n', i, free', hnode, hthreaded, hsame, haccount⟩ :=
      ht.mGetOrRealocateProcessNode hst hfinds
    obtain ⟨p, r', parts', used', hmalloc, hinv⟩ :=
      (h.grow hthreaded hsame haccount).mMallocImpl hthreaded xWantedSize
    refine ⟨r', parts', used', ?_, hinv⟩
    unfold reserveStep
    dsimp only
    rw [hnode]
    change (do
      let (_, r) ← Reserve.mMallocImpl ⟨r.heap, n'⟩ xWantedSize
      pure r) = _
    rw [hmalloc]
    rfl
  | free node =>
    obtain ⟨i, hi, hk, rfl, -, hbusy⟩ := hst
    obtain ⟨hmem, -⟩ := h.divided.of_keeps hi hk
    have hused : used (r.blockOf i) = true := by
      have htold := h.told _ hmem
      rw [hbusy] at htold
      simpa using htold
    obtain ⟨A, B, rfl⟩ := List.append_of_mem hmem
    exact h.mFreeReservedBlock hused hfinds

theorem runAll_inv {steps : List ReserveStep} (h : Inv r start size parts used)
    (hsteps : EveryStep reserveStep (fun r st => r.Performs st ∧ r.Finds st) steps r) :
    ∃ r' parts' used', runAll reserveStep steps r = .ok r' ∧
      Inv r' start size parts' used' := by
  obtain ⟨r', hrun, parts', used', hinv⟩ := runAll_of_step
    (I := fun r => ∃ parts used, Inv r start size parts used) (fun r st hr hst => by
      obtain ⟨parts, used, h⟩ := hr
      obtain ⟨r', parts', used', hstep, hinv⟩ := reserveStep_inv h hst.1 hst.2
      exact ⟨r', hstep, parts', used', hinv⟩) ⟨parts, used, h⟩ hsteps
  exact ⟨r', parts', used', hrun, hinv⟩

theorem slots_new (aPid aReserv : ℕ) (slotOf : ℕ → ℕ) :
    Slots (ProcessNode.new aPid defProcessSize aReserv) slotOf [] :=
  ⟨⟨_, SlotTable.threaded_new aPid aReserv⟩, fun _ hb => (nomatch hb), fun i hi =>
    absurd hi (SlotTable.not_isUsed_new aPid aReserv i)⟩

/-- The block of a reserve is one free part. -/
theorem mCreateReservForProcess_inv {h : Heap} {p : ℕ} (aPid aReserv : ℕ)
    (hbound : h.endOf p < 2 ^ 63) :
    ∃ r, mCreateReservForProcess ⟨h, ProcessNode.new aPid defProcessSize aReserv⟩ p = .ok r ∧
      (r.heap.size p = r.process.sizeOfReserv →
        Inv r p (r.heap.size p) [p] fun _ => false) := by
  unfold Heap.endOf at hbound
  have hmem : ∀ c, c ∈ [p] ↔ c = p ∨ c ∈ ([] : List ℕ) := by
    intro c
    simp
  let b := ((h.node p).setIndex 0#16).setFlags true true
  have hnode : ((h.setNode p ((h.node p).setIndex 0#16)).setNode p b).node p = b :=
    Heap.node_setNode_self p b
  have hslot : ((h.setNode p ((h.node p).setIndex 0#16)).setNode p b).slotOf p = 0 := by
    unfold Heap.slotOf
    rw [hnode, BlockNode.index_setFlags, BlockNode.index_setIndex]
    rfl
  obtain ⟨n', hput, hslots, haccount⟩ := (slots_new aPid aReserv h.slotOf).put
    (SlotTable.threaded_new aPid aReserv) (by omega) hslot (fun c hc => nomatch hc) hmem
  have hself : (h.setNode p ((h.node p).setIndex 0#16)).node p = (h.node p).setIndex 0#16 :=
    Heap.node_setNode_self p _
  have hsize' : ((h.setNode p ((h.node p).setIndex 0#16)).setNode p b).size p = h.size p := by
    unfold Heap.size
    rw [hnode]
    rfl
  refine ⟨⟨(h.setNode p ((h.node p).setIndex 0#16)).setNode p b, { n' with usedUpReserv := 0 }⟩, ?_,
    fun hexact => ⟨⟨hslots.withUsedUp _, ⟨rfl, rfl⟩, ?_, ?_, ?_, ?_, hexact.symm⟩, ?_,
      List.IsChain.singleton _⟩⟩
  · unfold mCreateReservForProcess mKeepBlock
    dsimp only
    rw [hput]
    change Except.ok _ = Except.ok _
    unfold setNode
    dsimp only
    rw [hself]
  · dsimp only
    rw [hsize']
    exact hbound
  · dsimp only at hexact ⊢
    rw [hexact, haccount.sizeOfReserv]
    exact Nat.mod_lt _ (by decide)
  · intro c hc
    rw [List.mem_singleton.1 hc]
    dsimp only
    rw [hnode]
    exact BlockNode.isReserved_setFlags _ _ _
  · change 0 + freeBytes _ _ [p] = _
    rw [freeBytes_cons, if_neg Bool.false_ne_true]
    exact Nat.zero_add _
  · intro c hc
    rw [List.mem_singleton.1 hc]
    dsimp only
    rw [hnode]
    exact BlockNode.isReserveFree_setFlags _ _ _

theorem create_inv {h : Heap} {blocks : List ℕ} (ht : h.Tiled blocks used)
    (hapart : Heap.Apart blocks used) {aPid aReserv : ℕ}
    (hcreate : create h aPid aReserv = .ok (some (start, r)))
    (hexact : r.heap.size start = r.process.sizeOfReserv) :
    Inv r start (r.heap.size start) [start] fun _ => false := by
  unfold create at hcreate
  have hreserv : aReserv % 2 ^ 32 < 2 ^ 63 := by omega
  change (do
    let (p, heap) ← h.mMallocBlock (aReserv % 2 ^ 32) true 0
    _) = _ at hcreate
  rcases ht.mMallocBlock hapart hreserv (fun (hfalse : true = false) (_ : 0 ≠ 0) => nomatch hfalse)
    with hnone | ⟨who, h', blocks', used', hsome, htaken⟩
  · rw [hnone] at hcreate
    cases hcreate
  · have hmem : who ∈ blocks' := by
      have hin := htaken.perm.mem_iff.2 List.mem_cons_self
      exact List.mem_of_mem_filter hin
    have hbound := Nat.lt_of_le_of_lt (htaken.tiled.endOf_le hmem) htaken.tiled.bound
    obtain ⟨r', hreserve, hinv⟩ :=
      mCreateReservForProcess_inv aPid aReserv hbound
    rw [hsome] at hcreate
    dsimp only [bind, Except.bind] at hcreate
    rw [Nat.add_sub_cancel, hreserve] at hcreate
    cases hcreate
    exact hinv hexact

/-- The reserve of a process, in every run in which the search hides no free block beside one that
is freed. -/
theorem runAll_reserve_sound {h : Heap} {blocks : List ℕ} (ht : h.Tiled blocks used)
    (hapart : Heap.Apart blocks used) {aPid aReserv : ℕ}
    (hcreate : create h aPid aReserv = .ok (some (start, r)))
    (hexact : r.heap.size start = r.process.sizeOfReserv) {steps : List ReserveStep}
    (hsteps : EveryStep reserveStep (fun r st => r.Performs st ∧ r.Finds st) steps r) :
    ∃ r', runAll reserveStep steps r = .ok r' ∧ r'.Sound start (r.heap.size start) := by
  obtain ⟨r', parts, used', hrun, hinv⟩ := runAll_inv (create_inv ht hapart hcreate hexact) hsteps
  exact ⟨r', hrun, hinv.sound⟩

def smallHeap : Heap := .create 4096 0

theorem smallHeap_tiled :
    smallHeap.Tiled [152] (fun _ => false) ∧ Heap.Apart [152] fun _ => false := by
  have hinv := HeapState.inv_create (⟨by decide, by decide⟩ : HeapState.Fresh 4096 0) (by decide)
  exact ⟨hinv.tiled, hinv.apart⟩

/-- Two blocks and the rest, which is joined with the second. -/
def someReserveSteps : List ReserveStep :=
  [.malloc 100 true, .malloc 50 false, .free 3200, .malloc 24 true, .free 3080]

theorem runAll_reserve_sound_someReserveSteps :
    ∃ start r, create smallHeap 7 1000 = .ok (some (start, r)) ∧
      ∃ r', runAll reserveStep someReserveSteps r = .ok r' ∧
        r'.Sound start (r.heap.size start) := by
  obtain ⟨start, r, hcreate, hexact, hsteps⟩ :
      ∃ start r, create smallHeap 7 1000 = .ok (some (start, r)) ∧
        r.heap.size start = r.process.sizeOfReserv ∧
        EveryStep reserveStep (fun r st => r.Performs st ∧ r.Finds st) someReserveSteps r := by
    refine ⟨_, _, rfl, ?_, ?_⟩
    · decide +kernel
    · decide +kernel
  exact ⟨start, r, hcreate,
    runAll_reserve_sound smallHeap_tiled.1 smallHeap_tiled.2 hcreate hexact hsteps⟩

theorem Sound.endOf_ne {i j : ℕ} (h : r.Sound start size) (hi : i < r.process.arraySize)
    (hj : j < r.process.arraySize) (hfreeI : r.keepsFree i = true) (hfreeJ : r.keepsFree j = true) :
    r.heap.endOf (r.blockOf i) ≠ r.blockOf j := by
  obtain ⟨parts, hw⟩ := h
  unfold Reserve.keepsFree at hfreeI hfreeJ
  rw [Bool.and_eq_true, Bool.and_eq_true] at hfreeI hfreeJ
  exact hw.apart _ ((hw.kept _).2 ⟨i, hi, hfreeI.1.1, rfl⟩) _
    ((hw.kept _).2 ⟨j, hj, hfreeJ.1.1, rfl⟩) hfreeI.2 hfreeJ.2

/-- Frees after which the slots of the blocks are not in the order of the blocks. -/
def hidingSteps : List ReserveStep :=
  [.malloc 100 true, .malloc 50 true, .malloc 200 true, .free 3080, .free 3200, .free 3272,
    .malloc 100 true, .malloc 50 true, .malloc 200 true, .free 3200, .free 3272]

theorem exists_ok_of_any {ε σ : Type} {P : σ → Prop} [DecidablePred P] {e : Except ε σ}
    (h : e.toOption.any (fun s => decide (P s)) = true) : ∃ s, e = .ok s ∧ P s := by
  cases e with
  | error _ => cases h
  | ok s => exact ⟨s, rfl, of_decide_eq_true h⟩

/-- More than `FSizeOfReserv` is used up, and free blocks stay beside each other. -/
theorem reserve_false_of_rest :
    (∃ start r, create smallHeap 7 100 = .ok (some (start, r)) ∧
      ∃ r', runAll reserveStep [.malloc 96 true] r = .ok r' ∧
        EveryStep reserveStep Performs [.malloc 96 true] r ∧
        ¬ r'.Sound start (r.heap.size start)) ∧
    ∃ start r, create smallHeap 7 1000 = .ok (some (start, r)) ∧
      ∃ r', runAll reserveStep hidingSteps r = .ok r' ∧
        EveryStep reserveStep Performs hidingSteps r ∧ ¬ r'.Sound start (r.heap.size start) := by
  constructor
  · obtain ⟨start, r, hcreate, r', hrun, hperforms, hover⟩ :
        ∃ start r, create smallHeap 7 100 = .ok (some (start, r)) ∧
          ∃ r', runAll reserveStep [.malloc 96 true] r = .ok r' ∧
            EveryStep reserveStep Performs [.malloc 96 true] r ∧
            ¬ r'.process.usedUpReserv ≤ r'.process.sizeOfReserv := by
      refine ⟨_, _, rfl, _, rfl, ?_, ?_⟩
      · decide +kernel
      · decide +kernel
    exact ⟨start, r, hcreate, r', hrun, hperforms, fun ⟨_, hw⟩ => hover hw.limit⟩
  · obtain ⟨start, r, hcreate, r', hrun, hperforms, hbeside⟩ :
        ∃ start r, create smallHeap 7 1000 = .ok (some (start, r)) ∧
          ∃ r', runAll reserveStep hidingSteps r = .ok r' ∧
            EveryStep reserveStep Performs hidingSteps r ∧
            3 < r'.process.arraySize ∧ 2 < r'.process.arraySize ∧ r'.keepsFree 3 = true ∧
            r'.keepsFree 2 = true ∧ r'.heap.endOf (r'.blockOf 3) = r'.blockOf 2 := by
      refine ⟨_, _, rfl, exists_ok_of_any ?_⟩
      decide +kernel
    obtain ⟨hthree, htwo, hfreeThree, hfreeTwo, hend⟩ := hbeside
    exact ⟨start, r, hcreate, r', hrun, hperforms,
      fun hsound => hsound.endOf_ne hthree htwo hfreeThree hfreeTwo hend⟩

end Reserve

end UdtKernel.SharedAllocator
