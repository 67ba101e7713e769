import UdtKernel.Buffer.Insert
import UdtKernel.Lib.Run

set_option autoImplicit false

/-! Runs of operations on a buffer, and the same ones on a vector of bytes. -/

namespace UdtKernel.Buffer
open UdtKernel.Lib

inductive BufferOp where
  | insert (__position : ℕ) (l : List Byte)
  | erase (aBegin aEnd : ℕ)
  | resize (aNewSize : ℕ) (fromBegin : Bool)
  | pushBack (x : Byte)
  | pushFront (x : Byte)
  | popBack
  | popFront
  | reserve (aSize : ℕ)
  | clear
  | createCopy
  | moveTo (beginSize : ℕ)

def bufferStep : BufferOp × (ℕ → Byte) → CBuffer → Except Fault CBuffer
  | (.insert i l, memory), b => b.insert i l memory
  | (.erase i j, _), b => b.erase i j
  | (.resize n fromBegin, memory), b => b.resize n fromBegin memory
  | (.pushBack x, memory), b => b.push_back x memory
  | (.pushFront x, memory), b => b.push_front x memory
  | (.popBack, _), b => b.pop_back
  | (.popFront, _), b => b.pop_front
  | (.reserve n, memory), b => b.reserve n memory
  | (.clear, _), b => b.clear
  | (.createCopy, memory), b => b.mCreateCopy memory
  | (.moveTo beginSize, _), b => .ok (b.mMoveTo beginSize)

/-- What an operation makes of a vector; the bytes it grows by are not specified. -/
def VectorStep (v v' : List Byte) : BufferOp → Prop
  | .insert i l => v' = v.take i ++ (l ++ v.drop i)
  | .erase i j => v' = v.take i ++ v.drop j
  | .resize n fromBegin =>
    if n ≤ v.length then v' = if fromBegin then v.drop (v.length - n) else v.take n
    else ∃ u, u.length = n - v.length ∧ v' = if fromBegin then u ++ v else v ++ u
  | .pushBack x => v' = v ++ [x]
  | .pushFront x => v' = x :: v
  | .popBack => v' = v.dropLast
  | .popFront => v' = v.tail
  | .clear => v' = []
  | .reserve _ | .createCopy | .moveTo _ => v' = v

theorem VectorStep.grow {v v' u : List Byte} {n : ℕ} {fromBegin : Bool} (hn : v.length < n)
    (hu : u.length = n - v.length) (hv : v' = if fromBegin then u ++ v else v ++ u) :
    VectorStep v v' (.resize n fromBegin) := by
  unfold VectorStep
  dsimp only
  rw [if_neg (Nat.not_le.2 hn)]
  exact ⟨u, hu, hv⟩

theorem VectorStep.shrink {v v' : List Byte} {n : ℕ} {fromBegin : Bool} (hn : n ≤ v.length)
    (hv : v' = if fromBegin then v.drop (v.length - n) else v.take n) :
    VectorStep v v' (.resize n fromBegin) := by
  unfold VectorStep
  dsimp only
  rw [if_pos hn]
  exact hv

namespace CBuffer

variable (b : CBuffer)

/-- The bytes change as those of a vector, and stay in the storage. -/
def Refines (op : BufferOp × (ℕ → Byte)) (b' : CBuffer) : Prop :=
  VectorStep b.bytes b'.bytes op.1 ∧ b'.begin' + b'.size ≤ b'.capacity

def Performs (op : BufferOp × (ℕ → Byte)) : Prop :=
  match op.1 with
  | .insert i _ => i ≤ b.size
  | .erase i j => i ≤ j ∧ j ≤ b.size
  | _ => True

/-- The start offset of the storage, or of the one that is to be allocated. -/
def startOffset : ℕ := (b.storage.map Storage.startOffset).getD (b.beginSize % 2 ^ 16)

/-- No byte is removed at the begin, none is pushed, and bytes are inserted where there is room for
them. -/
def Keeps (op : BufferOp × (ℕ → Byte)) : Prop :=
  match op.1 with
  | .insert i l => l ≠ [] → b.Opens i l.length
  | .erase i j => ¬ (i = 0 ∧ 0 < j ∧ j < b.size)
  | .resize n fromBegin => (n < b.size → fromBegin = true → n = 0) ∧
      (b.size < n → b.Opens (if fromBegin then 0 else b.size) (n - b.size))
  | .pushBack _ | .pushFront _ => False
  | .popFront => b.size = 0
  | .reserve n => b.capacity < n → b.HasRoom n b.startOffset b.size
  | _ => True

instance : (op : BufferOp × (ℕ → Byte)) → Decidable (b.Performs op)
  | (.insert _ _, _) => inferInstanceAs (Decidable (_ ≤ _))
  | (.erase _ _, _) => inferInstanceAs (Decidable (_ ∧ _))
  | (.resize _ _, _) | (.pushBack _, _) | (.pushFront _, _) | (.popBack, _) | (.popFront, _)
  | (.reserve _, _) | (.clear, _) | (.createCopy, _) | (.moveTo _, _) => isTrue trivial

instance : (op : BufferOp × (ℕ → Byte)) → Decidable (b.Keeps op)
  | (.insert _ _, _) => inferInstanceAs (Decidable (_ → b.Opens _ _))
  | (.erase _ _, _) => inferInstanceAs (Decidable (¬ (_ ∧ _ ∧ _)))
  | (.resize _ _, _) => inferInstanceAs (Decidable ((_ → _ → _) ∧ (_ → b.Opens _ _)))
  | (.pushBack _, _) | (.pushFront _, _) => isFalse not_false
  | (.popFront, _) => inferInstanceAs (Decidable (_ = _))
  | (.reserve _, _) => inferInstanceAs (Decidable (_ → b.HasRoom _ _ _))
  | (.popBack, _) | (.clear, _) | (.createCopy, _) | (.moveTo _, _) => isTrue trivial

variable {b}

theorem Inv.room (h : b.Inv) : b.begin' + b.size ≤ b.capacity := by
  unfold begin' size capacity
  cases hs : b.storage with
  | none => exact Nat.le_refl 0
  | some s => exact (h s hs).room

theorem inv_some {beginSize maxSize : ℕ} {s : Storage} (h : s.Fits) :
    (⟨beginSize, maxSize, some s⟩ : CBuffer).Inv := fun _ hs => Option.some.inj hs ▸ h

theorem bytes_length : b.bytes.length = b.size := by
  unfold bytes size
  cases b.storage with
  | none => rfl
  | some s => exact s.bytes_length

theorem insert_steps (h : b.Inv) {i : ℕ} {l : List Byte} (hi : i ≤ b.size)
    (hopens : l ≠ [] → b.Opens i l.length) (memory : ℕ → Byte) :
    ∃ b', b.insert i l memory = .ok b' ∧ b'.Inv ∧
      b'.bytes = b.bytes.take i ++ (l ++ b.bytes.drop i) := by
  unfold insert
  split_ifs with hl
  · refine ⟨b, rfl, h, ?_⟩
    rw [hl, List.nil_append, List.take_append_drop]
  · obtain ⟨t, p, s, hinsert, hbytes, hsize, hopened⟩ :=
      mInsertImpl_opened h hi (List.length_pos_iff.2 hl) (hopens hl) memory
    rw [← hsize] at hi
    obtain ⟨s', hfill, hfits, hfilled⟩ := hopened.mFill hi
    rw [hinsert]
    simp only [bind, Except.bind]
    rw [hfill]
    rw [hbytes] at hfilled
    exact ⟨_, rfl, inv_some hfits, hfilled⟩

theorem resize_of_lt {n : ℕ} (h : b.size < n) (fromBegin : Bool) (memory : ℕ → Byte) :
    b.resize n fromBegin memory = (do
      let (_, s) ← b.mInsertImpl (b.begin' + if fromBegin then 0 else b.size) (n - b.size) memory
      return { b with storage := some s }) := by
  unfold resize mInsertImpl begin'
  unfold size at *
  cases hs : b.storage with
  | none =>
    rw [hs] at h
    dsimp only [Option.map_none, Option.getD_none] at *
    rw [if_neg (Nat.ne_of_gt h), Nat.sub_zero]
    cases b.mAllocate n memory with
    | error e => rfl
    | ok s =>
      simp only [bind, Except.bind]
      cases s.mSetSize n <;> rfl
  | some s =>
    rw [hs] at h
    dsimp only [Option.map_some, Option.getD_some] at *
    rw [if_neg (Nat.lt_asymm h), if_neg (Nat.ne_of_gt h)]
    cases fromBegin <;> rfl

theorem grow_steps (h : b.Inv) {n : ℕ} {fromBegin : Bool} (hgrow : b.size < n)
    (hopens : b.Opens (if fromBegin then 0 else b.size) (n - b.size)) (memory : ℕ → Byte) :
    ∃ b', b.resize n fromBegin memory = .ok b' ∧ b'.Inv ∧
      VectorStep b.bytes b'.bytes (.resize n fromBegin) := by
  have hi : (if fromBegin then 0 else b.size) ≤ b.size := by split_ifs <;> omega
  obtain ⟨t, p, s, hinsert, hbytes, hsize, hopened⟩ :=
    mInsertImpl_opened h hi (Nat.sub_pos_of_lt hgrow) hopens memory
  have hgrown := hopened.bytes (hsize ▸ hi)
  rw [hbytes] at hgrown
  rw [resize_of_lt hgrow, hinsert]
  rw [← bytes_length] at hgrow
  refine ⟨_, rfl, inv_some hopened.fits,
    VectorStep.grow (u := slice s.memory p (n - b.size)) hgrow ?_ (hgrown.trans ?_)⟩
  · rw [slice_length, bytes_length]
  · cases fromBegin with
    | true => rfl
    | false =>
      change b.bytes.take b.size ++ (_ ++ b.bytes.drop b.size) = b.bytes ++ _
      rw [← bytes_length, List.take_length, List.drop_length, List.append_nil]

theorem shrink_steps (h : b.Inv) {n : ℕ} {fromBegin : Bool} (hshrink : n ≤ b.size)
    (hkeeps : n < b.size → fromBegin = true → n = 0) (memory : ℕ → Byte) :
    ∃ b', b.resize n fromBegin memory = .ok b' ∧ b'.Inv ∧
      VectorStep b.bytes b'.bytes (.resize n fromBegin) := by
  have hn : n ≤ b.bytes.length := bytes_length ▸ hshrink
  obtain ⟨beginSize, maxSize, _ | s⟩ := b
  · obtain rfl : n = 0 := Nat.le_zero.1 hshrink
    refine ⟨_, rfl, h, VectorStep.shrink hn ?_⟩
    cases fromBegin <;> rfl
  · have hfits := h s rfl
    unfold resize
    dsimp only
    by_cases hless : n < s.size
    · rw [if_pos hless]
      split_ifs with hzero hbegin
      · rw [hzero] at hn ⊢
        refine ⟨_, rfl, fun _ hs => (nomatch hs), VectorStep.shrink hn ?_⟩
        cases fromBegin with
        | true => exact List.drop_length.symm
        | false => rfl
      · exact absurd (hkeeps hless hbegin) hzero
      · have hroom := hfits.room
        have hbuf := hfits.bufSize_lt
        rw [Storage.mSetSize_eq (by omega)]
        refine ⟨_, rfl, inv_some ⟨hfits.start_lt, ?_, hbuf⟩, VectorStep.shrink hn ?_⟩
        · dsimp only
          omega
        · rw [if_neg hbegin]
          exact (slice_take _ _ hshrink).symm
    · obtain rfl : n = s.size := Nat.le_antisymm hshrink (Nat.not_lt.1 hless)
      rw [if_neg hless, if_pos rfl]
      refine ⟨_, rfl, h, VectorStep.shrink hn ?_⟩
      cases fromBegin with
      | true =>
        change _ = List.drop (s.bytes.length - s.size) s.bytes
        rw [s.bytes_length, Nat.sub_self]
        rfl
      | false =>
        change _ = List.take s.size s.bytes
        rw [← s.bytes_length, List.take_length]
        rfl

theorem erase_steps (h : b.Inv) {i j : ℕ} (hij : i ≤ j) (hj : j ≤ b.size)
    (hkeeps : ¬ (i = 0 ∧ 0 < j ∧ j < b.size)) :
    ∃ b', b.erase i j = .ok b' ∧ b'.Inv ∧ b'.bytes = b.bytes.take i ++ b.bytes.drop j := by
  obtain ⟨beginSize, maxSize, _ | s⟩ := b
  · refine ⟨_, rfl, h, ?_⟩
    obtain rfl : j = 0 := Nat.le_zero.1 hj
    obtain rfl : i = 0 := Nat.le_zero.1 hij
    rfl
  · have hfits := h s rfl
    have hroom := hfits.room
    have hbuf := hfits.bufSize_lt
    change j ≤ s.size at hj
    change ¬ (i = 0 ∧ 0 < j ∧ j < s.size) at hkeeps
    change ∃ b', _ ∧ _ ∧ _ = s.bytes.take i ++ s.bytes.drop j
    unfold erase
    dsimp only
    split_ifs with hsome hend hbegin
    · rw [subSize_eq (by omega) (by omega), Storage.mSetSize_eq (by omega), hend,
        Nat.sub_sub_self (hend ▸ hij)]
      refine ⟨_, rfl, inv_some ⟨hfits.start_lt, ?_, hbuf⟩, ?_⟩
      · dsimp only
        omega
      · rw [← s.bytes_length, List.drop_length, List.append_nil]
        exact (slice_take _ _ (hend ▸ hij)).symm
    · omega
    · have hsize : s.size - (j - i) = i + (s.size - j) := by omega
      rw [subSize_eq (by omega) (by omega), Storage.copy_eq (by omega) (by omega), hsize]
      simp only [bind, Except.bind]
      rw [Storage.mSetSize_eq (by omega)]
      refine ⟨_, rfl, inv_some ⟨hfits.start_lt, ?_, hbuf⟩, ?_⟩
      · dsimp only
        omega
      · change slice _ s.startOffset (i + (s.size - j)) = _
        unfold Storage.bytes
        rw [slice_add, slice_moveTo_self, slice_moveTo_of_disjoint _ (Or.inl (Nat.le_refl _)),
          slice_take _ _ (hij.trans hj), slice_drop _ _ hj]
    · obtain rfl : i = j := by omega
      refine ⟨_, rfl, h, ?_⟩
      rw [List.take_append_drop]
      rfl

theorem reserve_steps (h : b.Inv) {n : ℕ}
    (hroom : b.capacity < n → b.HasRoom n b.startOffset b.size) (memory : ℕ → Byte) :
    ∃ b', b.reserve n memory = .ok b' ∧ b'.Inv ∧ b'.bytes = b.bytes := by
  unfold reserve
  split_ifs with hle
  · exact ⟨b, rfl, h, rfl⟩
  · have hnew := hroom (Nat.not_le.1 hle)
    obtain ⟨beginSize, maxSize, _ | s⟩ := b
    · dsimp only
      rw [hnew.mAllocate (Nat.zero_lt_of_lt (Nat.not_le.1 hle))]
      exact ⟨_, rfl, inv_some ⟨Nat.mod_lt _ (Nat.two_pow_pos 16), hnew.2.1, hnew.2.2⟩, rfl⟩
    · have hfits := h s rfl
      obtain ⟨memory', hre, hsame⟩ := hnew.mReAllocate (Nat.zero_lt_of_lt (Nat.not_le.1 hle)) hfits
        hnew.2.1 memory
      dsimp only
      rw [hre]
      exact ⟨_, rfl, inv_some ⟨hfits.start_lt, hnew.2.1, hnew.2.2⟩, hsame _ _ (Nat.le_refl _)⟩

theorem mCreateCopy_steps (h : b.Inv) (memory : ℕ → Byte) :
    ∃ b', b.mCreateCopy memory = .ok b' ∧ b'.Inv ∧ b'.bytes = b.bytes := by
  obtain ⟨beginSize, maxSize, _ | s⟩ := b
  · exact ⟨_, rfl, fun _ hs => (nomatch hs), rfl⟩
  · have hfits := h s rfl
    have hroom := hfits.room
    have hsmall : s.size < 2 ^ 32 := Nat.lt_of_le_of_lt (by omega) hfits.bufSize_lt
    unfold mCreateCopy
    dsimp only
    rw [if_neg (Nat.not_le.2 hsmall)]
    refine ⟨_, rfl, inv_some ⟨Nat.two_pow_pos 16, ?_, hsmall⟩, ?_⟩
    · exact Nat.le_of_eq (Nat.zero_add _)
    · change slice (writeAt memory 0 s.bytes) 0 s.size = s.bytes
      rw [← s.bytes_length]
      exact slice_writeAt_self _ _ _

theorem pop_back_steps (h : b.Inv) :
    ∃ b', b.pop_back = .ok b' ∧ b'.Inv ∧ b'.bytes = b.bytes.dropLast := by
  rw [List.dropLast_eq_take, bytes_length]
  obtain ⟨beginSize, maxSize, _ | s⟩ := b
  · exact ⟨_, rfl, h, rfl⟩
  · have hfits := h s rfl
    have hroom := hfits.room
    unfold pop_back
    dsimp only
    by_cases hsize : s.size = 0
    · rw [if_pos hsize]
      refine ⟨_, rfl, h, ?_⟩
      change slice s.memory s.startOffset s.size = List.take (s.size - 1) s.bytes
      rw [hsize]
      rfl
    · rw [if_neg hsize]
      refine ⟨_, rfl, inv_some ⟨hfits.start_lt, ?_, hfits.bufSize_lt⟩, ?_⟩
      · dsimp only
        omega
      · exact (slice_take _ _ (Nat.sub_le _ _)).symm

theorem pop_front_steps (h : b.Inv) (hsize : b.size = 0) :
    ∃ b', b.pop_front = .ok b' ∧ b'.Inv ∧ b'.bytes = b.bytes.tail := by
  have hnil : b.bytes = [] := List.eq_nil_of_length_eq_zero (bytes_length.trans hsize)
  refine ⟨b, ?_, h, ?_⟩
  · obtain ⟨beginSize, maxSize, _ | s⟩ := b
    · rfl
    · exact congrArg Except.ok (if_pos hsize)
  · rw [hnil]
    rfl

theorem clear_steps (h : b.Inv) : ∃ b', b.clear = .ok b' ∧ b'.Inv ∧ b'.bytes = [] := by
  obtain ⟨beginSize, maxSize, _ | s⟩ := b
  · exact ⟨_, rfl, h, rfl⟩
  · have hfits := h s rfl
    have hroom := hfits.room
    refine ⟨_, rfl, inv_some ⟨hfits.start_lt, ?_, hfits.bufSize_lt⟩, rfl⟩
    dsimp only
    omega

theorem bufferStep_steps (h : b.Inv) {op : BufferOp × (ℕ → Byte)} (hperforms : b.Performs op)
    (hkeeps : b.Keeps op) :
    ∃ b', bufferStep op b = .ok b' ∧ b'.Inv ∧ VectorStep b.bytes b'.bytes op.1 := by
  obtain ⟨op, memory⟩ := op
  cases op with
  | insert i l => exact insert_steps h hperforms hkeeps memory
  | erase i j => exact erase_steps h hperforms.1 hperforms.2 hkeeps
  | resize n fromBegin =>
    by_cases hgrow : b.size < n
    · exact grow_steps h hgrow (hkeeps.2 hgrow) memory
    · exact shrink_steps h (Nat.not_lt.1 hgrow) hkeeps.1 memory
  | pushBack x => exact hkeeps.elim
  | pushFront x => exact hkeeps.elim
  | popBack => exact pop_back_steps h
  | popFront => exact pop_front_steps h hkeeps
  | reserve n => exact reserve_steps h hkeeps memory
  | clear => exact clear_steps h
  | createCopy => exact mCreateCopy_steps h memory
  | moveTo beginSize => exact ⟨_, rfl, h, rfl⟩

/-- The bytes of a buffer are those of a vector, in every run in which no byte is removed at the
begin or pushed and there is room for what is inserted. -/
theorem runAll_bytes_refine (beginSize maxSize : ℕ) {ops : List (BufferOp × (ℕ → Byte))}
    (hops : EveryStep bufferStep (fun b op => b.Performs op ∧ b.Keeps op) ops
      ⟨beginSize, maxSize, none⟩) :
    Traced bufferStep Refines ops ⟨beginSize, maxSize, none⟩ := by
  refine traced_of_step (I := Inv) (fun b op hb hop => ?_) (fun _ hs => (nomatch hs)) hops
  obtain ⟨b', hstep, hinv, hvector⟩ := bufferStep_steps hb hop.1 hop.2
  exact ⟨b', hstep, hinv, hvector, hinv.room⟩

def someMemory : ℕ → Byte := fun _ => 7

/-- Insertions at both ends and between, one of them into a storage that is allocated again. -/
def someBufferOps : List (BufferOp × (ℕ → Byte)) :=
  [BufferOp.insert 0 [1, 2, 3, 4], .insert 0 [5], .insert 2 [6, 8], .erase 3 5, .popBack,
    .resize 300 false, .insert 0 (List.replicate 260 9), .insert 0 [1], .createCopy,
    .insert 561 [2], .moveTo 16, .reserve 1000, .resize 2000 true, .clear, .popFront].map
    fun op => (op, someMemory)

theorem runAll_bytes_refine_someBufferOps :
    EveryStep bufferStep (fun b op => b.Performs op ∧ b.Keeps op) someBufferOps
      ⟨256, 10000, none⟩ ∧ Traced bufferStep Refines someBufferOps ⟨256, 10000, none⟩ := by
  have hops : EveryStep bufferStep (fun b op => b.Performs op ∧ b.Keeps op) someBufferOps
      ⟨256, 10000, none⟩ := by decide +kernel
  exact ⟨hops, runAll_bytes_refine 256 10000 hops⟩

/-- The size stays when the first byte is removed; bytes inserted before fewer ones than they are
come from outside the storage; a byte that is pushed becomes two. -/
theorem bytes_false_of_begin :
    (∃ b b', bufferStep (.insert 0 [1, 2, 3], someMemory) ⟨256, 10000, none⟩ = .ok b ∧
      bufferStep (.popFront, someMemory) b = .ok b' ∧ b.Performs (.popFront, someMemory) ∧
      ¬ b.Refines (.popFront, someMemory) b') ∧
    (∃ b, runAll bufferStep [(.reserve 10, someMemory), (.insert 0 [1, 2], someMemory)]
        ⟨4, 10000, none⟩ = .ok b ∧ b.Performs (.insert 0 [3, 4, 5], someMemory) ∧
      bufferStep (.insert 0 [3, 4, 5], someMemory) b = .error .outside) ∧
    ∃ b, bufferStep (.pushBack 7, someMemory) ⟨256, 10000, none⟩ = .ok b ∧ b.bytes = [7, 1] ∧
      ¬ (⟨256, 10000, none⟩ : CBuffer).Refines (.pushBack 7, someMemory) b := by
  refine ⟨⟨_, _, rfl, rfl, trivial, fun h => ?_⟩, ⟨_, rfl, Nat.zero_le _, rfl⟩,
    ⟨_, rfl, by decide +kernel, fun h => ?_⟩⟩
  · have hlength := congrArg List.length h.1
    revert hlength
    decide +kernel
  · have hlength := congrArg List.length h.1
    revert hlength
    decide +kernel

end CBuffer

end UdtKernel.Buffer
