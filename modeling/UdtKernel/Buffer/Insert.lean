import UdtKernel.Buffer.Storage
import UdtKernel.Lib.Outcome

set_option autoImplicit false

/-! Room for new bytes at a position. -/

namespace UdtKernel.Buffer
open UdtKernel.Lib

theorem subSize_eq {a b : ℕ} (hba : b ≤ a) (ha : a < 2 ^ 64) : subSize a b = a - b := by
  unfold subSize
  rw [Nat.mod_eq_of_lt (Nat.lt_of_le_of_lt hba ha)]
  omega

theorem before_eq {p n : ℕ} (h : n ≤ p) : before p n = .ok (p - n) := if_neg (Nat.not_lt.2 h)

namespace Storage

variable (s s' : Storage)

structure Fits : Prop where
  start_lt : s.startOffset < 2 ^ 16
  room : s.startOffset + s.size ≤ s.bufSize
  bufSize_lt : s.bufSize < 2 ^ 32

def freeEnd : ℕ := s.bufSize - s.size - s.startOffset

/-- `k` bytes at `p` are new, between the first `i` bytes and the others. -/
structure Opened (i k p : ℕ) : Prop where
  fits : s'.Fits
  size : s'.size = s.size + k
  position : p = s'.startOffset + i
  head : slice s'.memory s'.startOffset i = slice s.memory s.startOffset i
  tail : slice s'.memory (s'.startOffset + (i + k)) (s.size - i) =
    slice s.memory (s.startOffset + i) (s.size - i)

variable {s s'} {i k p : ℕ}

theorem mSetSize_eq {n : ℕ} (h : n < 2 ^ 32) : s.mSetSize n = .ok { s with size := n } :=
  if_neg (Nat.not_le.2 h)

theorem copy_eq {d f n : ℕ} (hd : d + n ≤ s.bufSize) (hf : f + n ≤ s.bufSize) :
    s.copy d f n = .ok { s with memory := moveTo s.memory d f n } :=
  if_neg fun h => by omega

theorem mFill_eq {l : List Byte} (h : p + l.length ≤ s.bufSize) :
    s.mFill p l = .ok { s with memory := writeAt s.memory p l } :=
  if_neg fun hout => by omega

theorem mSetStartOffset_eq {n : ℕ} (h : n < 2 ^ 16) :
    s.mSetStartOffset n = { s with startOffset := n } := by
  unfold mSetStartOffset
  rw [Nat.mod_eq_of_lt h]

/-- `n` bytes are moved on by `k + m`, the last `k` of them first. -/
theorem copy_copy {n m : ℕ} (hk : k ≤ n) (hend : p + n + (k + m) ≤ s.bufSize) :
    ∃ t memory, s.copy (p + n + m) (p + n - k) k = .ok t ∧
      t.copy (p + k + m) p (n - k) = .ok { s with memory } ∧
      slice memory (p + (k + m)) n = slice s.memory p n ∧
      ∀ q l, q + l ≤ p + k + m → slice memory q l = slice s.memory q l := by
  have hd : p + n + m = p + k + m + (n - k) := by omega
  have hp : p + n - k = p + (n - k) := Nat.add_sub_assoc hk p
  refine ⟨_, _, copy_eq (by omega) (by omega), copy_eq ?_ ?_, ?_, ?_⟩
  · dsimp only
    omega
  · dsimp only
    omega
  · rw [hd, hp, ← Nat.add_assoc p k m]
    exact slice_moveTo_moveTo _ hk (by omega)
  · intro q l hq
    rw [slice_moveTo_of_disjoint _ (Or.inl hq), slice_moveTo_of_disjoint _ (Or.inl (by omega))]

theorem Fits.subSize_before (h : s.Fits) (hi : i ≤ s.size) :
    subSize (s.startOffset + i) s.startOffset = i := by
  obtain ⟨-, hroom, hbuf⟩ := h
  rw [subSize_eq (Nat.le_add_right _ _) (by omega), Nat.add_sub_cancel_left]

theorem Fits.subSize_behind (h : s.Fits) (hi : i ≤ s.size) :
    subSize (s.startOffset + s.size) (s.startOffset + i) = s.size - i := by
  obtain ⟨-, hroom, hbuf⟩ := h
  rw [subSize_eq (Nat.add_le_add_left hi _) (by omega), Nat.add_sub_add_left]

theorem Fits.subSize_free (h : s.Fits) :
    subSize (subSize s.bufSize s.size) s.startOffset = s.freeEnd := by
  obtain ⟨-, hroom, hbuf⟩ := h
  rw [subSize_eq (a := s.bufSize) (by omega) (by omega), subSize_eq (by omega) (by omega)]
  rfl

theorem bytes_length : s.bytes.length = s.size := slice_length _ _ _

/-- The bytes in three parts, of which the middle one is new. -/
theorem Opened.bytes (h : s.Opened s' i k p) (hi : i ≤ s.size) :
    s'.bytes = s.bytes.take i ++ (slice s'.memory p k ++ s.bytes.drop i) := by
  have hsize : s'.size = i + k + (s.size - i) := by
    rw [h.size]
    omega
  unfold Storage.bytes
  rw [hsize, slice_add, slice_add, h.head, h.tail, slice_take _ _ hi, slice_drop _ _ hi,
    h.position, List.append_assoc]

theorem Opened.end_le (h : s.Opened s' i k p) (hi : i ≤ s.size) : p + k ≤ s'.bufSize := by
  have hroom := h.fits.room
  rw [h.size] at hroom
  rw [h.position]
  omega

/-- New bytes are filled with those of a list. -/
theorem Opened.mFill {l : List Byte} (h : s.Opened s' i l.length p) (hi : i ≤ s.size) :
    ∃ t, s'.mFill p l = .ok t ∧ t.Fits ∧ t.bytes = s.bytes.take i ++ (l ++ s.bytes.drop i) := by
  refine ⟨_, mFill_eq (h.end_le hi), ⟨h.fits.start_lt, h.fits.room, h.fits.bufSize_lt⟩, ?_⟩
  have hfilled : s.Opened { s' with memory := writeAt s'.memory p l } i l.length p := by
    refine ⟨⟨h.fits.start_lt, h.fits.room, h.fits.bufSize_lt⟩, h.size, h.position, ?_, ?_⟩
    · rw [← h.head]
      exact slice_writeAt_of_disjoint _ (Or.inl (Nat.le_of_eq h.position.symm))
    · rw [← h.tail]
      refine slice_writeAt_of_disjoint _ (Or.inr ?_)
      rw [h.position, Nat.add_assoc]
  rw [hfilled.bytes hi]
  dsimp only
  rw [slice_writeAt_self]

/-- The bytes behind the position stay where they are. -/
theorem Opened.before (h : s.Fits) (hk : k ≤ s.startOffset) :
    s.Opened { s with startOffset := s.startOffset - k, size := s.size + k } 0 k
      (s.startOffset - k) := by
  obtain ⟨hstart, hroom, hbuf⟩ := h
  refine ⟨⟨?_, ?_, hbuf⟩, rfl, rfl, rfl, ?_⟩
  · exact Nat.lt_of_le_of_lt (Nat.sub_le _ _) hstart
  · dsimp only
    omega
  · dsimp only
    rw [Nat.zero_add, Nat.sub_add_cancel hk, Nat.add_zero]

/-- Bytes are moved, and then the new storage holds the old bytes on both sides. -/
theorem Opened.of_memory {start : ℕ} {memory : ℕ → Byte} (hstart : start < 2 ^ 16)
    (hroom : start + (s.size + k) ≤ s.bufSize) (hbuf : s.bufSize < 2 ^ 32)
    (hhead : slice memory start i = slice s.memory s.startOffset i)
    (htail : slice memory (start + (i + k)) (s.size - i) =
      slice s.memory (s.startOffset + i) (s.size - i)) :
    s.Opened ⟨start, s.size + k, s.bufSize, memory⟩ i k (start + i) :=
  ⟨⟨hstart, hroom, hbuf⟩, rfl, rfl, hhead, htail⟩

end Storage

namespace CBuffer

variable (b : CBuffer) (s : Storage) (i k : ℕ)

/-- All bytes are moved on to make room at the begin, by fewer bytes or further than they can. -/
def MovesWrong : Prop :=
  i = 0 ∧ s.startOffset < b.beginSize ∧ 0 < s.size ∧
    (s.size < k ∨ 2 ^ 16 ≤ s.startOffset + min (s.freeEnd - k) (b.beginSize - s.startOffset))

/-- A storage for `n` bytes has room for `m` ones from its start offset on. -/
def HasRoom (n start m : ℕ) : Prop :=
  n ≤ b.maxSize ∧ start + m ≤ b.requred_buf_len n ∧ b.requred_buf_len n < 2 ^ 32

/-- `k` bytes can be inserted before the one at `i`. -/
def Opens : Prop :=
  match b.storage with
  | none => b.HasRoom k (b.beginSize % 2 ^ 16) k
  | some s => ¬ (i = 0 ∧ k ≤ s.startOffset) → (k ≤ s.freeEnd → ¬ b.MovesWrong s i k) ∧
      (s.freeEnd + s.startOffset < k → b.HasRoom (s.size + k) s.startOffset (s.size + k))

def Inv : Prop := ∀ s ∈ b.storage, s.Fits

instance : Decidable (b.MovesWrong s i k) := inferInstanceAs (Decidable (_ ∧ _ ∧ _ ∧ (_ ∨ _)))

instance (n start m : ℕ) : Decidable (b.HasRoom n start m) :=
  inferInstanceAs (Decidable (_ ∧ _ ∧ _))

instance : (b : CBuffer) → Decidable (b.Opens i k)
  | ⟨beginSize, maxSize, none⟩ =>
    inferInstanceAs (Decidable (HasRoom ⟨beginSize, maxSize, none⟩ _ _ _))
  | ⟨beginSize, maxSize, some s⟩ => inferInstanceAs (Decidable (¬ (_ ∧ _) →
      (k ≤ s.freeEnd → ¬ MovesWrong ⟨beginSize, maxSize, some s⟩ s i k) ∧
      (s.freeEnd + s.startOffset < k → HasRoom ⟨beginSize, maxSize, some s⟩ _ _ _)))

variable {b s i k}

theorem insertToEnd_opened (h : s.Fits) (hi : i ≤ s.size) (hk : k ≤ s.freeEnd)
    (hwrong : ¬ b.MovesWrong s i k) :
    ∃ p s', b.insertToEnd s (s.startOffset + i) k = .ok (p, s') ∧ s.Opened s' i k p := by
  have hfits := h
  obtain ⟨hstart, hroom, hbuf⟩ := h
  have hend : s.startOffset + (s.size + k) ≤ s.bufSize := by
    unfold Storage.freeEnd at hk
    omega
  have hsize : ∀ t : Storage, t.mSetSize (s.size + k) = .ok { t with size := s.size + k } :=
    fun t => Storage.mSetSize_eq (by omega)
  unfold insertToEnd
  dsimp only
  rw [hfits.subSize_before hi, hfits.subSize_behind hi, hfits.subSize_free]
  split_ifs with hlast hbegin hshort
  · -- nothing is behind the position
    rw [hsize]
    refine ⟨_, _, rfl, Storage.Opened.of_memory hstart hend hbuf rfl ?_⟩
    rw [hlast]
    rfl
  · -- all bytes are moved on
    obtain ⟨rfl, hless⟩ := hbegin
    have hshort : k ≤ s.size ∧
        s.startOffset + min (s.freeEnd - k) (b.beginSize - s.startOffset) < 2 ^ 16 := by
      unfold MovesWrong at hwrong
      omega
    have hmove : s.startOffset + min (s.freeEnd - k) (b.beginSize - s.startOffset) + (s.size + k) ≤
        s.bufSize := by
      unfold Storage.freeEnd at *
      omega
    generalize min (s.freeEnd - k) (b.beginSize - s.startOffset) = m at hshort hmove
    obtain ⟨t, memory, hlast, hfirst, hmoved, -⟩ :=
      s.copy_copy (p := s.startOffset) (m := m) hshort.1 (by omega)
    rw [Nat.sub_zero, Nat.add_zero, before_eq (by omega), subSize_eq hshort.1 (by omega)]
    simp only [bind, Except.bind, hlast, hfirst]
    rw [Storage.mSetStartOffset_eq hshort.2, hsize]
    refine ⟨_, _, rfl, Storage.Opened.of_memory hshort.2 ?_ hbuf rfl ?_⟩
    · rw [Nat.add_right_comm, Nat.add_assoc, Nat.add_assoc] at *
      omega
    · rw [Nat.zero_add, Nat.add_assoc, Nat.add_comm m k]
      exact hmoved
  · -- the last bytes are moved first
    obtain ⟨t, memory, hlast, hfirst, hmoved, hframe⟩ :=
      s.copy_copy (p := s.startOffset + i) (n := s.size - i) (m := 0) (Nat.le_of_lt hshort)
        (by omega)
    have hp : s.startOffset + i + (s.size - i) = s.startOffset + s.size := by omega
    rw [hp, Nat.add_zero] at hlast
    rw [before_eq (by omega)]
    simp only [bind, Except.bind, hlast]
    rw [Nat.add_zero] at hfirst
    simp only [hfirst]
    rw [hsize]
    refine ⟨_, _, rfl, Storage.Opened.of_memory hstart hend hbuf ?_ ?_⟩
    · exact hframe s.startOffset i (by omega)
    · rw [← Nat.add_assoc]
      exact hmoved
  · -- all that is behind the position is moved
    rw [Storage.copy_eq (by omega) (by omega)]
    simp only [bind, Except.bind]
    rw [hsize]
    refine ⟨_, _, rfl, Storage.Opened.of_memory hstart hend hbuf ?_ ?_⟩
    · refine slice_moveTo_of_disjoint _ (Or.inl ?_)
      exact Nat.le_add_right _ _
    · rw [← Nat.add_assoc]
      exact slice_moveTo_self _ _ _ _

theorem le_padded (n : ℕ) : n ≤ padded n := by
  unfold padded defBufReserve
  split_ifs <;> omega

theorem le_requred_buf_len {n : ℕ} (h : n ≤ b.maxSize) : n ≤ b.requred_buf_len n := by
  unfold requred_buf_len
  rw [if_neg (Nat.not_lt.2 h)]
  dsimp only
  split_ifs
  · exact h
  · exact Nat.le_add_right_of_le (le_padded n)

theorem HasRoom.len_ne_zero {n start m : ℕ} (h : b.HasRoom n start m) (hn : 0 < n) :
    b.requred_buf_len n ≠ 0 :=
  Nat.ne_of_gt (Nat.lt_of_lt_of_le hn (le_requred_buf_len h.1))

theorem HasRoom.mAllocate {n start m : ℕ} (h : b.HasRoom n start m) (hn : 0 < n)
    (memory : ℕ → Byte) : b.mAllocate n memory =
      .ok ⟨b.beginSize % 2 ^ 16, 0, b.requred_buf_len n, memory⟩ := by
  unfold CBuffer.mAllocate
  dsimp only
  rw [if_neg (h.len_ne_zero hn), if_neg (Nat.not_le.2 h.2.2)]
  rfl

theorem HasRoom.mReAllocate {n start m : ℕ} (h : b.HasRoom n start m) (hn : 0 < n)
    (hfits : s.Fits) (hroom : s.startOffset + s.size ≤ b.requred_buf_len n)
    (memory : ℕ → Byte) : ∃ memory', b.mReAllocate s n memory =
      .ok { s with bufSize := b.requred_buf_len n, memory := memory' } ∧
      ∀ q l, q + l ≤ s.startOffset + s.size → slice memory' q l = slice s.memory q l := by
  unfold CBuffer.mReAllocate
  dsimp only
  rw [if_neg (h.len_ne_zero hn), if_neg (Nat.not_le.2 h.2.2)]
  refine ⟨_, rfl, fun q l hq => slice_congr fun i hi => if_pos ?_⟩
  have hold := hfits.room
  omega

theorem insertInto_opened (hs : b.storage = some s) (h : s.Fits) (hi : i ≤ s.size) (hk : 0 < k)
    (hopens : b.Opens i k) (memory : ℕ → Byte) :
    ∃ p s', b.insertInto s (s.startOffset + i) k memory = .ok (p, s') ∧ s.Opened s' i k p := by
  unfold Opens at hopens
  rw [hs] at hopens
  dsimp only at hopens
  have hfits := h
  obtain ⟨hstart, hroom, hbuf⟩ := h
  have hend : ∀ n, n ≤ s.freeEnd + s.startOffset → s.size + n ≤ s.bufSize := by
    intro n hn
    unfold Storage.freeEnd at hn
    omega
  have hsize : ∀ (t : Storage) n, n ≤ s.bufSize → t.mSetSize n = .ok { t with size := n } :=
    fun t n hn => Storage.mSetSize_eq (by omega)
  have hsum : (s.freeEnd + s.startOffset) % 2 ^ 64 = s.freeEnd + s.startOffset := by
    unfold Storage.freeEnd
    exact Nat.mod_eq_of_lt (by omega)
  unfold insertInto
  dsimp only
  rw [hfits.subSize_before hi, hfits.subSize_behind hi, hfits.subSize_free, hsum]
  split_ifs with hbegin hbehind hboth
  · -- there is room before the bytes
    obtain ⟨rfl, hless⟩ := hbegin
    rw [Storage.mSetStartOffset_eq (by omega), hsize _ _ (hend k (by omega))]
    exact ⟨_, _, rfl, Storage.Opened.before hfits hless⟩
  · exact insertToEnd_opened hfits hi hbehind ((hopens hbegin).1 hbehind)
  · -- the bytes are moved to the begin of the storage
    have hroom' := hend k hboth
    rw [Storage.copy_eq (by omega) (by omega)]
    simp only [bind, Except.bind]
    rw [Storage.copy_eq (by dsimp only; omega) (by dsimp only; omega)]
    dsimp only
    rw [Storage.mSetStartOffset_eq (by omega), hsize _ _ hroom']
    dsimp only
    have htarget : s.startOffset + i + k - s.startOffset = i + k := by omega
    have hposition : s.startOffset + i - s.startOffset = 0 + i := by omega
    rw [htarget, hposition]
    refine ⟨_, _, rfl, Storage.Opened.of_memory (Nat.two_pow_pos 16) ?_ hbuf ?_ ?_⟩
    · rw [Nat.zero_add]
      exact hroom'
    · rw [slice_moveTo_of_disjoint _ (Or.inl (by omega)), slice_moveTo_self]
    · rw [Nat.zero_add, slice_moveTo_self]
      exact slice_moveTo_of_disjoint _ (Or.inr (by omega))
  · -- the storage is reallocated
    have hnew := (hopens hbegin).2 (Nat.not_le.1 hboth)
    have hlen := hnew.2.1
    have hsmall := hnew.2.2
    obtain ⟨memory', hre, hsame⟩ := hnew.mReAllocate (by omega) hfits (by omega) memory
    rw [hre]
    simp only [bind, Except.bind]
    rw [Storage.mSetSize_eq (by omega)]
    dsimp only
    rw [Storage.copy_eq (by dsimp only; omega) (by dsimp only; omega)]
    refine ⟨_, _, rfl, ⟨⟨hstart, hlen, hsmall⟩, rfl, rfl, ?_, ?_⟩⟩
    · dsimp only
      rw [slice_moveTo_of_disjoint _ (Or.inl (by omega))]
      exact hsame _ _ (by omega)
    · dsimp only
      rw [← Nat.add_assoc, slice_moveTo_self]
      exact hsame _ _ (by omega)

theorem mInsertImpl_opened (hb : b.Inv) (hi : i ≤ b.size) (hk : 0 < k) (hopens : b.Opens i k)
    (memory : ℕ → Byte) : ∃ (t : Storage) (p : ℕ) (s' : Storage),
      b.mInsertImpl (b.begin' + i) k memory = .ok (p, s') ∧
      t.bytes = b.bytes ∧ t.size = b.size ∧ t.Opened s' i k p := by
  unfold CBuffer.mInsertImpl CBuffer.begin' CBuffer.bytes
  unfold CBuffer.size at hi ⊢
  cases hs : b.storage with
  | none =>
    unfold Opens at hopens
    rw [hs] at hi hopens
    obtain rfl : i = 0 := Nat.le_zero.1 hi
    have hlen := hopens.2.1
    have hsmall := hopens.2.2
    dsimp only
    rw [hopens.mAllocate hk]
    simp only [bind, Except.bind]
    rw [Storage.mSetSize_eq (by omega)]
    exact ⟨⟨b.beginSize % 2 ^ 16, 0, b.requred_buf_len k, memory⟩, _, _, rfl, rfl, rfl,
      ⟨Nat.mod_lt _ (Nat.two_pow_pos 16), hlen, hsmall⟩, (Nat.zero_add k).symm, rfl, rfl, rfl⟩
  | some s =>
    rw [hs] at hi
    obtain ⟨p, s', hinsert, hopened⟩ := insertInto_opened hs (hb s hs) hi hk hopens memory
    exact ⟨s, p, s', hinsert, rfl, rfl, hopened⟩

end CBuffer

end UdtKernel.Buffer
