import UdtKernel.Buffer.Runs

set_option autoImplicit false

/-! How great the storage of a buffer is after it is asked for room. -/

namespace UdtKernel.Buffer
open UdtKernel.Lib

namespace Storage
variable {s t : Storage}

theorem bufSize_mSetSize {n : ℕ} (h : s.mSetSize n = .ok t) : t.bufSize = s.bufSize := by
  unfold mSetSize at h
  split_ifs at h
  cases h
  rfl

theorem bufSize_copy {d f n : ℕ} (h : s.copy d f n = .ok t) : t.bufSize = s.bufSize := by
  unfold copy at h
  split_ifs at h
  cases h
  rfl

end Storage

namespace CBuffer
variable {b b' : CBuffer} {s : Storage} {n p : ℕ} {memory : ℕ → Byte}

theorem lt_padded (n : ℕ) : n < padded n := by
  unfold padded defBufReserve
  split_ifs <;> omega

theorem lt_requred_buf_len (h : n < b.maxSize) : n < b.requred_buf_len n := by
  have hlt := lt_padded n
  unfold requred_buf_len
  rw [if_neg (Nat.not_lt_of_gt h)]
  dsimp only
  split_ifs
  · exact h
  · omega

/-- The room that is asked for does not depend on the bytes where it is enough for them. -/
theorem requred_buf_len_congr (hmax : b'.maxSize = b.maxSize) (hbegin : b'.beginSize = b.beginSize)
    (hsize : b.size ≤ n) (hsize' : b'.size ≤ n) : b'.requred_buf_len n = b.requred_buf_len n := by
  have hle := le_padded n
  have hfree : ¬padded n + b.beginSize < b.size := by omega
  have hfree' : ¬padded n + b.beginSize < b'.size := by omega
  unfold requred_buf_len
  rw [hmax, hbegin]
  simp only [hfree, hfree', false_or]

structure Resized (b b' : CBuffer) (capacity : ℕ) : Prop where
  maxSize : b'.maxSize = b.maxSize
  beginSize : b'.beginSize = b.beginSize
  capacity_eq : b'.capacity = capacity

theorem reserve_resized (h : b.reserve n memory = .ok b') :
    b.Resized b' (if n ≤ b.capacity then b.capacity else b.requred_buf_len n) := by
  unfold reserve at h
  split_ifs at h ⊢ with hle
  · cases h
    exact ⟨rfl, rfl, rfl⟩
  · obtain ⟨beginSize, maxSize, _ | s⟩ := b
    · obtain ⟨t, hallocate, ht⟩ := eq_ok_of_bind h
      cases ht
      unfold mAllocate at hallocate
      dsimp only at hallocate
      split_ifs at hallocate
      cases hallocate
      exact ⟨rfl, rfl, rfl⟩
    · obtain ⟨t, hallocate, ht⟩ := eq_ok_of_bind h
      cases ht
      unfold mReAllocate at hallocate
      dsimp only at hallocate
      split_ifs at hallocate
      cases hallocate
      exact ⟨rfl, rfl, rfl⟩

/-- Bytes behind the others, for which there is room, leave the storage as great as it is. -/
theorem insertInto_bufSize (hfits : s.Fits) {k : ℕ} (hroom : s.size + k ≤ s.bufSize)
    {r : ℕ × Storage} (h : b.insertInto s (s.startOffset + s.size) k memory = .ok r) :
    r.2.bufSize = s.bufSize := by
  have hin := hfits.room
  have hbuf := hfits.bufSize_lt
  have hsum : (s.freeEnd + s.startOffset) % 2 ^ 64 = s.bufSize - s.size := by
    unfold Storage.freeEnd
    omega
  unfold insertInto at h
  dsimp only at h
  rw [hfits.subSize_before le_rfl, hfits.subSize_behind le_rfl, hfits.subSize_free, Nat.sub_self,
    hsum] at h
  split_ifs at h with hbegin hend hboth
  · obtain ⟨t, hset, ht⟩ := eq_ok_of_bind h
    cases ht
    exact Storage.bufSize_mSetSize (s := s.mSetStartOffset (s.startOffset - k)) hset
  · unfold insertToEnd at h
    dsimp only at h
    rw [hfits.subSize_behind le_rfl, Nat.sub_self, if_pos rfl] at h
    obtain ⟨t, hset, ht⟩ := eq_ok_of_bind h
    cases ht
    exact Storage.bufSize_mSetSize hset
  · obtain ⟨s₁, hcopy₁, h⟩ := eq_ok_of_bind h
    obtain ⟨s₂, hcopy₂, h⟩ := eq_ok_of_bind h
    obtain ⟨s₃, hset, hr⟩ := eq_ok_of_bind h
    cases hr
    calc s₃.bufSize = s₂.bufSize := Storage.bufSize_mSetSize (s := s₂.mSetStartOffset 0) hset
      _ = s₁.bufSize := Storage.bufSize_copy hcopy₂
      _ = s.bufSize := Storage.bufSize_copy hcopy₁
  · omega

theorem resize_resized (hb : b.Inv) (hsize : b.size ≤ n) (hn : n ≤ b.capacity)
    (h : b.resize n false memory = .ok b') : b.Resized b' b.capacity := by
  rcases Nat.eq_or_lt_of_le hsize with rfl | hlt
  · obtain ⟨beginSize, maxSize, _ | s⟩ := b
    · cases h
      exact ⟨rfl, rfl, rfl⟩
    · change (if s.size < s.size then _ else if s.size = s.size then _ else _) = _ at h
      rw [if_neg (lt_irrefl _), if_pos rfl] at h
      cases h
      exact ⟨rfl, rfl, rfl⟩
  · rw [resize_of_lt hlt] at h
    obtain ⟨⟨q, t⟩, hinsert, ht⟩ := eq_ok_of_bind h
    cases ht
    obtain ⟨beginSize, maxSize, _ | s⟩ := b
    · exact absurd (lt_of_lt_of_le hlt hn) (Nat.lt_irrefl 0)
    · have hgrown : s.size + (n - s.size) ≤ s.bufSize := by
        change s.size < n at hlt
        change n ≤ s.bufSize at hn
        omega
      exact ⟨rfl, rfl, insertInto_bufSize (hb s rfl) hgrown hinsert⟩

/-- A buffer grows at its end where its storage has room. -/
theorem opens_end (hb : b.Inv) (hsize : b.size ≤ n) (hn : n ≤ b.capacity)
    (hcapacity : b.capacity ≠ 0) : b.Opens b.size (n - b.size) := by
  obtain ⟨beginSize, maxSize, _ | s⟩ := b
  · exact absurd rfl hcapacity
  · have hin := (hb s rfl).room
    change s.size ≤ n at hsize
    change n ≤ s.bufSize at hn
    intro _
    refine ⟨fun _ hwrong => ?_, fun hless => ?_⟩
    · obtain ⟨hzero, -, hpos, -⟩ := hwrong
      exact absurd hzero (Nat.ne_of_gt hpos)
    · unfold Storage.freeEnd at hless
      change s.bufSize - s.size - s.startOffset + s.startOffset < n - s.size at hless
      omega

/-- A buffer whose storage is full but for a byte grows at its end where another storage can be
    had. -/
theorem opens_full (hb : b.Inv) (hcapacity : b.capacity = b.size + 1) {k : ℕ} (hk : 1 < k)
    (hmax : b.size + k < b.maxSize) (hsmall : b.requred_buf_len (b.size + k) < 2 ^ 32) :
    b.Opens b.size k := by
  have hlen := lt_requred_buf_len hmax
  obtain ⟨beginSize, maxSize, _ | s⟩ := b
  · exact absurd hcapacity (Nat.succ_ne_zero _).symm
  · have hin := (hb s rfl).room
    change s.bufSize = s.size + 1 at hcapacity
    change s.size + k < requred_buf_len _ (s.size + k) at hlen
    intro _
    refine ⟨fun hless => ?_, fun _ => ⟨Nat.le_of_lt hmax, ?_, hsmall⟩⟩
    · unfold Storage.freeEnd at hless
      omega
    · omega

/-- A buffer that does not get shorter has some bytes more. -/
theorem resize_longer (hb : b.Inv) (hsize : b.size ≤ n)
    (hopens : b.size < n → b.Opens b.size (n - b.size)) (memory : ℕ → Byte) :
    ∃ b' u, b.resize n false memory = .ok b' ∧ b'.Inv ∧ b'.bytes = b.bytes ++ u ∧ b'.size = n := by
  rcases Nat.eq_or_lt_of_le hsize with rfl | hlt
  · obtain ⟨b', hresize, hinv, hvector⟩ := @shrink_steps b hb b.size false le_rfl
      (fun _ hfalse => nomatch hfalse) memory
    have hbytes : b'.bytes = b.bytes := by
      rw [VectorStep, if_pos (Nat.le_of_eq bytes_length.symm)] at hvector
      rw [hvector, if_neg Bool.false_ne_true, List.take_of_length_le (Nat.le_of_eq bytes_length)]
    refine ⟨b', [], hresize, hinv, by rw [hbytes, List.append_nil], ?_⟩
    rw [← bytes_length, hbytes, bytes_length]
  · obtain ⟨b', hresize, hinv, hvector⟩ :=
      @grow_steps b hb n false hlt (hopens hlt) memory
    rw [VectorStep, if_neg (by rw [bytes_length]; omega)] at hvector
    obtain ⟨u, hu, hbytes⟩ := hvector
    rw [if_neg Bool.false_ne_true] at hbytes
    refine ⟨b', u, hresize, hinv, hbytes, ?_⟩
    rw [← bytes_length, hbytes, List.length_append, hu, bytes_length]
    omega

/-- A buffer that does not get longer has the first of its bytes. -/
theorem resize_shorter (hb : b.Inv) (hsize : n ≤ b.size) (memory : ℕ → Byte) :
    ∃ b', b.resize n false memory = .ok b' ∧ b'.Inv ∧ b'.bytes = b.bytes.take n := by
  obtain ⟨b', hresize, hinv, hvector⟩ := @shrink_steps b hb n false hsize
    (fun _ hfalse => nomatch hfalse) memory
  rw [VectorStep, if_pos (by rwa [bytes_length]), if_neg Bool.false_ne_true] at hvector
  exact ⟨b', hresize, hinv, hvector⟩

end CBuffer

end UdtKernel.Buffer
