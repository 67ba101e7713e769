import UdtKernel.Buffer.Detach

set_option autoImplicit false

/-! Operations on an object whose storage others may hold, beside those on a buffer of its own. -/

namespace UdtKernel.Buffer
open UdtKernel.Lib

namespace CBuffer

/-- The bytes stay in the storage when the first `n` places are left out. -/
def RoomBehind (b : CBuffer) (n : ℕ) : Prop :=
  ∀ s ∈ b.storage, s.startOffset + n + s.size ≤ s.bufSize ∧ s.startOffset + n < 2 ^ 16

instance : (b : CBuffer) → (n : ℕ) → Decidable (b.RoomBehind n)
  | ⟨_, _, none⟩, _ => isTrue fun _ hs => nomatch hs
  | ⟨_, _, some s⟩, n => decidable_of_iff
      (s.startOffset + n + s.size ≤ s.bufSize ∧ s.startOffset + n < 2 ^ 16)
      ⟨fun h _ hs => Option.some.inj hs ▸ h, fun h => h s rfl⟩

theorem RoomBehind.inv {beginSize maxSize n : ℕ} {s : Storage} (h : s.Fits)
    (hroom : RoomBehind ⟨beginSize, maxSize, some s⟩ n) :
    Inv ⟨beginSize, maxSize, some (s.mSetStartOffset (s.startOffset + n))⟩ := by
  obtain ⟨hend, hstart⟩ := hroom s rfl
  rw [Storage.mSetStartOffset_eq hstart]
  exact inv_some ⟨hstart, hend, h.bufSize_lt⟩

theorem resize_zero {b : CBuffer} (h : 0 < b.size) (fromBegin : Bool) (memory : ℕ → Byte) :
    b.resize 0 fromBegin memory = .ok { b with storage := none } := by
  obtain ⟨beginSize, maxSize, _ | s⟩ := b
  · exact absurd h (Nat.lt_irrefl 0)
  · change 0 < s.size at h
    unfold resize
    dsimp only
    rw [if_pos h, if_pos rfl]

theorem resize_size {b : CBuffer} (fromBegin : Bool) (memory : ℕ → Byte) :
    b.resize b.size fromBegin memory = .ok b := by
  obtain ⟨beginSize, maxSize, _ | s⟩ := b
  · rfl
  · change (if s.size < s.size then _ else if s.size = s.size then _ else _) = _
    rw [if_neg (Nat.lt_irrefl _), if_pos rfl]

end CBuffer

namespace Storage

variable {s : Storage} {i j : ℕ}

/-- The branches of `erase`, with indexes. -/
def erased (s : Storage) (i j : ℕ) : Except Fault Storage :=
  if j = s.size then s.mSetSize (subSize s.size (j - i))
  else if i = 0 then .ok (s.mSetStartOffset (s.startOffset + (j - i)))
  else do
    let t ← s.copy (s.startOffset + i) (s.startOffset + j) (s.size - j)
    t.mSetSize (subSize s.size (j - i))

theorem size_copy {d f n : ℕ} {t : Storage} (h : s.copy d f n = .ok t) : t.size = s.size := by
  unfold copy at h
  split_ifs at h
  cases h
  rfl

theorem Fits.erased (h : s.Fits) (hij : i < j) (hj : j ≤ s.size)
    (hroom : i = 0 → j < s.size → s.startOffset + j + s.size ≤ s.bufSize ∧
      s.startOffset + j < 2 ^ 16) : ∃ t, s.erased i j = .ok t ∧ t.Fits := by
  have hend := h.room
  have hbuf := h.bufSize_lt
  unfold Storage.erased
  rw [subSize_eq (by omega) (by omega)]
  split_ifs with hlast hbegin
  · refine ⟨_, mSetSize_eq (by omega), h.start_lt, ?_, hbuf⟩
    dsimp only
    omega
  · obtain ⟨hend', hstart⟩ := hroom hbegin (by omega)
    rw [hbegin, Nat.sub_zero, mSetStartOffset_eq hstart]
    exact ⟨_, rfl, hstart, hend', hbuf⟩
  · rw [copy_eq (by omega) (by omega)]
    refine ⟨_, mSetSize_eq (by omega), h.start_lt, ?_, hbuf⟩
    dsimp only
    omega

end Storage

theorem CBuffer.erase_self {b : CBuffer} (i : ℕ) : b.erase i i = .ok b := by
  obtain ⟨beginSize, maxSize, _ | s⟩ := b
  · rfl
  · exact if_neg fun h => Nat.lt_irrefl i h.2

theorem CBuffer.erase_eq {beginSize maxSize i j : ℕ} {s : Storage} (hs : s.size ≠ 0) (hij : i < j) :
    CBuffer.erase ⟨beginSize, maxSize, some s⟩ i j =
      (s.erased i j).map fun t => ⟨beginSize, maxSize, some t⟩ := by
  unfold CBuffer.erase Storage.erased
  dsimp only
  rw [if_pos ⟨hs, hij⟩]
  split_ifs
  · cases s.mSetSize (subSize s.size (j - i)) <;> rfl
  · rfl
  · cases s.copy (s.startOffset + i) (s.startOffset + j) (s.size - j) with
    | error e => rfl
    | ok t =>
      simp only [bind, Except.bind]
      cases t.mSetSize (subSize s.size (j - i)) <;> rfl

namespace World

variable {w w' w₁ : World} {o : ℕ} {x x' : Object} {b c : CBuffer} {s : Option Storage}
variable {e : BufferOp × (ℕ → Byte)} {p : Pointer}

structure Mutates (w : World) (o : ℕ) (x : Object) (e : BufferOp × (ℕ → Byte))
    (s : Option Storage) (w' : World) : Prop where
  becomes : w.Becomes o s w'
  alone : ¬ 1 < w.use_count x → ∃ c, bufferStep e (w.buffer x) = .ok c ∧ c.storage = s
  shared : 1 < w.use_count x →
    VectorStep (w.buffer x).bytes ({ w.buffer x with storage := s } : CBuffer).bytes e.1

theorem mutates_of_own (hbecomes : w.Becomes o c.storage w')
    (hstep : bufferStep e (w.own x e.2) = .ok c)
    (hvector : 1 < w.use_count x → VectorStep (w.own x e.2).bytes c.bytes e.1) :
    w.Mutates o x e c.storage w' := by
  refine ⟨hbecomes, fun halone => ⟨c, ?_, rfl⟩, fun hshared => ?_⟩
  · rw [own, if_neg halone] at hstep
    exact hstep
  · have h := hvector hshared
    rw [bytes_own] at h
    exact h

theorem not_roomBehind_own {n : ℕ} {memory : ℕ → Byte} (hshared : 1 < w.use_count x)
    (hsize : (w.buffer x).size ≠ 0) (hn : 0 < n) : ¬ (w.own x memory).RoomBehind n := by
  intro hroom
  unfold own at hroom
  rw [if_pos hshared] at hroom
  cases hs : (w.buffer x).storage with
  | none =>
    unfold CBuffer.size at hsize
    rw [hs] at hsize
    exact hsize rfl
  | some t =>
    have ht := (hroom _ (congrArg (Option.map _) hs)).1
    dsimp only at ht
    omega

theorem Inv.insert (h : w.Inv) (hfind : w.find o = some x) (hp : w.Points x p) {l : List Byte}
    (hadmits : l ≠ [] → w.Admits x (w.index x p) l.length) (memory : ℕ → Byte) :
    ∃ w' s, w.insert o p l memory = .ok w' ∧ w.Becomes o s w' ∧
      ({ w.buffer x with storage := s } : CBuffer).bytes =
        (w.buffer x).bytes.take (w.index x p) ++ (l ++ (w.buffer x).bytes.drop (w.index x p)) ∧
      (¬ 1 < w.use_count x →
        (w.buffer x).insert (w.index x p) l memory = .ok { w.buffer x with storage := s }) := by
  unfold World.insert CBuffer.insert
  by_cases hl : l = []
  · refine ⟨w, (w.buffer x).storage, if_pos hl, h.becomes_self hfind, ?_, fun _ => if_pos hl⟩
    rw [hl, List.nil_append, List.take_append_drop]
  · have hk := List.length_pos_iff.2 hl
    have hopens := hadmits hl
    simp only [if_neg hl]
    by_cases hshared : 1 < w.use_count x
    · obtain ⟨w₁, q, s, hinsert, hplaces⟩ := h.mInsertImpl hfind hshared hp hk hopens memory
      obtain ⟨w', t, hfill, -, hbecomes, hbytes⟩ := hplaces.mFill hp.index_le
      refine ⟨w', some t, ?_, hbecomes, hbytes, fun halone => absurd hshared halone⟩
      rw [hinsert]
      exact hfill
    · unfold Admits at hopens
      rw [if_neg hshared] at hopens
      obtain ⟨w₁, q, s, hinsert, hplaces, hbuffer⟩ :=
        Alone.mInsertImpl ⟨hfind, hshared⟩ h hp hk hopens memory
      obtain ⟨w', t, hfill, hfill', hbecomes, hbytes⟩ := hplaces.mFill hp.index_le
      refine ⟨w', some t, ?_, hbecomes, hbytes, fun _ => ?_⟩
      · rw [hinsert]
        exact hfill
      · rw [hbuffer]
        simp only [bind, Except.bind, hfill']
        rfl

theorem end_eq (hfind : w.find o = some x) :
    w.end' o = .ok ⟨x.beginOfStorage, (w.buffer x).begin' + (w.buffer x).size⟩ := by
  unfold end'
  rw [object_eq hfind]
  rfl

theorem points_end : w.Points x ⟨x.beginOfStorage, (w.buffer x).begin' + (w.buffer x).size⟩ :=
  ⟨rfl, Nat.le_add_right _ _, Nat.le_refl _⟩

theorem index_end (r : Option ℕ) :
    w.index x ⟨r, (w.buffer x).begin' + (w.buffer x).size⟩ = (w.buffer x).size :=
  Nat.add_sub_cancel_left _ _

theorem points_begin : w.Points x ⟨x.beginOfStorage, (w.buffer x).begin'⟩ :=
  ⟨rfl, Nat.le_refl _, Nat.le_add_right _ _⟩

theorem index_begin (r : Option ℕ) : w.index x ⟨r, (w.buffer x).begin'⟩ = 0 := Nat.sub_self _

theorem begin_of_mDetach {memory : ℕ → Byte}
    (hdetach : w.mDetach o memory = .ok w') (hfind : w'.find o = some x') :
    w.begin' o memory = .ok (⟨x'.beginOfStorage, (w'.buffer x').begin'⟩, w') := by
  unfold begin'
  rw [hdetach]
  simp only [bind, Except.bind]
  rw [object_eq hfind]
  rfl

/-- `begin()` detaches. -/
theorem Inv.begin (h : w.Inv) (hfind : w.find o = some x) (memory : ℕ → Byte) :
    ∃ w' x', w.begin' o memory = .ok (⟨x'.beginOfStorage, (w'.buffer x').begin'⟩, w') ∧
      w.Becomes o (w.own x memory).storage w' ∧ w'.Alone o x' ∧
      w'.buffer x' = w.own x memory := by
  obtain ⟨w', x', hdetach, hbecomes, halone, hbuffer⟩ := h.mDetach hfind memory
  exact ⟨w', x', begin_of_mDetach hdetach halone.find, hbecomes, halone, hbuffer⟩

theorem Alone.begin (h : w.Alone o x) (hw : w.Inv) (memory : ℕ → Byte) :
    w.begin' o memory = .ok (⟨x.beginOfStorage, (w.buffer x).begin'⟩, w) :=
  begin_of_mDetach (h.mDetach hw memory) h.find

/-- A push is the insertion that it is for an unshared buffer. -/
theorem Inv.push_back (h : w.Inv) (hfind : w.find o = some x) {v : Byte}
    (hadmits : w.Admits x (w.buffer x).size 2) (memory : ℕ → Byte) :
    ∃ w' s, w.push_back o v memory = .ok w' ∧
      w.Mutates o x (.insert (w.buffer x).size (smartField v), memory) s w' := by
  obtain ⟨w', s, hinsert, hbecomes, hbytes, halone⟩ :=
    h.insert (l := smartField v) hfind points_end (fun _ => (index_end _).symm ▸ hadmits) memory
  rw [index_end] at hbytes halone
  refine ⟨w', s, ?_, ⟨hbecomes, fun hsole => ⟨_, halone hsole, rfl⟩, fun _ => hbytes⟩⟩
  unfold World.push_back
  rw [end_eq hfind]
  exact hinsert

theorem Inv.push_front (h : w.Inv) (hfind : w.find o = some x) {v : Byte} {memory : ℕ → Byte}
    (hopens : (w.own x memory).Opens 0 2) :
    ∃ w' s, w.push_front o v memory = .ok w' ∧
      w.Mutates o x (.insert 0 (smartField v), memory) s w' := by
  obtain ⟨w₁, x', hbegin, hbecomes₁, halone, hbuffer⟩ := h.begin hfind memory
  have hadmits : w₁.Admits x' 0 2 := by
    unfold Admits
    rw [if_neg halone.sole, hbuffer]
    exact hopens
  obtain ⟨w', s, hinsert, hbecomes, hbytes, hsole⟩ := hbecomes₁.inv.insert (l := smartField v)
    halone.find
    points_begin (fun _ => (index_begin _).symm ▸ hadmits) memory
  rw [index_begin, hbuffer] at hbytes hsole
  refine ⟨w', s, ?_, mutates_of_own (e := (.insert 0 (smartField v), memory)) (hbecomes₁.trans
    hbecomes)
    (hsole halone.sole) fun _ => hbytes⟩
  unfold World.push_front
  rw [hbegin]
  exact hinsert

theorem Inv.clear (h : w.Inv) (hfind : w.find o = some x) (memory : ℕ → Byte) :
    ∃ w' s, w.clear o memory = .ok w' ∧ w.Mutates o x (.clear, memory) s w' := by
  obtain ⟨c, hclear, hc, hbytes⟩ := CBuffer.clear_steps (h.own x memory)
  obtain ⟨w', hdetached, hbecomes⟩ := h.detached hfind memory hclear hc
  exact ⟨w', c.storage, hdetached,
    mutates_of_own (e := (.clear, memory)) hbecomes hclear fun _ => hbytes⟩

theorem Inv.pop (h : w.Inv) (hfind : w.find o = some x) (op : BufferOp) {memory : ℕ → Byte}
    (hempty : ∀ b : CBuffer, b.size = 0 →
      bufferStep (op, memory) b = .ok b ∧ VectorStep b.bytes b.bytes op)
    (hsome : (w.buffer x).size ≠ 0 → ∃ c, bufferStep (op, memory) (w.own x memory) = .ok c ∧
      c.Inv ∧ (1 < w.use_count x → VectorStep (w.own x memory).bytes c.bytes op)) :
    ∃ w' s, w.pop o (bufferStep (op, memory)) memory = .ok w' ∧
      w.Mutates o x (op, memory) s w' := by
  unfold World.pop
  rw [object_eq hfind]
  simp only [bind, Except.bind]
  by_cases hsize : (w.buffer x).size = 0
  · obtain ⟨hstep, hvector⟩ := hempty _ hsize
    rw [if_pos hsize]
    exact ⟨w, _, rfl, h.becomes_self hfind, fun _ => ⟨_, hstep, rfl⟩, fun _ => hvector⟩
  · obtain ⟨c, hstep, hc, hvector⟩ := hsome hsize
    obtain ⟨w', hdetached, hbecomes⟩ := h.detached hfind memory hstep hc
    rw [if_neg hsize]
    exact ⟨w', c.storage, hdetached, mutates_of_own hbecomes hstep hvector⟩

theorem bytes_of_empty (hb : b.size = 0) : b.bytes = [] :=
  List.eq_nil_of_length_eq_zero (CBuffer.bytes_length.trans hb)

theorem Inv.pop_back (h : w.Inv) (hfind : w.find o = some x) (memory : ℕ → Byte) :
    ∃ w' s, w.pop_back o memory = .ok w' ∧ w.Mutates o x (.popBack, memory) s w' := by
  refine h.pop hfind .popBack (fun b hb => ⟨?_, ?_⟩) fun _ => ?_
  · obtain ⟨beginSize, maxSize, _ | s⟩ := b
    · rfl
    · exact congrArg Except.ok (if_pos hb)
  · change b.bytes = b.bytes.dropLast
    rw [bytes_of_empty hb]
    rfl
  · obtain ⟨c, hpop, hc, hbytes⟩ := CBuffer.pop_back_steps (h.own x memory)
    exact ⟨c, hpop, hc, fun _ => hbytes⟩

theorem Inv.pop_front (h : w.Inv) (hfind : w.find o = some x) {memory : ℕ → Byte}
    (hroom : (w.buffer x).size ≠ 0 → (w.own x memory).RoomBehind 1) :
    ∃ w' s, w.pop_front o memory = .ok w' ∧ w.Mutates o x (.popFront, memory) s w' := by
  refine h.pop hfind .popFront (fun b hb => ⟨?_, ?_⟩) fun hsize => ?_
  · obtain ⟨beginSize, maxSize, _ | s⟩ := b
    · rfl
    · exact congrArg Except.ok (if_pos hb)
  · change b.bytes = b.bytes.tail
    rw [bytes_of_empty hb]
    rfl
  · have hown := h.own x memory
    have hroom := hroom hsize
    have hshared : ¬ 1 < w.use_count x := fun hshared =>
      not_roomBehind_own hshared hsize Nat.one_pos hroom
    rw [← size_own memory] at hsize
    generalize w.own x memory = b at *
    obtain ⟨beginSize, maxSize, _ | s⟩ := b
    · exact absurd rfl hsize
    · exact ⟨_, congrArg Except.ok (if_neg hsize), CBuffer.RoomBehind.inv (hown s rfl) hroom,
        fun h => absurd h hshared⟩

/-- The storage that `reserve` asks for has room for the bytes. -/
def Reserves (w : World) (x : Object) (n : ℕ) : Prop :=
  (w.buffer x).HasRoom n
    (if 1 < w.use_count x then x.beginSize % 2 ^ 16 else (w.buffer x).startOffset)
    (w.buffer x).size

instance (n : ℕ) : Decidable (w.Reserves x n) :=
  inferInstanceAs (Decidable ((w.buffer x).HasRoom _ _ _))

theorem Inv.reserve (h : w.Inv) (hfind : w.find o = some x) {n : ℕ}
    (hreserves : (w.buffer x).capacity < n → w.Reserves x n) (memory : ℕ → Byte) :
    ∃ w' s, w.reserve o n memory = .ok w' ∧ w.Mutates o x (.reserve n, memory) s w' := by
  unfold World.reserve
  rw [object_eq hfind]
  simp only [bind, Except.bind]
  by_cases hcapacity : n ≤ (w.buffer x).capacity
  · rw [if_pos hcapacity]
    exact ⟨w, _, rfl, h.becomes_self hfind, fun _ => ⟨_, if_pos hcapacity, rfl⟩, fun _ => rfl⟩
  · have hroom := hreserves (Nat.not_le.1 hcapacity)
    unfold Reserves at hroom
    rw [if_neg hcapacity]
    by_cases hshared : 1 < w.use_count x
    · rw [if_pos hshared] at hroom ⊢
      cases hs : (w.buffer x).storage with
      | none =>
        unfold use_count at hshared
        cases hj : x.beginOfStorage.bind fun i => cellAt w.blocks i with
        | none =>
          rw [hj] at hshared
          exact absurd hshared (Nat.not_lt_zero 1)
        | some d =>
          obtain ⟨j, hpointer, hd⟩ := Option.bind_eq_some_iff.1 hj
          rw [buffer_of_cell hpointer hd] at hs
          cases hs
      | some s =>
        have hfits := h.buffer_inv x s hs
        have hend := hfits.room
        have hbuf := hfits.bufSize_lt
        have hlen := hroom.2.1
        have hsmall := hroom.2.2
        have hsize : (w.buffer x).size = s.size := by
          unfold CBuffer.size
          rw [hs]
          rfl
        rw [hsize] at hlen
        have hcopy := slice_writeAt_self memory (x.beginSize % 2 ^ 16)
          (slice s.memory s.startOffset s.size)
        rw [slice_length] at hcopy
        obtain ⟨w₁, hrelease, hreleased⟩ := h.release hfind
        obtain ⟨w₂, hnew, hbecomes, -⟩ := hreleased.becomes.inv.setNew (s := ⟨x.beginSize % 2 ^ 16,
          s.size, (w.buffer x).requred_buf_len n, writeAt memory (x.beginSize % 2 ^ 16)
            (slice s.memory s.startOffset s.size)⟩) hreleased.find_self rfl
          ⟨Nat.mod_lt _ (Nat.two_pow_pos 16), hlen, hsmall⟩
        refine ⟨w₂, _, ?_, hreleased.becomes.trans hbecomes, fun hsole => absurd hshared hsole,
          fun _ => ?_⟩
        · dsimp only
          rw [hroom.mAllocate (by omega)]
          dsimp only
          rw [Storage.mSetSize_eq (by omega)]
          dsimp only
          rw [Storage.read_eq hend]
          dsimp only
          rw [Storage.mFill_eq (by rw [slice_length]; exact hlen), hrelease]
          exact hnew
        · change slice _ _ _ = ((w.buffer x).storage.map Storage.bytes).getD []
          rw [hs]
          exact hcopy
    · rw [if_neg hshared] at hroom ⊢
      obtain ⟨c, hreserve, hc, hbytes⟩ :=
        CBuffer.reserve_steps (n := n) (h.buffer_inv x) (fun _ => hroom) memory
      obtain ⟨w', hon, hbecomes⟩ := Alone.onBuffer (f := fun b => b.reserve n memory)
        ⟨hfind, hshared⟩ h hreserve hc
      exact ⟨w', c.storage, hon, hbecomes, fun _ => ⟨c, hreserve, rfl⟩,
        fun h => absurd h hshared⟩

/-- Bytes that are removed at the begin leave the others in the storage, and bytes that are added
can be. -/
def Resizes (w : World) (x : Object) (n : ℕ) (fromBegin : Bool) (memory : ℕ → Byte) : Prop :=
  (fromBegin = true → n ≠ 0 → n < (w.buffer x).size →
    (w.own x memory).RoomBehind ((w.buffer x).size - n)) ∧
  ((w.buffer x).size < n →
    if fromBegin then (w.own x memory).Opens 0 (n - (w.buffer x).size)
    else w.Admits x (w.buffer x).size (n - (w.buffer x).size))

instance (n : ℕ) (fromBegin : Bool) (memory : ℕ → Byte) :
    Decidable (w.Resizes x n fromBegin memory) :=
  inferInstanceAs (Decidable ((_ → _ → _ → CBuffer.RoomBehind _ _) ∧
    (_ → if fromBegin = true then CBuffer.Opens _ _ _ else w.Admits _ _ _)))

theorem resize_ok {n : ℕ} {memory : ℕ → Byte} {q : ℕ} {t : Storage} (fromBegin : Bool)
    (hgrow : b.size < n)
    (hinsert : b.mInsertImpl (b.begin' + if fromBegin then 0 else b.size) (n - b.size) memory =
      .ok (q, t)) : b.resize n fromBegin memory = .ok { b with storage := some t } := by
  rw [CBuffer.resize_of_lt hgrow, hinsert]
  rfl

theorem Inv.shrink (h : w.Inv) (hfind : w.find o = some x) {n : ℕ} {fromBegin : Bool}
    {memory : ℕ → Byte} (hpointer : x.beginOfStorage ≠ none) (hn : n < (w.buffer x).size)
    (hresizes : w.Resizes x n fromBegin memory) :
    ∃ w' s, w.resize o n fromBegin memory = .ok w' ∧
      w.Mutates o x (.resize n fromBegin, memory) s w' := by
  have hown := h.own x memory
  obtain ⟨i, hi⟩ := Option.ne_none_iff_exists'.1 hpointer
  unfold World.resize
  rw [object_eq hfind]
  simp only [bind, Except.bind, hi]
  rw [if_pos hn]
  by_cases hzero : n = 0
  · obtain ⟨w', hrelease, hreleased⟩ := h.release hfind
    have hstep : (w.own x memory).resize n fromBegin memory =
        .ok { w.own x memory with storage := none } := by
      rw [hzero]
      exact CBuffer.resize_zero (by rw [size_own]; omega) fromBegin memory
    obtain ⟨c, hc, -, hvector⟩ := @CBuffer.shrink_steps _ hown n fromBegin
      (by rw [size_own]; omega) (fun _ _ => hzero) memory
    cases hstep.symm.trans hc
    rw [if_pos hzero]
    exact ⟨w', none, hrelease, mutates_of_own (c := { w.own x memory with storage := none })
      hreleased.becomes hstep fun _ => hvector⟩
  · rw [if_neg hzero]
    obtain ⟨c, hstep, hc, hvector⟩ : ∃ c,
        bufferStep (.resize n fromBegin, memory) (w.own x memory) = .ok c ∧ c.Inv ∧
        (1 < w.use_count x →
          VectorStep (w.own x memory).bytes c.bytes (.resize n fromBegin)) := by
      cases fromBegin with
      | false =>
        obtain ⟨c, hstep, hc, hvector⟩ := @CBuffer.shrink_steps _ hown n false
          (by rw [size_own]; omega) (fun _ hfalse => nomatch hfalse) memory
        exact ⟨c, hstep, hc, fun _ => hvector⟩
      | true =>
        have hroom := hresizes.1 rfl hzero hn
        have hshared : ¬ 1 < w.use_count x := fun hshared =>
          not_roomBehind_own hshared (by omega) (by omega) hroom
        rw [← size_own memory] at hn hroom
        generalize w.own x memory = b at *
        obtain ⟨beginSize, maxSize, _ | s⟩ := b
        · exact absurd hn (Nat.not_lt_zero n)
        · change n < s.size at hn
          refine ⟨⟨beginSize, maxSize, some (s.mSetStartOffset (s.startOffset + (s.size - n)))⟩, ?_,
            CBuffer.RoomBehind.inv (hown s rfl) hroom, fun h => absurd h hshared⟩
          change (if n < s.size then _ else _) = _
          rw [if_pos hn, if_neg hzero, if_pos rfl, Nat.add_sub_assoc (Nat.le_of_lt hn)]
    obtain ⟨w', hdetached, hbecomes⟩ := h.detached hfind memory
      (f := fun b => b.resize n fromBegin memory) hstep hc
    exact ⟨w', c.storage, hdetached, mutates_of_own hbecomes hstep hvector⟩

/-- The bytes of a buffer with new ones in it. -/
theorem Places.bytes {i k : ℕ} {q : Pointer} {t : Storage} (h : w.Places o x i k q t w')
    (hi : i ≤ (w.buffer x).size) :
    t.bytes = (w.buffer x).bytes.take i ++ (slice t.memory q.offset k ++
      (w.buffer x).bytes.drop i) := by
  obtain ⟨t₀, hbytes, hsize, hopened⟩ := h.opened
  rw [hopened.bytes (hsize ▸ hi), hbytes]

theorem Inv.grow (h : w.Inv) (hfind : w.find o = some x) {n : ℕ} {fromBegin : Bool}
    {memory : ℕ → Byte} (hpointer : x.beginOfStorage ≠ none) (hn : (w.buffer x).size < n)
    (hresizes : w.Resizes x n fromBegin memory) :
    ∃ w' s, w.resize o n fromBegin memory = .ok w' ∧
      w.Mutates o x (.resize n fromBegin, memory) s w' := by
  have hopens := hresizes.2 hn
  obtain ⟨i, hi⟩ := Option.ne_none_iff_exists'.1 hpointer
  unfold World.resize
  rw [object_eq hfind]
  simp only [bind, Except.bind, hi]
  rw [if_neg (by omega), if_neg (by omega)]
  cases fromBegin with
  | true =>
    obtain ⟨w₁, x', hbegin, hbecomes₁, halone, hbuffer⟩ := h.begin hfind memory
    change (w.own x memory).Opens 0 _ at hopens
    rw [← size_own memory, ← hbuffer] at hn hopens
    obtain ⟨w', q, t, hinsert, hplaces, hown⟩ := halone.mInsertImpl hbecomes₁.inv points_begin
      (Nat.sub_pos_of_lt hn) ((index_begin _).symm ▸ hopens) memory
    rw [index_begin] at hown
    have hstep := resize_ok true hn hown
    obtain ⟨c, hc, -, hvector⟩ :=
      @CBuffer.grow_steps _ (hbecomes₁.inv.buffer_inv x') _ true hn hopens memory
    cases hstep.symm.trans hc
    have hsize : (w₁.buffer x').size = (w.buffer x).size := by rw [hbuffer, size_own]
    refine ⟨w', some t, ?_, mutates_of_own (c := { w₁.buffer x' with storage := some t })
      (hbecomes₁.trans hplaces.becomes) (hbuffer ▸ hstep) fun _ => hbuffer ▸ hvector⟩
    rw [← hsize]
    simp only [if_true, hbegin, hinsert]
    rfl
  | false =>
    change w.Admits x _ _ at hopens
    rw [if_neg Bool.false_ne_true, end_eq hfind]
    dsimp only [Except.map]
    by_cases hshared : 1 < w.use_count x
    · obtain ⟨w', q, t, hinsert, hplaces⟩ := h.mInsertImpl hfind hshared points_end
        (Nat.sub_pos_of_lt hn) ((index_end _).symm ▸ hopens) memory
      rw [index_end] at hplaces
      have hbytes := hplaces.bytes (Nat.le_refl _)
      rw [← CBuffer.bytes_length, List.take_length, List.drop_length, List.append_nil] at hbytes
      rw [hinsert]
      refine ⟨w', some t, rfl, hplaces.becomes, fun hsole => absurd hshared hsole, fun _ => ?_⟩
      rw [← CBuffer.bytes_length] at hn
      exact VectorStep.grow hn (slice_length _ _ _) hbytes
    · unfold Admits at hopens
      rw [if_neg hshared] at hopens
      obtain ⟨w', q, t, hinsert, hplaces, hown⟩ := Alone.mInsertImpl ⟨hfind, hshared⟩ h points_end
        (Nat.sub_pos_of_lt hn) ((index_end _).symm ▸ hopens) memory
      rw [index_end] at hown
      rw [hinsert]
      exact ⟨w', some t, rfl, hplaces.becomes,
        fun _ => ⟨_, resize_ok false hn hown, rfl⟩, fun h => absurd h hshared⟩

theorem Inv.resize (h : w.Inv) (hfind : w.find o = some x) {n : ℕ} {fromBegin : Bool}
    {memory : ℕ → Byte} (hresizes : w.Resizes x n fromBegin memory) :
    ∃ w' s, w.resize o n fromBegin memory = .ok w' ∧
      w.Mutates o x (.resize n fromBegin, memory) s w' := by
  by_cases hpointer : x.beginOfStorage = none
  · have hbuffer := buffer_of_null (w := w) hpointer
    have halone := alone_of_null hfind hpointer
    obtain ⟨c, hstep, hc, -⟩ : ∃ c, (w.buffer x).resize n fromBegin memory = .ok c ∧ c.Inv ∧
        VectorStep (w.buffer x).bytes c.bytes (.resize n fromBegin) := by
      have hsize : (w.buffer x).size = 0 := by rw [hbuffer]; rfl
      by_cases hn : (w.buffer x).size < n
      · refine CBuffer.grow_steps (h.buffer_inv x) hn ?_ memory
        have hopens := hresizes.2 hn
        unfold Admits at hopens
        rw [halone.own, if_neg halone.sole] at hopens
        cases fromBegin <;> exact hopens
      · exact CBuffer.shrink_steps (h.buffer_inv x) (Nat.not_lt.1 hn) (by omega) memory
    obtain ⟨w', hon, hbecomes⟩ := halone.onBuffer (f := fun b => b.resize n fromBegin memory) h
      hstep hc
    refine ⟨w', c.storage, ?_, hbecomes, fun _ => ⟨c, hstep, rfl⟩, fun h => absurd h halone.sole⟩
    unfold World.resize
    rw [object_eq hfind]
    simp only [bind, Except.bind, hpointer]
    exact hon
  · rcases Nat.lt_trichotomy n (w.buffer x).size with hn | hn | hn
    · exact h.shrink hfind hpointer hn hresizes
    · obtain ⟨i, hi⟩ := Option.ne_none_iff_exists'.1 hpointer
      have hstep := hn ▸ CBuffer.resize_size (b := w.buffer x) fromBegin memory
      obtain ⟨c, hc, -, hvector⟩ := @CBuffer.shrink_steps _ (h.buffer_inv x) n fromBegin
        (Nat.le_of_eq hn) (by omega) memory
      cases hstep.symm.trans hc
      refine ⟨w, _, ?_, h.becomes_self hfind, fun _ => ⟨_, hstep, rfl⟩, fun _ => hvector⟩
      unfold World.resize
      rw [object_eq hfind]
      simp only [bind, Except.bind, hi]
      rw [if_neg (by omega), if_pos hn]
      rfl
    · exact h.grow hfind hpointer hn hresizes

/-- Bytes are removed from a storage of one holder, and where the first ones are, the others are
left in it. -/
def Erases (w : World) (x : Object) (p q : Pointer) : Prop :=
  p ≠ q → ¬ 1 < w.use_count x ∧ (w.index x p = 0 → w.index x q < (w.buffer x).size →
    (w.buffer x).RoomBehind (w.index x q))

instance (p q : Pointer) : Decidable (w.Erases x p q) :=
  inferInstanceAs (Decidable (_ → ¬ _ ∧ (_ → _ → CBuffer.RoomBehind _ _)))

theorem Alone.erase (h : w.Alone o x) (hw : w.Inv) {q : Pointer} (hp : w.Points x p)
    (hq : w.Points x q) (hlt : p.offset < q.offset)
    (hroom : w.index x p = 0 → w.index x q < (w.buffer x).size →
      (w.buffer x).RoomBehind (w.index x q)) (memory : ℕ → Byte) :
    ∃ w' s, w.erase o p q memory = .ok w' ∧
      w.Mutates o x (.erase (w.index x p) (w.index x q), memory) s w' := by
  have hbounds := hq.2.2
  have hbegin := hp.2.1
  cases hpointer : x.beginOfStorage with
  | none =>
    rw [buffer_of_null hpointer] at hbounds hbegin
    change q.offset ≤ 0 + 0 at hbounds
    omega
  | some i =>
    obtain ⟨s, howns⟩ := h.owns hw hpointer
    have hfits : s.Fits := hw.fits i _ howns.cell
    have hoffset : p.offset = s.startOffset + w.index x p := hp.offset_of_cell hpointer howns.cell
    have hoffset' : q.offset = s.startOffset + w.index x q := hq.offset_of_cell hpointer howns.cell
    have hindex' : w.index x q ≤ s.size := hq.index_le.trans_eq (by rw [howns.buffer]; rfl)
    have hpeq : p = ⟨some i, s.startOffset + w.index x p⟩ := by
      rw [← hoffset, ← hpointer, ← hp.1]
    have hqeq : q = ⟨some i, s.startOffset + w.index x q⟩ := by
      rw [← hoffset', ← hpointer, ← hq.1]
    generalize w.index x p = j at *
    generalize w.index x q = k at *
    have hjk : j < k := by omega
    have hroom : j = 0 → k < s.size → s.startOffset + k + s.size ≤ s.bufSize ∧
        s.startOffset + k < 2 ^ 16 := by
      intro hj hk
      rw [howns.buffer] at hroom
      exact hroom hj hk s rfl
    obtain ⟨t, herased, ht⟩ := hfits.erased hjk hindex' hroom
    obtain ⟨w', hupdate, hbecomes, -⟩ := hw.update howns ht
    refine ⟨w', some t, ?_, hbecomes, fun _ => ⟨⟨x.beginSize, x.maxSize, some t⟩, ?_, rfl⟩,
      fun hshared => absurd hshared h.sole⟩
    · rw [← hupdate]
      unfold Storage.erased at herased
      unfold World.erase
      rw [object_eq h.find]
      simp only [bind, Except.bind, hpointer]
      rw [block_eq howns.cell]
      dsimp only
      have hremove : s.startOffset + k - (s.startOffset + j) = k - j := Nat.add_sub_add_left _ _ _
      rw [hpeq, hqeq] at hlt ⊢
      rw [if_neg (by omega), if_neg (not_not_intro rfl), if_neg (Nat.not_le.2 hlt),
        end_eq h.find, h.begin hw, howns.buffer, hpointer]
      simp only [CBuffer.begin', CBuffer.size, Option.map_some, Option.getD_some,
        Pointer.mk.injEq, true_and, Nat.add_left_cancel_iff, hremove, hfits.subSize_behind hindex']
      have hfirst : s.startOffset + j = s.startOffset ↔ j = 0 := by omega
      simp only [hfirst, ne_eq, not_true_eq_false, if_false]
      split_ifs at herased ⊢ with hlast hbegin
      · rw [herased]
      · cases herased
        rfl
      · obtain ⟨t₁, hcopy, hset⟩ := eq_ok_of_bind herased
        rw [hcopy]
        dsimp only
        rw [Storage.size_copy hcopy, hset]
    · rw [howns.buffer]
      change CBuffer.erase ⟨x.beginSize, x.maxSize, some s⟩ j k = _
      rw [CBuffer.erase_eq (by omega) hjk, herased]
      rfl

theorem Inv.erase (h : w.Inv) (hfind : w.find o = some x) {q : Pointer} (hp : w.Points x p)
    (hq : w.Points x q) (hle : p.offset ≤ q.offset) (herases : w.Erases x p q)
    (memory : ℕ → Byte) :
    ∃ w' s, w.erase o p q memory = .ok w' ∧
      w.Mutates o x (.erase (w.index x p) (w.index x q), memory) s w' := by
  rcases Nat.lt_or_eq_of_le hle with hlt | heq
  · obtain ⟨hsole, hroom⟩ := herases fun hpq => Nat.ne_of_lt hlt (congrArg Pointer.offset hpq)
    exact Alone.erase ⟨hfind, hsole⟩ h hp hq hlt hroom memory
  · have hindex : w.index x p = w.index x q := congrArg (· - (w.buffer x).begin') heq
    refine ⟨w, _, ?_, h.becomes_self hfind, fun _ => ⟨w.buffer x, ?_, rfl⟩, fun _ => ?_⟩
    · unfold World.erase
      rw [object_eq hfind]
      simp only [bind, Except.bind]
      cases hpointer : x.beginOfStorage with
      | none => rfl
      | some i =>
        obtain ⟨c, hc, -⟩ := h.cell hfind hpointer
        dsimp only
        rw [block_eq hc]
        dsimp only
        rw [if_neg (not_not_intro (hp.1.trans hq.1.symm)), if_pos (Nat.le_of_eq heq.symm)]
        split_ifs <;> rfl
    · rw [hindex]
      exact CBuffer.erase_self _
    · change (w.buffer x).bytes = (w.buffer x).bytes.take _ ++ (w.buffer x).bytes.drop _
      rw [hindex, List.take_append_drop]

theorem Alone.write (h : w.Alone o x) (hw : w.Inv) (hp : w.Points x p)
    (hlt : w.index x p < (w.buffer x).size) (v : Byte) :
    ∃ w' s, w.mFill p [v] = .ok w' ∧ w.Becomes o s w' ∧
      ({ w.buffer x with storage := s } : CBuffer).bytes =
        (w.buffer x).bytes.set (w.index x p) v := by
  cases hpointer : x.beginOfStorage with
  | none =>
    rw [buffer_of_null hpointer] at hlt
    exact absurd hlt (Nat.not_lt_zero _)
  | some i =>
    obtain ⟨s, howns⟩ := h.owns hw hpointer
    have hfits : s.Fits := hw.fits i _ howns.cell
    have hend := hfits.room
    have hoffset : p.offset = s.startOffset + w.index x p := hp.offset_of_cell hpointer howns.cell
    generalize w.index x p = k at *
    rw [howns.buffer] at hlt ⊢
    change k < s.size at hlt
    obtain ⟨w', hupdate, hbecomes, -⟩ := hw.update howns (t := { s with
      memory := writeAt s.memory (s.startOffset + k) [v] }) ⟨hfits.start_lt, hend, hfits.bufSize_lt⟩
    refine ⟨w', _, ?_, hbecomes, slice_writeAt_singleton _ _ _ _ _⟩
    unfold World.mFill
    rw [hp.1, hpointer]
    dsimp only
    rw [block_eq howns.cell, hoffset]
    simp only [bind, Except.bind]
    rw [Storage.mFill_eq (by rw [List.length_singleton]; omega)]
    exact hupdate

end World

end UdtKernel.Buffer
