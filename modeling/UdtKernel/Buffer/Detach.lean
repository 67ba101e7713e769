import UdtKernel.Buffer.Holders

set_option autoImplicit false

/-! Operations on a storage that `MDetach` has left to one object, and bytes that are inserted into
a storage of one object or of several. -/

namespace UdtKernel.Buffer
open UdtKernel.Lib

namespace CBuffer

variable {b : CBuffer}

/-- The bytes in a storage without room. -/
def copied (b : CBuffer) (memory : ℕ → Byte) : CBuffer :=
  { b with storage := b.storage.map fun s => ⟨0, s.size, s.size, writeAt memory 0 s.bytes⟩ }

theorem size_copied (memory : ℕ → Byte) : (b.copied memory).size = b.size := by
  obtain ⟨beginSize, maxSize, _ | s⟩ := b <;> rfl

theorem bytes_copied (memory : ℕ → Byte) : (b.copied memory).bytes = b.bytes := by
  obtain ⟨beginSize, maxSize, _ | s⟩ := b
  · rfl
  · change slice (writeAt memory 0 s.bytes) 0 s.size = s.bytes
    rw [← s.bytes_length]
    exact slice_writeAt_self _ _ _

theorem Inv.copied (h : b.Inv) (memory : ℕ → Byte) : (b.copied memory).Inv := by
  obtain ⟨beginSize, maxSize, _ | s⟩ := b
  · exact fun _ hs => nomatch hs
  · have hfits := h s rfl
    have hroom := hfits.room
    have hbuf := hfits.bufSize_lt
    exact inv_some ⟨Nat.two_pow_pos 16, Nat.le_of_eq (Nat.zero_add _), by dsimp only; omega⟩

end CBuffer

namespace Storage

variable {s : Storage} {p n : ℕ}

theorem read_eq (h : p + n ≤ s.bufSize) : s.read p n = .ok (slice s.memory p n) :=
  if_neg fun hout => by omega

theorem Fits.deep_copy (h : s.Fits) (memory : ℕ → Byte) :
    s.deep_copy memory = .ok ⟨0, s.size, s.size, writeAt memory 0 s.bytes⟩ := by
  have hroom := h.room
  have hbuf := h.bufSize_lt
  exact if_neg (by omega)

end Storage

namespace World

/-- The buffer of an object after `MDetach`. -/
def own (w : World) (x : Object) (memory : ℕ → Byte) : CBuffer :=
  if 1 < w.use_count x then (w.buffer x).copied memory else w.buffer x

structure Alone (w : World) (o : ℕ) (x : Object) : Prop where
  find : w.find o = some x
  sole : ¬ 1 < w.use_count x

variable {w : World} {o : ℕ} {x : Object} {s : Storage} {b : CBuffer}

theorem use_count_of_cell {i : ℕ} {c : SharedCell Storage} (hpointer : x.beginOfStorage = some i)
    (hc : cellAt w.blocks i = some c) : w.use_count x = c.count := by
  unfold use_count
  rw [hpointer, Option.bind_some, hc]
  rfl

theorem use_count_of_null (hpointer : x.beginOfStorage = none) : w.use_count x = 0 := by
  unfold use_count
  rw [hpointer]
  rfl

theorem alone_of_null (hfind : w.find o = some x) (hpointer : x.beginOfStorage = none) :
    w.Alone o x := ⟨hfind, by rw [use_count_of_null hpointer]; omega⟩

theorem Owns.alone {i : ℕ} (h : w.Owns o x i s) : w.Alone o x :=
  ⟨h.find, by rw [use_count_of_cell h.pointer h.cell]; exact Nat.lt_irrefl 1⟩

theorem Owns.buffer {i : ℕ} (h : w.Owns o x i s) :
    w.buffer x = ⟨x.beginSize, x.maxSize, some s⟩ := buffer_of_cell h.pointer h.cell

theorem Alone.owns (h : w.Alone o x) (hw : w.Inv) {i : ℕ} (hpointer : x.beginOfStorage = some i) :
    ∃ s, w.Owns o x i s := by
  obtain ⟨⟨s, n⟩, hc, hpos⟩ := hw.cell h.find hpointer
  have hsole := h.sole
  rw [use_count_of_cell hpointer hc] at hsole
  obtain rfl : n = 1 := Nat.le_antisymm (Nat.not_lt.1 hsole) hpos
  exact ⟨s, h.find, hpointer, hc⟩

theorem Alone.own (h : w.Alone o x) (memory : ℕ → Byte) : w.own x memory = w.buffer x :=
  if_neg h.sole

theorem Inv.own (h : w.Inv) (x : Object) (memory : ℕ → Byte) : (w.own x memory).Inv := by
  unfold World.own
  split_ifs
  · exact (h.buffer_inv x).copied memory
  · exact h.buffer_inv x

theorem bytes_own (memory : ℕ → Byte) : (w.own x memory).bytes = (w.buffer x).bytes := by
  unfold own
  split_ifs
  · exact CBuffer.bytes_copied memory
  · rfl

theorem size_own (memory : ℕ → Byte) : (w.own x memory).size = (w.buffer x).size := by
  unfold own
  split_ifs
  · exact CBuffer.size_copied memory
  · rfl

theorem Inv.becomes_self (h : w.Inv) (hfind : w.find o = some x) :
    w.Becomes o (w.buffer x).storage w := by
  refine ⟨h, ?_, fun _ _ => rfl⟩
  rw [view_eq hfind]
  rfl

theorem Alone.mDetach (h : w.Alone o x) (hw : w.Inv) (memory : ℕ → Byte) :
    w.mDetach o memory = .ok w := by
  unfold World.mDetach
  rw [object_eq h.find]
  simp only [bind, Except.bind]
  cases hpointer : x.beginOfStorage with
  | none => rfl
  | some i =>
    obtain ⟨s, howns⟩ := h.owns hw hpointer
    dsimp only
    rw [block_eq howns.cell]
    rfl

theorem Inv.mDetach (h : w.Inv) (hfind : w.find o = some x) (memory : ℕ → Byte) :
    ∃ w' x', w.mDetach o memory = .ok w' ∧ w.Becomes o (w.own x memory).storage w' ∧
      w'.Alone o x' ∧ w'.buffer x' = w.own x memory := by
  by_cases hshared : 1 < w.use_count x
  · cases hpointer : x.beginOfStorage with
    | none =>
      rw [use_count_of_null hpointer] at hshared
      omega
    | some i =>
      obtain ⟨c, hc, hpos⟩ := h.cell hfind hpointer
      have hfits := h.fits i c hc
      have hcopy :
          (⟨0, c.value.size, c.value.size, writeAt memory 0 c.value.bytes⟩ : Storage).Fits :=
        (h.buffer_inv x).copied memory _ (by rw [buffer_of_cell hpointer hc]; rfl)
      obtain ⟨w₁, hrelease, hreleased⟩ := h.release hfind
      obtain ⟨w₂, hnew, hbecomes, howns⟩ :=
        hreleased.becomes.inv.setNew hreleased.find_self rfl hcopy
      have hown : w.own x memory = (w.buffer x).copied memory := if_pos hshared
      refine ⟨w₂, _, ?_, ?_, howns.alone, ?_⟩
      · unfold World.mDetach
        rw [object_eq hfind]
        simp only [bind, Except.bind, hpointer]
        rw [block_eq hc]
        dsimp only
        rw [if_neg (by rw [use_count_of_cell hpointer hc] at hshared; omega), hfits.deep_copy]
        dsimp only
        rw [hrelease]
        exact hnew
      · rw [hown, buffer_of_cell hpointer hc]
        exact hreleased.becomes.trans hbecomes
      · rw [hown, howns.buffer, buffer_of_cell hpointer hc]
        rfl
  · have halone : w.Alone o x := ⟨hfind, hshared⟩
    refine ⟨w, x, halone.mDetach h memory, ?_, halone, (halone.own memory).symm⟩
    rw [halone.own]
    exact h.becomes_self hfind

theorem Alone.onBuffer (h : w.Alone o x) (hw : w.Inv) {f : CBuffer → Except Fault CBuffer}
    (hf : f (w.buffer x) = .ok b) (hb : b.Inv) :
    ∃ w', w.onBuffer o f = .ok w' ∧ w.Becomes o b.storage w' := by
  unfold World.onBuffer
  rw [object_eq h.find]
  simp only [bind, Except.bind, hf]
  cases hpointer : x.beginOfStorage with
  | none =>
    cases hs : b.storage with
    | none =>
      refine ⟨w, rfl, ?_⟩
      have hbecomes := hw.becomes_self h.find
      rw [buffer_of_null hpointer] at hbecomes
      exact hbecomes
    | some s =>
      obtain ⟨w', hnew, hbecomes, -⟩ := hw.setNew h.find hpointer (hb s hs)
      exact ⟨w', hnew, hbecomes⟩
  | some i =>
    obtain ⟨t, howns⟩ := h.owns hw hpointer
    cases hs : b.storage with
    | none =>
      obtain ⟨w', hrelease, hreleased⟩ := hw.release h.find
      exact ⟨w', hrelease, hreleased.becomes⟩
    | some s =>
      obtain ⟨w', hupdate, hbecomes, -⟩ := hw.update howns (hb s hs)
      exact ⟨w', hupdate, hbecomes⟩

theorem Inv.detached (h : w.Inv) (hfind : w.find o = some x) (memory : ℕ → Byte)
    {f : CBuffer → Except Fault CBuffer} (hf : f (w.own x memory) = .ok b) (hb : b.Inv) :
    ∃ w', w.detached o f memory = .ok w' ∧ w.Becomes o b.storage w' := by
  obtain ⟨w₁, x', hdetach, hbecomes, halone, hbuffer⟩ := h.mDetach hfind memory
  obtain ⟨w₂, hon, hbecomes'⟩ := halone.onBuffer hbecomes.inv (hbuffer ▸ hf) hb
  refine ⟨w₂, ?_, hbecomes.trans hbecomes'⟩
  unfold World.detached
  rw [hdetach]
  exact hon

end World

/-- The bytes before and behind `i` are copied to another storage. -/
theorem Storage.copies {s : Storage} {i k start len : ℕ} (hi : i ≤ s.size)
    (hstart : start < 2 ^ 16) (hlen : start + (s.size + k) ≤ len) (hsmall : len < 2 ^ 32)
    (memory : ℕ → Byte) :
    ∃ s₁ s₂, (⟨start, s.size + k, len, memory⟩ : Storage).mFill start
        (slice s.memory s.startOffset i) = .ok s₁ ∧
      s₁.startOffset = start ∧
      s₁.mFill (start + i + k) (slice s.memory (s.startOffset + i) (s.size - i)) = .ok s₂ ∧
      s.Opened s₂ i k (start + i) := by
  have hhead := slice_writeAt_self memory start (slice s.memory s.startOffset i)
  have htail := slice_writeAt_self (writeAt memory start (slice s.memory s.startOffset i))
    (start + i + k) (slice s.memory (s.startOffset + i) (s.size - i))
  rw [slice_length] at hhead htail
  refine ⟨_, _, Storage.mFill_eq ?_, rfl, Storage.mFill_eq ?_,
    ⟨⟨hstart, hlen, hsmall⟩, rfl, rfl, ?_, ?_⟩⟩
  · rw [slice_length]
    dsimp only
    omega
  · rw [slice_length]
    dsimp only
    omega
  · dsimp only
    rw [slice_writeAt_of_disjoint _ (Or.inl (by omega)), hhead]
  · dsimp only
    rw [← Nat.add_assoc]
    exact htail

namespace World

variable (w : World) (x : Object)

/-- An iterator of an object, as `begin()` and `end()` bound them. -/
def Points (p : Pointer) : Prop :=
  p.block = x.beginOfStorage ∧ (w.buffer x).begin' ≤ p.offset ∧
    p.offset ≤ (w.buffer x).begin' + (w.buffer x).size

def index (p : Pointer) : ℕ := p.offset - (w.buffer x).begin'

/-- `k` bytes can be inserted at `i`: a storage of several holders must be too small for them. -/
def Admits (i k : ℕ) : Prop :=
  if 1 < w.use_count x then
    (w.buffer x).capacity < (w.buffer x).size + k ∧
      (w.buffer x).HasRoom ((w.buffer x).size + k) (x.beginSize % 2 ^ 16) ((w.buffer x).size + k)
  else (w.buffer x).Opens i k

instance (p : Pointer) : Decidable (w.Points x p) := inferInstanceAs (Decidable (_ ∧ _ ∧ _))

instance (i k : ℕ) : Decidable (w.Admits x i k) :=
  inferInstanceAs (Decidable (if 1 < w.use_count x then _ ∧ (w.buffer x).HasRoom _ _ _
    else (w.buffer x).Opens _ _))

variable {w x} {w' : World} {o i k : ℕ} {s : Storage} {p : Pointer}

theorem Points.offset (h : w.Points x p) : p.offset = (w.buffer x).begin' + w.index x p :=
  (Nat.add_sub_cancel' h.2.1).symm

theorem Points.index_le (h : w.Points x p) : w.index x p ≤ (w.buffer x).size := by
  have hoffset := h.offset
  have hle := h.2.2
  omega

theorem Points.offset_of_cell {c : SharedCell Storage} {j : ℕ} (h : w.Points x p)
    (hpointer : x.beginOfStorage = some j) (hc : cellAt w.blocks j = some c) :
    p.offset = c.value.startOffset + w.index x p := by
  rw [h.offset, buffer_of_cell hpointer hc]
  rfl

/-- New bytes are at `q` in the storage that an object has for itself now. -/
structure Places (w : World) (o : ℕ) (x : Object) (i k : ℕ) (q : Pointer) (s : Storage)
    (w' : World) : Prop where
  becomes : w.Becomes o (some s) w'
  owns : ∃ x' j, q.block = some j ∧ w'.Owns o x' j s
  opened : ∃ t : Storage, t.bytes = (w.buffer x).bytes ∧ t.size = (w.buffer x).size ∧
    t.Opened s i k q.offset

theorem Alone.mInsertImpl (h : w.Alone o x) (hw : w.Inv) (hp : w.Points x p) (hk : 0 < k)
    (hopens : (w.buffer x).Opens (w.index x p) k) (memory : ℕ → Byte) :
    ∃ w' q s, w.mInsertImpl o p k memory = .ok (q, w') ∧ w.Places o x (w.index x p) k q s w' ∧
      (w.buffer x).mInsertImpl ((w.buffer x).begin' + w.index x p) k memory =
        .ok (q.offset, s) := by
  obtain ⟨t, q, s, hinsert, hbytes, hsize, hopened⟩ :=
    CBuffer.mInsertImpl_opened (hw.buffer_inv x) hp.index_le hk hopens memory
  unfold World.mInsertImpl
  rw [object_eq h.find]
  simp only [bind, Except.bind]
  cases hpointer : x.beginOfStorage with
  | none =>
    obtain ⟨w', hnew, hbecomes, howns⟩ := hw.setNew h.find hpointer hopened.fits
    have hwas := hinsert
    unfold CBuffer.mInsertImpl at hinsert
    rw [buffer_of_null hpointer] at hinsert ⊢
    dsimp only at hinsert ⊢
    obtain ⟨s₁, halloc, hrest⟩ := eq_ok_of_bind hinsert
    obtain ⟨s₂, hset, hlast⟩ := eq_ok_of_bind hrest
    cases hlast
    rw [halloc]
    dsimp only
    rw [hset]
    dsimp only
    rw [hnew]
    rw [buffer_of_null hpointer] at hwas hbytes hsize
    refine ⟨w', _, s, rfl, ⟨hbecomes, ⟨_, _, rfl, howns⟩, ⟨t, ?_, ?_, hopened⟩⟩, hwas⟩
    · rw [hbytes, buffer_of_null hpointer]
    · rw [hsize, buffer_of_null hpointer]
  | some j =>
    obtain ⟨s₀, howns⟩ := h.owns hw hpointer
    obtain ⟨w', hupdate, hbecomes, howns'⟩ := hw.update howns hopened.fits
    have hwas := hinsert
    unfold CBuffer.mInsertImpl at hinsert
    have hoffset : p.offset = (w.buffer x).begin' + w.index x p := hp.offset
    rw [← hoffset] at hinsert
    have hstorage : (w.buffer x).storage = some s₀ := by rw [howns.buffer]
    rw [hstorage] at hinsert
    dsimp only at hinsert ⊢
    rw [block_eq howns.cell]
    dsimp only
    rw [if_neg (not_not_intro (hp.1.trans hpointer)), h.mDetach hw, if_neg (Nat.lt_irrefl 1)]
    simp only [hinsert, hupdate]
    refine ⟨w', ⟨some j, q⟩, s, ?_,
      ⟨hbecomes, ⟨x, j, rfl, howns'⟩, ⟨t, hbytes, hsize, hopened⟩⟩, hwas⟩
    split_ifs <;> rfl

theorem Inv.mInsertImpl (h : w.Inv) (hfind : w.find o = some x) (hshared : 1 < w.use_count x)
    (hp : w.Points x p) (hk : 0 < k) (hadmits : w.Admits x (w.index x p) k) (memory : ℕ → Byte) :
    ∃ w' q s, w.mInsertImpl o p k memory = .ok (q, w') ∧
      w.Places o x (w.index x p) k q s w' := by
  unfold Admits at hadmits
  rw [if_pos hshared] at hadmits
  obtain ⟨hfull, hroom⟩ := hadmits
  cases hpointer : x.beginOfStorage with
  | none =>
    rw [use_count_of_null hpointer] at hshared
    omega
  | some j =>
    obtain ⟨c, hc, -⟩ := h.cell hfind hpointer
    have hbuffer := buffer_of_cell hpointer hc
    have hindex := hp.index_le
    have hoffset := hp.offset_of_cell hpointer hc
    have hfits := h.fits j c hc
    have hbegin := hfits.room
    have hbuf := hfits.bufSize_lt
    rw [use_count_of_cell hpointer hc] at hshared
    generalize w.index x p = i at *
    rw [hbuffer] at hfull hindex hroom
    change c.value.bufSize < c.value.size + k at hfull
    change i ≤ c.value.size at hindex
    change CBuffer.HasRoom _ (c.value.size + k) _ (c.value.size + k) at hroom
    have hlen := hroom.2.1
    have hsmall := hroom.2.2
    obtain ⟨s₁, s, hhead, hstart, htail, hopened⟩ := Storage.copies hindex
      (Nat.mod_lt x.beginSize (Nat.two_pow_pos 16)) hlen hsmall memory
    obtain ⟨w₁, hrelease, hreleased⟩ := h.release hfind
    obtain ⟨w₂, hnew, hbecomes, howns⟩ :=
      hreleased.becomes.inv.setNew hreleased.find_self rfl hopened.fits
    have hno : ¬ c.value.FindsRoom p.offset k := by
      unfold Storage.FindsRoom
      rw [hoffset, hfits.subSize_free, hfits.subSize_before hindex]
      dsimp only
      unfold Storage.freeEnd
      rw [Nat.mod_eq_of_lt (by omega)]
      omega
    refine ⟨w₂, ⟨some w.blocks.length, x.beginSize % 2 ^ 16 + i⟩, s, ?_,
      hreleased.becomes.trans hbecomes, ⟨_, _, congrArg some hreleased.length.symm, howns⟩,
      ⟨c.value, ?_, ?_, hopened⟩⟩
    · unfold World.mInsertImpl
      rw [object_eq hfind]
      simp only [bind, Except.bind, hpointer]
      rw [block_eq hc]
      dsimp only
      rw [if_neg (not_not_intro (hp.1.trans hpointer)), if_neg hno, if_pos hshared, hbuffer,
        hroom.mAllocate (by omega)]
      dsimp only
      rw [Storage.mSetSize_eq (by omega)]
      dsimp only
      rw [hoffset, hfits.subSize_before hindex, hfits.subSize_behind hindex,
        Storage.read_eq (by omega)]
      dsimp only
      rw [hhead]
      dsimp only
      rw [Storage.read_eq (by omega)]
      dsimp only
      rw [hstart, htail]
      dsimp only
      rw [hrelease]
      dsimp only
      rw [hnew]
      rfl
    · rw [hbuffer]
      rfl
    · rw [hbuffer]
      rfl

/-- New bytes are filled. -/
theorem Places.mFill {l : List Byte} {q : Pointer} (h : w.Places o x i l.length q s w')
    (hi : i ≤ (w.buffer x).size) :
    ∃ w'' t, w'.mFill q l = .ok w'' ∧ s.mFill q.offset l = .ok t ∧ w.Becomes o (some t) w'' ∧
      t.bytes = (w.buffer x).bytes.take i ++ (l ++ (w.buffer x).bytes.drop i) := by
  obtain ⟨x', j, hblock, howns⟩ := h.owns
  obtain ⟨t₀, hbytes, hsize, hopened⟩ := h.opened
  obtain ⟨t, hfill, hfits, hfilled⟩ := hopened.mFill (hsize ▸ hi)
  obtain ⟨w'', hupdate, hbecomes, -⟩ := h.becomes.inv.update howns hfits
  refine ⟨w'', t, ?_, hfill, h.becomes.trans hbecomes, hbytes ▸ hfilled⟩
  unfold World.mFill
  rw [hblock]
  dsimp only
  rw [block_eq howns.cell]
  simp only [bind, Except.bind, hfill, hupdate]

end World

end UdtKernel.Buffer
