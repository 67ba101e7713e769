import UdtKernel.Text.Output
import UdtKernel.Buffer.Capacity

set_option autoImplicit false

/-! A text behind the bytes of a buffer: `MToBuf`. -/

namespace UdtKernel.CText
open Lib Buffer

inductive OutFault where
  | text (e : CText.Fault)
  | buffer (e : Buffer.Fault)
  deriving DecidableEq

/-- Bytes in the place of those of a buffer, which go on to its end only. -/
def writeInto (b : CBuffer) (pos : ℕ) (bytes : List Byte) : Except Buffer.Fault CBuffer :=
  match b.storage with
  | none => .error .outside
  | some s =>
    if s.size < pos + bytes.length then .error .outside
    else do
      let s ← s.mFill (s.startOffset + pos) bytes
      return { b with storage := some s }

section Loop
variable (memory : ℕ → Byte) (_befor _cur_size : ℕ)

def makeRoom (i : ℕ) (aBuf : CBuffer) : Except Buffer.Fault CBuffer :=
  if _cur_size < i + 4 then aBuf.resize (_cur_size + 4) false memory else .ok aBuf

/-- The loop of `MToBuf`, in which `_cur_size` stays as it is. -/
def putCodes : List ℕ → ℕ → CBuffer → Except Buffer.Fault (ℕ × CBuffer)
  | [], i, aBuf => .ok (i, aBuf)
  | code :: codes, i, aBuf => do
    let aBuf ← makeRoom memory _cur_size i aBuf
    let aBuf ← writeInto aBuf (_befor + i) (appendCode code)
    putCodes codes (i + (appendCode code).length) aBuf

def putText (codes : List ℕ) (aBuf : CBuffer) : Except Buffer.Fault CBuffer := do
  let _befor := aBuf.size
  let aBuf ← aBuf.reserve (_befor + codes.length) memory
  let aBuf ← aBuf.resize (aBuf.capacity - 1) false memory
  let (i, aBuf) ← putCodes memory _befor aBuf.size codes 0 aBuf
  aBuf.resize (_befor + i) false memory

end Loop

/-- `MToBuf`, to a buffer that holds its storage alone. -/
def Store.toBuf (memory : ℕ → Byte) (aBuf : CBuffer) (s : Store) : Except OutFault CBuffer :=
  if s.length = 0 then .ok aBuf
  else do
    let codes ← s.readCodes.mapError .text
    (putText memory codes aBuf).mapError .buffer

/-- The capacity that a buffer has when there is room for so many more bytes. -/
def capacityFor (b : CBuffer) (n : ℕ) : ℕ :=
  if b.size + n ≤ b.capacity then b.capacity else b.requred_buf_len (b.size + n)

/-- The bytes of some codes stay in the buffer that `MToBuf` makes room in for as many bytes as
    there are codes, or for four more where it sees the end of the room near. -/
structure TakesText (b : CBuffer) (codes : List ℕ) : Prop where
  reserves : b.capacity < b.size + codes.length →
    b.HasRoom (b.size + codes.length) b.startOffset b.size
  inside : ∀ k < codes.length, b.size + sizeOfCodes (codes.take (k + 1)) ≤
    if capacityFor b codes.length ≤ sizeOfCodes (codes.take k) + 4
    then capacityFor b codes.length + 3 else capacityFor b codes.length - 1
  grows : capacityFor b codes.length ≤ sizeOfCodes codes.dropLast + 4 →
    capacityFor b codes.length + 4 ≤ b.maxSize ∧
      b.requred_buf_len (capacityFor b codes.length + 3) < 2 ^ 32

section Loop
variable {b₂ b : CBuffer} {written bytes : List Byte} {memory : ℕ → Byte}

/-- The buffer in the loop: as it is before it, or four bytes longer. -/
structure Filled (b₂ : CBuffer) (written : List Byte) (b : CBuffer) : Prop where
  inv : b.Inv
  size : (b.size = b₂.size ∧ b₂.Resized b b₂.capacity) ∨ b.size = b₂.size + 4
  written : b.bytes.take written.length = written

/-- Four more bytes can be had. -/
structure CanGrow (b₂ : CBuffer) : Prop where
  capacity_eq : b₂.capacity = b₂.size + 1
  lt_maxSize : b₂.size + 4 < b₂.maxSize
  small : b₂.requred_buf_len (b₂.size + 4) < 2 ^ 32

theorem Filled.length_le (h : Filled b₂ written b) : written.length ≤ b.size := by
  have hlen := congrArg List.length h.written
  rw [List.length_take, CBuffer.bytes_length] at hlen
  omega

variable (memory) in
/-- The buffer is made four bytes longer than it was before the loop, once. -/
theorem Filled.resize (h : Filled b₂ written b) (hgrow : CanGrow b₂) :
    ∃ b', b.resize (b₂.size + 4) false memory = .ok b' ∧ Filled b₂ written b' ∧
      b'.size = b₂.size + 4 := by
  have hlength := h.length_le
  have hsize : b.size ≤ b₂.size + 4 := by
    have hcases := h.size
    omega
  have hopens : b.size < b₂.size + 4 → b.Opens b.size (b₂.size + 4 - b.size) := by
    intro hlt
    obtain ⟨hsame, hresized⟩ := h.size.resolve_right (Nat.ne_of_lt hlt)
    have hsum : b.size + (b₂.size + 4 - b.size) = b₂.size + 4 := by omega
    refine CBuffer.opens_full h.inv ?_ (by omega) ?_ ?_
    · rw [hresized.capacity_eq, hgrow.capacity_eq, hsame]
    · rw [hsum, hresized.maxSize]
      exact hgrow.lt_maxSize
    · rw [hsum, CBuffer.requred_buf_len_congr hresized.maxSize hresized.beginSize (by omega) hsize]
      exact hgrow.small
  obtain ⟨b', u, hresize, hinv, hbytes, hsize'⟩ :=
    CBuffer.resize_longer h.inv hsize hopens memory
  refine ⟨b', hresize, ⟨hinv, .inr hsize', ?_⟩, hsize'⟩
  rw [hbytes, List.take_append_of_le_length (by rwa [CBuffer.bytes_length]), h.written]

theorem Filled.write (h : Filled b₂ written b) (hin : written.length + bytes.length ≤ b.size)
    (hne : bytes ≠ []) :
    ∃ b', writeInto b written.length bytes = .ok b' ∧ Filled b₂ (written ++ bytes) b' := by
  have hwritten := h.written
  have hinv := h.inv
  have hsize := h.size
  obtain ⟨beginSize, maxSize, _ | s⟩ := b
  · change _ ≤ 0 at hin
    have hpos := List.length_pos_iff.2 hne
    omega
  · have hfits := hinv s rfl
    have hroom := hfits.room
    change _ ≤ s.size at hin
    rw [writeInto]
    dsimp only
    rw [if_neg (by omega), Storage.mFill_eq (by omega)]
    refine ⟨_, rfl, CBuffer.inv_some ⟨hfits.start_lt, hroom, hfits.bufSize_lt⟩, ?_, ?_⟩
    · rcases hsize with ⟨hsame, hresized⟩ | hsame
      · exact .inl ⟨hsame, hresized.maxSize, hresized.beginSize, hresized.capacity_eq⟩
      · exact .inr hsame
    · change (slice _ s.startOffset s.size).take _ = _
      rw [slice_take _ _ (by rw [List.length_append]; exact hin), List.length_append, slice_add,
        slice_writeAt_self, slice_writeAt_of_disjoint _ (.inl le_rfl)]
      change (slice s.memory s.startOffset s.size).take _ = _ at hwritten
      rw [slice_take _ _ (by omega)] at hwritten
      rw [hwritten]

theorem sizeOfCodes_cons (code : ℕ) (codes : List ℕ) :
    sizeOfCodes (code :: codes) = (appendCode code).length + sizeOfCodes codes := by
  rw [Store.length_appendCode]
  rfl

variable (memory) in
/-- There is room for the bytes of a code where the loop is to write them. -/
theorem Filled.makeRoom (h : Filled b₂ written b) {i n : ℕ}
    (hinside : written.length + n ≤ if b₂.size < i + 4 then b₂.size + 4 else b₂.size)
    (hgrow : b₂.size < i + 4 → CanGrow b₂) :
    ∃ b', makeRoom memory b₂.size i b = .ok b' ∧ Filled b₂ written b' ∧
      written.length + n ≤ b'.size := by
  unfold CText.makeRoom
  split_ifs at hinside ⊢ with hnear
  · obtain ⟨b', hresize, h', hsize⟩ := h.resize memory (hgrow hnear)
    exact ⟨b', hresize, h', by omega⟩
  · have hcases := h.size
    exact ⟨b, rfl, h, by omega⟩

variable (memory) in
/-- The loop puts the bytes of the codes behind those that are there. -/
theorem putCodes_spec {codes : List ℕ} (_befor : ℕ) {i : ℕ} (h : Filled b₂ written b)
    (hpos : written.length = _befor + i)
    (hinside : ∀ k < codes.length, _befor + i + sizeOfCodes (codes.take (k + 1)) ≤
      if b₂.size < i + sizeOfCodes (codes.take k) + 4 then b₂.size + 4 else b₂.size)
    (hgrows : codes ≠ [] → b₂.size < i + sizeOfCodes codes.dropLast + 4 → CanGrow b₂) :
    ∃ b', putCodes memory _befor b₂.size codes i b = .ok (i + sizeOfCodes codes, b') ∧
      Filled b₂ (written ++ encode codes) b' := by
  induction codes generalizing written i b with
  | nil => exact ⟨b, rfl, (List.append_nil written).symm ▸ h⟩
  | cons code codes ih =>
    have hfirst := hinside 0 (Nat.succ_pos _)
    rw [List.take_succ_cons, List.take_zero, sizeOfCodes_cons, List.take_zero] at hfirst
    change _ + ((appendCode code).length + 0) ≤ if _ < i + 0 + 4 then _ else _ at hfirst
    rw [← hpos, Nat.add_zero, Nat.add_zero] at hfirst
    obtain ⟨b₁, hroom, h₁, hin⟩ := h.makeRoom memory hfirst fun hnear =>
      hgrows (List.cons_ne_nil _ _) (by omega)
    have hne : appendCode code ≠ [] := by
      unfold appendCode
      split_ifs <;> exact List.cons_ne_nil _ _
    obtain ⟨b', hwrite, h'⟩ := h₁.write hin hne
    rw [hpos] at hwrite
    obtain ⟨b'', hrest, h''⟩ := ih (i := i + (appendCode code).length) h'
      (by rw [List.length_append, hpos, Nat.add_assoc])
      (fun k hk => by
        have hnext := hinside (k + 1) (Nat.succ_lt_succ hk)
        rw [List.take_succ_cons, List.take_succ_cons, sizeOfCodes_cons, sizeOfCodes_cons] at hnext
        simpa only [Nat.add_assoc] using hnext)
      (fun hcodes hnear => by
        refine hgrows (List.cons_ne_nil _ _) ?_
        rw [List.dropLast_cons_of_ne_nil hcodes, sizeOfCodes_cons]
        omega)
    refine ⟨b'', ?_, ?_⟩
    · rw [putCodes]
      simp only [bind, Except.bind, hroom, hwrite]
      rw [hrest, sizeOfCodes_cons, Nat.add_assoc]
    · rwa [encode_cons, ← List.append_assoc]

end Loop

/-- The bytes of the codes stand behind those of the buffer. -/
theorem putText_spec {b : CBuffer} {codes : List ℕ} (hb : b.Inv) (hne : codes ≠ [])
    (h : TakesText b codes) (memory : ℕ → Byte) :
    ∃ b', putText memory codes b = .ok b' ∧ b'.bytes = b.bytes ++ encode codes := by
  have hpos := List.length_pos_iff.2 hne
  obtain ⟨b₁, hreserve, hb₁, hbytes₁⟩ := CBuffer.reserve_steps hb h.reserves memory
  have hresized₁ := CBuffer.reserve_resized hreserve
  have hsize₁ : b₁.size = b.size := by
    rw [← CBuffer.bytes_length, hbytes₁, CBuffer.bytes_length]
  have hcapacity₁ : b₁.capacity = capacityFor b codes.length := hresized₁.capacity_eq
  have hlarge : b.size + codes.length ≤ b₁.capacity := by
    rw [hcapacity₁, capacityFor]
    split_ifs with hle
    · exact hle
    · exact CBuffer.le_requred_buf_len (h.reserves (Nat.lt_of_not_le hle)).1
  obtain ⟨b₂, u, hresize, hb₂, hbytes₂, hsize₂⟩ :=
    CBuffer.resize_longer (n := b₁.capacity - 1) hb₁ (by omega)
      (fun _ => CBuffer.opens_end hb₁ (by omega) (by omega) (by omega)) memory
  have hresized₂ := CBuffer.resize_resized hb₁ (by omega) (by omega) hresize
  have hwritten : Filled b₂ b.bytes b₂ := by
    refine ⟨hb₂, .inl ⟨rfl, rfl, rfl, rfl⟩, ?_⟩
    rw [hbytes₂, hbytes₁, List.take_left]
  have hinside : ∀ k < codes.length, b.size + 0 + sizeOfCodes (codes.take (k + 1)) ≤
      if b₂.size < 0 + sizeOfCodes (codes.take k) + 4 then b₂.size + 4 else b₂.size := by
    intro k hk
    have hfits := h.inside k hk
    rw [← hcapacity₁] at hfits
    rw [hsize₂]
    split_ifs at hfits ⊢ <;> omega
  have hgrows : codes ≠ [] → b₂.size < 0 + sizeOfCodes codes.dropLast + 4 → CanGrow b₂ := by
    intro _ hnear
    have hlimits := h.grows (by omega)
    rw [← hcapacity₁] at hlimits
    have hnext : b₂.size + 4 = b₁.capacity + 3 := by omega
    have hlen : b₂.requred_buf_len (b₁.capacity + 3) = b.requred_buf_len (b₁.capacity + 3) :=
      CBuffer.requred_buf_len_congr (hresized₂.maxSize.trans hresized₁.maxSize)
        (hresized₂.beginSize.trans hresized₁.beginSize) (by omega) (by omega)
    refine ⟨?_, ?_, ?_⟩
    · rw [hresized₂.capacity_eq]
      omega
    · rw [hresized₂.maxSize, hresized₁.maxSize]
      omega
    · rw [hnext, hlen]
      exact hlimits.2
  obtain ⟨b₃, hput, h₃⟩ := putCodes_spec memory b.size (i := 0) hwritten
    CBuffer.bytes_length hinside hgrows
  have hlen : b.size + sizeOfCodes codes = (b.bytes ++ encode codes).length := by
    rw [List.length_append, CBuffer.bytes_length, Store.length_encode]
  obtain ⟨b', hshrink, -, hbytes'⟩ := CBuffer.resize_shorter h₃.inv h₃.length_le memory
  refine ⟨b', ?_, by rw [hbytes', h₃.written]⟩
  rw [putText]
  simp only [bind, Except.bind, hreserve, hresize, hput, Nat.zero_add, hlen, hshrink]

theorem Store.toBuf_spec {s : Store} (hs : s.Valid) {b : CBuffer} (hb : b.Inv)
    (h : s.codes ≠ [] → TakesText b s.codes) (memory : ℕ → Byte) :
    ∃ b', s.toBuf memory b = .ok b' ∧ b'.bytes = b.bytes ++ encode s.codes := by
  have hlength := hs.sized.length_codes
  rw [Store.toBuf]
  by_cases hzero : s.length = 0
  · have hnil : s.codes = [] := List.eq_nil_of_length_eq_zero (hlength.trans hzero)
    rw [if_pos hzero, hnil]
    exact ⟨b, rfl, (List.append_nil b.bytes).symm⟩
  · have hne : s.codes ≠ [] := List.ne_nil_of_length_pos (by omega)
    obtain ⟨b', hput, hbytes⟩ := putText_spec hb hne (h hne) memory
    rw [if_neg hzero, hs.readCodes]
    refine ⟨b', ?_, hbytes⟩
    simp only [bind, Except.bind, Except.mapError, hput]

end UdtKernel.CText
