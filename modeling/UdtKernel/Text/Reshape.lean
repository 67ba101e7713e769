import UdtKernel.Text.Edits
import UdtKernel.Lib.Outcome

set_option autoImplicit false

/-! How a text grows, is shifted and is filled, as the edits have it. -/

namespace UdtKernel.CText
open Lib

namespace Store

/-- The memory is as great as it is remembered to be, and holds the code points. -/
structure Sized (s : Store) : Prop where
  memory : s.buf.length = s.bufLen
  le_bufLen : s.length ≤ s.bufLen

/-- The memory has room for a null behind the code points, and the null is there. -/
structure Good (s : Store) : Prop where
  memory : s.buf.length = s.bufLen
  room : s.length < s.bufLen
  ended : s.buf[s.length]? = some 0
  small : s.length < maxSize

/-- A text of this size is not longer than a `size_type` tells, nor are the bytes it needs. -/
def Room (reserved : ℕ → ℕ) (s : Store) (n : ℕ) : Prop :=
  n < 2 ^ 64 ∧ (n < s.bufLen ∨ reserved (n + 1) * 4 < 2 ^ 64)

/-- The text is a good one of its own with these code points, or a check has failed. -/
def Becomes (codes : List ℕ) (x : Except Fault Store) : Prop :=
  Outcome (· = .check) (fun s => s.Good ∧ s.codes = codes ∧ s.shared = false) x

variable {reserved junk : ℕ → ℕ} {s : Store}

theorem Good.sized (h : s.Good) : s.Sized := ⟨h.memory, Nat.le_of_lt h.room⟩

theorem Sized.le_buf (h : s.Sized) : s.length ≤ s.buf.length := h.memory.symm ▸ h.le_bufLen

theorem Sized.length_codes (h : s.Sized) : s.codes.length = s.length := by
  rw [codes, List.length_take, Nat.min_eq_left h.le_buf]

@[simp] theorem changed_buf (s : Store) : s.changed.buf = s.buf := by
  unfold changed
  split_ifs <;> rfl

@[simp] theorem changed_bufLen (s : Store) : s.changed.bufLen = s.bufLen := by
  unfold changed
  split_ifs <;> rfl

@[simp] theorem changed_length (s : Store) : s.changed.length = s.length := by
  unfold changed
  split_ifs <;> rfl

@[simp] theorem changed_shared (s : Store) : s.changed.shared = false := by
  unfold changed
  split_ifs with hshared
  · rfl
  · exact Bool.eq_false_iff.2 hshared
  · exact Bool.eq_false_iff.2 hshared

@[simp] theorem changed_codes (s : Store) : s.changed.codes = s.codes := by
  simp [codes]

theorem Sized.changed (h : s.Sized) : s.changed.Sized :=
  ⟨by simp [h.memory], by simp [h.le_bufLen]⟩

theorem Room.changed {n : ℕ} (h : Room reserved s n) : Room reserved s.changed n := by
  simpa [Room] using h

theorem check_outcome (p : Prop) [Decidable p] :
    Outcome (· = .check) (fun _ => p) (check p) := by
  unfold check
  split_ifs with h
  · exact h
  · exact rfl

structure Grown (s : Store) (n : ℕ) (s' : Store) : Prop where
  memory : s'.buf.length = s'.bufLen
  room : n < s'.bufLen
  length_eq : s'.length = s.length
  le_bufLen : s.length ≤ s'.bufLen
  kept : s'.buf.take s.length = s.codes
  own : s'.shared = false
  small : n < maxSize

theorem grow_outcome (hreserved : ∀ n, n ≤ reserved n) (hs : s.Sized) (hown : s.shared = false)
    {n : ℕ} (hroom : Room reserved s n) :
    Outcome (· = .check) (s.Grown n) (s.grow reserved junk n) := by
  refine (check_outcome _).bind fun _ hsmall => ?_
  by_cases hlt : s.bufLen < n + 1
  · rw [if_pos hlt]
    have hbytes : reserved (n + 1) * 4 < 2 ^ 64 := hroom.2.resolve_left (by omega)
    have hfits : reserved (n + 1) * 4 % 2 ^ 64 / 4 = reserved (n + 1) := by
      rw [Nat.mod_eq_of_lt hbytes, Nat.mul_div_cancel _ (by decide)]
    have hle := hreserved (n + 1)
    have hlen := hs.le_bufLen
    have hbuf := hs.le_buf
    have hcodes : s.codes.length = s.length := hs.length_codes
    have hread : readAt s.buf 0 s.length = .ok s.codes := by
      rw [readAt_ok (by omega), List.drop_zero, codes]
    have hmemory : ((List.range (reserved (n + 1))).map junk).length = reserved (n + 1) := by
      rw [List.length_map, List.length_range]
    have hinside : 0 + s.codes.length ≤ ((List.range (reserved (n + 1))).map junk).length := by
      omega
    simp only [hread, hfits]
    change Outcome _ _ (put 0 s.codes _)
    rw [put, if_pos hinside]
    refine ⟨?_, hle, rfl, by dsimp only; omega, ?_, rfl, hsmall⟩
    · exact (length_overwrite hinside).trans hmemory
    · change (overwrite _ 0 s.codes).take s.length = s.codes
      rw [overwrite, List.take_zero, List.nil_append, ← hcodes, List.take_left]
  · rw [if_neg hlt]
    exact ⟨hs.memory, by omega, rfl, hs.le_bufLen, rfl, hown, hsmall⟩

/-- Where a number of code points is read as before, though the ones behind a gap are shifted. -/
def Untouched (size idx len num pos n : ℕ) : Prop :=
  pos + n ≤ size ∧
    (n = 0 ∨ pos + n ≤ idx ∨ size - len + num ≤ pos ∨ (num = len ∧ idx + num ≤ pos))

/-- A text whose code points behind a gap stand where they are to stand in a text of a new size. -/
structure Shifted (s : Store) (n idx len num : ℕ) (s' : Store) : Prop where
  memory : s'.buf.length = s'.bufLen
  room : n < s'.bufLen
  own : s'.shared = false
  small : n < maxSize
  before : s'.buf.take idx = s.codes.take idx
  after : (s'.buf.drop (idx + num)).take (s.length - idx - len) = s.codes.drop (idx + len)
  kept : ∀ pos k, Untouched s.length idx len num pos k →
    pos + k ≤ s'.buf.length ∧ (s'.buf.drop pos).take k = (s.codes.drop pos).take k

section Shift
variable {n idx len num : ℕ} {s' : Store}

theorem Grown.take_drop (h : s.Grown n s') {pos k : ℕ} (hin : pos + k ≤ s.length) :
    (s'.buf.drop pos).take k = (s.codes.drop pos).take k := by
  rw [← h.kept, List.drop_take, List.take_take, Nat.min_eq_left (by omega)]

theorem Grown.le_buf (h : s.Grown n s') : s.length ≤ s'.buf.length := h.memory.symm ▸ h.le_bufLen

theorem Grown.codes_drop (h : s.Grown n s') (pos : ℕ) :
    s.codes.drop pos = (s'.buf.drop pos).take (s.length - pos) := by
  rw [← h.kept, List.drop_take]

theorem Grown.move (h : s.Grown n s') (hidx : idx + len ≤ s.length)
    (hn : n + len = s.length + num) :
    ∃ s₁, s'.move (idx + num) (idx + len) (s.length - idx - len) = .ok s₁ ∧
      s.Shifted n idx len num s₁ := by
  have hbuf := h.le_buf
  have hmemory := h.memory
  have hroom := h.room
  let tail := (s'.buf.drop (idx + len)).take (s.length - idx - len)
  have htail : tail.length = s.length - idx - len := by
    simp only [tail, List.length_take, List.length_drop]
    omega
  have hinside : idx + num + tail.length ≤ s'.buf.length := by omega
  have hmove : s'.move (idx + num) (idx + len) (s.length - idx - len) =
      .ok { s' with buf := overwrite s'.buf (idx + num) tail } := by
    rw [Store.move, readAt_ok (by omega)]
    exact if_pos hinside
  refine ⟨_, hmove, (length_overwrite hinside).trans h.memory, h.room, h.own, h.small, ?_, ?_, ?_⟩
  · have hin : 0 + idx ≤ s.length := by omega
    have hfront := h.take_drop hin
    rw [List.drop_zero, List.drop_zero] at hfront
    exact (take_overwrite (by omega) (by omega)).trans hfront
  · change ((overwrite s'.buf (idx + num) tail).drop (idx + num)).take _ = _
    have hfront : (s'.buf.take (idx + num)).length = idx + num := by
      rw [List.length_take]
      omega
    rw [overwrite, List.append_assoc, List.drop_left' hfront, ← htail, List.take_left,
      h.codes_drop, Nat.sub_add_eq]
  · rintro pos k ⟨hin, hapart⟩
    refine ⟨by rw [length_overwrite hinside]; omega, ?_⟩
    rw [← h.take_drop hin]
    by_cases heq : num = len
    · have hsame : overwrite s'.buf (idx + num) tail = s'.buf := by
        rw [heq, overwrite, htail, List.append_assoc, ← List.drop_drop, List.take_append_drop,
          List.take_append_drop]
      change ((overwrite s'.buf (idx + num) tail).drop pos).take k = _
      rw [hsame]
    · exact take_drop_overwrite (by omega) (by omega)

/-- A text ends at a new size. -/
theorem setLen_becomes {s₁ : Store} (hmemory : s₁.buf.length = s₁.bufLen) (hroom : n < s₁.bufLen)
    (hown : s₁.shared = false) (hsmall : n < maxSize) {l : List ℕ} (hl : s₁.buf.take n = l) :
    Becomes l (s₁.setLen n) := by
  have hend : n + [0].length ≤ s₁.buf.length := by
    rw [List.length_singleton]
    omega
  rw [setLen, put, if_pos hend]
  refine ⟨⟨(length_overwrite hend).trans hmemory, hroom, ?_, hsmall⟩, ?_, hown⟩
  · change (overwrite s₁.buf n [0])[n]? = some 0
    rw [getElem?_overwrite (by omega : n ≤ s₁.buf.length), if_neg (Nat.lt_irrefl n),
      List.length_singleton, if_pos (Nat.lt_succ_self n), Nat.sub_self]
    rfl
  · have htake : (overwrite s₁.buf n [0]).take n = s₁.buf.take n := take_overwrite (by omega) le_rfl
    exact htake.trans hl

/-- The gap of a shifted text is filled, and the text ends at its new size. -/
theorem Shifted.filled {s₁ : Store} (h : s.Shifted n idx len num s₁) (hs : s.Sized)
    (hidx : idx + len ≤ s.length) (hn : n + len = s.length + num) {piece : List ℕ}
    (hpiece : piece.length = num) :
    Becomes (s.codes.take idx ++ piece ++ s.codes.drop (idx + len))
      (s₁.put idx piece >>= setLen n) := by
  have hroom := h.room
  have hmemory := h.memory
  have hlen := hs.length_codes
  have hgap : idx + piece.length ≤ s₁.buf.length := by omega
  let s₂ : Store := { s₁ with buf := overwrite s₁.buf idx piece }
  have hput : s₁.put idx piece = .ok s₂ := if_pos hgap
  have hmemory₂ : s₂.buf.length = s₂.bufLen := (length_overwrite hgap).trans h.memory
  rw [hput]
  refine setLen_becomes hmemory₂ h.room h.own h.small ?_
  have hfront : (s.codes.take idx ++ piece).length = idx + num := by
    rw [List.length_append, List.length_take, hpiece]
    omega
  change (overwrite s₁.buf idx piece).take n = _
  rw [overwrite, h.before, hpiece, ← h.after, List.take_append, hfront,
    List.take_of_length_le (by omega)]
  congr 2
  omega

/-- A text that is grown, shifted and filled has a piece in the place of some of its code points. -/
theorem grown_outcome (hreserved : ∀ n, n ≤ reserved n) (hs : s.Sized) (hown : s.shared = false)
    (hidx : idx + len ≤ s.length) {piece : List ℕ} (hn : n + len = s.length + piece.length)
    (hroom : Room reserved s n) {work : Store → Except Fault Store}
    (hwork : ∀ s', s.Grown n s' → ∃ s₁, s.Shifted n idx len piece.length s₁ ∧
      work s' = s₁.put idx piece) :
    Becomes (s.codes.take idx ++ piece ++ s.codes.drop (idx + len))
      (s.grown reserved junk n work) := by
  refine (grow_outcome hreserved hs hown hroom).bind fun s' hs' => ?_
  obtain ⟨s₁, hshifted, heq⟩ := hwork s' hs'
  rw [heq]
  exact hshifted.filled hs hidx hn rfl

/-- Nothing is shifted where nothing stands behind the gap. -/
theorem Grown.shifted_end (h : s.Grown n s') (hend : idx + len = s.length) (num : ℕ) :
    s.Shifted n idx len num s' where
  memory := h.memory
  room := h.room
  own := h.own
  small := h.small
  before := by
    have hin : 0 + idx ≤ s.length := by omega
    have hfront := h.take_drop hin
    rwa [List.drop_zero, List.drop_zero] at hfront
  after := by
    rw [h.codes_drop, hend, Nat.sub_self, show s.length - idx - len = 0 by omega]
    simp
  kept pos k hkept := by
    have hbuf := h.le_buf
    have hin := hkept.1
    exact ⟨by omega, h.take_drop hin⟩

end Shift

end Store

end UdtKernel.CText
