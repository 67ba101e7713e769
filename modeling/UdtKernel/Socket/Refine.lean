import UdtKernel.Lib.Run
import UdtKernel.Socket.EventFifo

set_option autoImplicit false

/-! The ring is a bounded FIFO as long as no erasure walks back over the wrap of the ids. -/

namespace UdtKernel.Socket
open UdtKernel.Lib

namespace EventFifo

/-- The events between the ids of the reader and the writer. -/
def held (r : EventFifo) : ℕ :=
  if r.write < r.read then r.write + r.maxValue - r.read else r.write - r.read

def content (r : EventFifo) : List EventInfo := ringItems r.info r.arraySize r.read r.held

structure Sized (r : EventFifo) : Prop where
  two_le : 2 ≤ r.arraySize
  le : 2 * r.arraySize ≤ 2 ^ 16 - 1
  maxValue : r.maxValue = (2 ^ 16 - 1) / r.arraySize * r.arraySize
  read : r.read < r.maxValue
  write : r.write < r.maxValue
  held : r.held ≤ r.arraySize

section
variable {r : EventFifo} (h : Sized r)
include h

theorem dvd_maxValue : r.arraySize ∣ r.maxValue := by
  rw [h.maxValue]
  exact Nat.dvd_mul_left _ _

theorem maxValue_range : 2 * r.arraySize ≤ r.maxValue ∧ r.maxValue < 2 ^ 16 := by
  have htwo := h.two_le
  have hle := h.le
  rw [h.maxValue]
  have hquot : 2 ≤ (2 ^ 16 - 1) / r.arraySize := (Nat.le_div_iff_mul_le (by omega)).2 hle
  exact ⟨Nat.mul_le_mul_right _ hquot, Nat.lt_of_le_of_lt (Nat.div_mul_le_self _ _) (by decide)⟩

theorem mInc_eq {id : ℕ} (hid : id < r.maxValue) : r.mInc id = (id + 1) % r.maxValue := by
  have hrange := maxValue_range h
  unfold mInc
  rw [Nat.mod_eq_of_lt (by omega : id + 1 < 2 ^ 16)]

theorem mDec_eq {id : ℕ} (hpos : 0 < id) (hid : id < r.maxValue) : r.mDec id = id - 1 := by
  have hrange := maxValue_range h
  unfold mDec
  have hsub : (id + (2 ^ 16 - 1)) % 2 ^ 16 = id - 1 := by omega
  rw [hsub, Nat.mod_eq_of_lt (by omega)]

theorem mCount_eq : r.mCount = .ok r.held := by
  have hrange := maxValue_range h
  have hread := h.read
  have hwrite := h.write
  have hle := h.held
  have hcount : (if (r.write : ℤ) - r.read < 0 then (r.write : ℤ) - r.read + r.maxValue
      else (r.write : ℤ) - r.read) = (r.held : ℤ) := by
    unfold held
    split_ifs <;> omega
  unfold mCount
  dsimp only
  rw [hcount, if_neg (by omega), Int.toNat_natCast]

theorem mEmpty_eq : r.mEmpty = decide (r.held = 0) := by
  have hread := h.read
  have hwrite := h.write
  unfold mEmpty held
  rw [decide_eq_decide]
  split_ifs <;> omega

/-- The writer is as many ids before the reader as there are events. -/
theorem write_eq : r.write = (r.read + r.held) % r.maxValue := by
  have hread := h.read
  have hwrite := h.write
  unfold held
  split_ifs with hlt
  · have hsum : r.read + (r.write + r.maxValue - r.read) = r.write + r.maxValue := by omega
    rw [hsum, Nat.add_mod_right, Nat.mod_eq_of_lt hwrite]
  · have hsum : r.read + (r.write - r.read) = r.write := by omega
    rw [hsum, Nat.mod_eq_of_lt hwrite]

theorem pos_mod (id : ℕ) : r.pos (id % r.maxValue) = r.pos id :=
  Nat.mod_mod_of_dvd id (dvd_maxValue h)

end

/-- The ids stand as far from each other as there are events. -/
theorem held_eq {r : EventFifo} {count : ℕ} (hread : r.read < r.maxValue)
    (hcount : count < r.maxValue) (hwrite : r.write = (r.read + count) % r.maxValue) :
    r.held = count := by
  unfold held
  rw [hwrite]
  by_cases hlt : r.read + count < r.maxValue
  · rw [Nat.mod_eq_of_lt hlt]
    split_ifs <;> omega
  · rw [Nat.mod_eq_sub_mod (Nat.not_lt.1 hlt), Nat.mod_eq_of_lt (by omega)]
    split_ifs <;> omega

theorem sized_new {n : ℕ} (htwo : 2 ≤ n) (hle : 2 * n ≤ 2 ^ 16 - 1) : Sized (new n) := by
  have hquot : 2 ≤ (2 ^ 16 - 1) / n := (Nat.le_div_iff_mul_le (by omega)).2 hle
  have hpos : 0 < (2 ^ 16 - 1) / n * n := Nat.mul_pos (by omega) (by omega)
  exact ⟨htwo, hle, rfl, hpos, hpos, Nat.zero_le _⟩

def fifo (r : EventFifo) : BoundedFifo :=
  ⟨r.arraySize, r.maxCountRecvEvent, r.countRecvEvent, r.content⟩

def isData (e : EventInfo) : Bool := e.eventType = eData

structure Sound (r : EventFifo) : Prop extends Sized r where
  maxCount : r.maxCountRecvEvent ≤ r.arraySize
  count : r.content.countP isData ≤ r.countRecvEvent

/-- An operation does with a ring what it does with the FIFO. -/
def Refines (r : EventFifo) (op : Op) : Prop :=
  ∃ reply r', r.apply op = .ok (reply, r') ∧ Sound r' ∧ r.fifo.apply op = (reply, r'.fifo)

theorem length_content (r : EventFifo) : r.content.length = r.held := length_ringItems _ _ _ _

theorem pos_succ_ne {n id : ℕ} (hn : 2 ≤ n) : id % n ≠ (id + 1) % n := by
  intro h
  have hplace : (id + 0) % n = (id + 1) % n := h
  exact absurd (place_inj (by omega) (by omega) hplace) (by decide)

theorem getElem_content (r : EventFifo) {i : ℕ} (h : i < r.content.length) :
    r.content[i] = r.info ((r.read + i) % r.arraySize) := getElem_ringItems _ h

section
variable {r : EventFifo} (h : Sound r)
include h

theorem pos_write : r.pos r.write = (r.read + r.held) % r.arraySize := by
  rw [write_eq h.toSized, pos_mod h.toSized]
  rfl

theorem pos_mInc {id : ℕ} (hid : id < r.maxValue) : r.pos (r.mInc id) = (id + 1) % r.arraySize := by
  rw [mInc_eq h.toSized hid, pos_mod h.toSized]
  rfl

/-- The ring behind a put. -/
theorem sized_put (hfull : r.held ≠ r.arraySize) (count : ℕ) (e : EventInfo) :
    let r' := { r with
      countRecvEvent := count, write := r.mInc r.write
      info := Function.update r.info (r.pos r.write) e }
    Sized r' ∧ r'.held = r.held + 1 ∧ r'.content = r.content ++ [e] := by
  intro r'
  have hrange := maxValue_range h.toSized
  have htwo := h.two_le
  have hle := h.held
  have hwrite : r'.write = (r'.read + (r.held + 1)) % r'.maxValue := by
    calc r.mInc r.write = (r.write + 1) % r.maxValue := mInc_eq h.toSized h.write
      _ = ((r.read + r.held) % r.maxValue + 1) % r.maxValue := by rw [← write_eq h.toSized]
      _ = (r.read + (r.held + 1)) % r.maxValue := by rw [Nat.mod_add_mod, Nat.add_assoc]
  have hheld : r'.held = r.held + 1 :=
    held_eq h.read (by change r.held + 1 < r.maxValue; omega) hwrite
  refine ⟨⟨htwo, h.le, h.maxValue, h.read, ?_, ?_⟩, hheld, ?_⟩
  · rw [hwrite]
    exact Nat.mod_lt _ (by change 0 < r.maxValue; omega)
  · rw [hheld]
    change r.held + 1 ≤ r.arraySize
    omega
  · have hslots : r'.info = Function.update r.info ((r.read + r.held) % r.arraySize) e := by
      rw [← pos_write h]
    unfold content
    rw [hheld, hslots]
    change ringItems _ r.arraySize r.read (r.held + 1) = _
    rw [ringItems_succ, Function.update_self, ringItems_update r.info hle (by omega),
      List.set_eq_of_length_le (by rw [length_ringItems])]

theorem mPut_eq {e : EventInfo} (hfull : r.held ≠ r.arraySize)
    (hmany : ¬(e.eventType = eData ∧ r.maxCountRecvEvent ≤ r.countRecvEvent)) :
    r.mPut e = .ok (true, { r with
      countRecvEvent := if e.eventType = eData then r.countRecvEvent + 1 else r.countRecvEvent
      write := r.mInc r.write
      info := Function.update r.info (r.pos r.write) e }) := by
  have hcount := mCount_eq h.toSized
  have hrange := maxValue_range h.toSized
  have hmax := h.maxCount
  have hdata : (if e.eventType = eData then (r.countRecvEvent + 1) % 2 ^ 16
      else r.countRecvEvent) = if e.eventType = eData then r.countRecvEvent + 1
        else r.countRecvEvent := by
    split_ifs with hd
    · have hlt : r.countRecvEvent < r.maxCountRecvEvent := Nat.not_le.1 fun hle => hmany ⟨hd, hle⟩
      exact Nat.mod_eq_of_lt (by omega)
    · rfl
  obtain ⟨hsized, hheld, -⟩ := sized_put h hfull
    (if e.eventType = eData then r.countRecvEvent + 1 else r.countRecvEvent) e
  have hnext := mCount_eq hsized
  rw [hheld] at hnext
  have hpos : ¬r.pos r.write = r.pos (r.mInc r.write) := by
    rw [pos_mInc h h.write]
    exact pos_succ_ne h.two_le
  unfold mPut
  rw [hcount, hdata]
  simp only [bind, Except.bind, pure, Except.pure, hfull, if_false, hmany]
  rw [if_neg (by exact hpos), hnext]
  simp

theorem refines_put (e : EventInfo) : Refines r (.put e) := by
  have hcount := mCount_eq h.toSized
  have hrefuse : r.mPut e = .ok (false, r) → (r.held = r.arraySize ∨
      e.eventType = eData ∧ r.maxCountRecvEvent ≤ r.countRecvEvent) → Refines r (.put e) := by
    intro hput hwhy
    refine ⟨.put false, r, by rw [apply, hput]; rfl, h, ?_⟩
    rw [BoundedFifo.apply]
    exact if_pos (by rw [fifo, length_content]; exact hwhy)
  by_cases hfull : r.held = r.arraySize
  · refine hrefuse ?_ (.inl hfull)
    rw [mPut, hcount]
    simp [bind, Except.bind, pure, Except.pure, hfull]
  · by_cases hmany : e.eventType = eData ∧ r.maxCountRecvEvent ≤ r.countRecvEvent
    · refine hrefuse ?_ (.inr hmany)
      rw [mPut, hcount]
      simp [bind, Except.bind, pure, Except.pure, hfull, hmany]
    · obtain ⟨hsized, -, hcontent⟩ := sized_put h hfull
        (if e.eventType = eData then r.countRecvEvent + 1 else r.countRecvEvent) e
      refine ⟨.put true, _, by rw [apply, mPut_eq h hfull hmany]; rfl, ⟨hsized, h.maxCount, ?_⟩, ?_⟩
      · rw [hcontent, List.countP_append, List.countP_singleton]
        have hold := h.count
        unfold isData
        change _ ≤ if e.eventType = eData then r.countRecvEvent + 1 else r.countRecvEvent
        simp only [decide_eq_true_eq]
        split_ifs <;> unfold isData at hold <;> omega
      · rw [BoundedFifo.apply, if_neg]
        · unfold fifo
          rw [hcontent]
        · rw [fifo, length_content]
          exact not_or.2 ⟨hfull, hmany⟩

theorem sized_pop {count : ℕ} (hheld : r.held = count + 1) (recv : ℕ) :
    let r' := { r with countRecvEvent := recv, read := r.mInc r.read }
    Sized r' ∧ r.content = r.info (r.pos r.read) :: r'.content := by
  intro r'
  have hrange := maxValue_range h.toSized
  have hle := h.held
  have hread : r'.read = (r.read + 1) % r.maxValue := mInc_eq h.toSized h.read
  have hlt : r'.read < r.maxValue := by
    rw [hread]
    exact Nat.mod_lt _ (by omega)
  have hwrite : r'.write = (r'.read + count) % r'.maxValue := by
    calc r.write = (r.read + r.held) % r.maxValue := write_eq h.toSized
      _ = ((r.read + 1) % r.maxValue + count) % r.maxValue := by
        rw [hheld, Nat.mod_add_mod, Nat.add_assoc, Nat.add_comm 1]
      _ = (r'.read + count) % r.maxValue := by rw [← hread]
  have hheld' : r'.held = count := held_eq hlt (by change count < r.maxValue; omega) hwrite
  refine ⟨⟨h.two_le, h.le, h.maxValue, hlt, h.write, ?_⟩, ?_⟩
  · rw [hheld']
    change count ≤ r.arraySize
    omega
  · unfold content
    rw [hheld', hheld, ringItems_succ_left]
    rw [hread, ringItems_mod _ (dvd_maxValue h.toSized)]
    rfl

theorem mPop_eq {count : ℕ} (hheld : r.held = count + 1) :
    r.mPop = .ok (some (r.info (r.pos r.read)), { r with
      countRecvEvent := if (r.info (r.pos r.read)).eventType = eData then r.countRecvEvent - 1
        else r.countRecvEvent
      read := r.mInc r.read }) := by
  have hempty : r.mEmpty = false := by
    rw [mEmpty_eq h.toSized, hheld]
    rfl
  obtain ⟨-, hcontent⟩ := sized_pop h hheld r.countRecvEvent
  have hcount := h.count
  rw [hcontent, List.countP_cons] at hcount
  have hdata : ¬((r.info (r.pos r.read)).eventType = eData ∧ r.countRecvEvent = 0) := by
    rintro ⟨hd, hzero⟩
    rw [isData, hd] at hcount
    simp at hcount
    omega
  have hpos : ¬r.pos r.read = r.pos (r.mInc r.read) := by
    rw [pos_mInc h h.read]
    exact pos_succ_ne h.two_le
  unfold mPop
  rw [hempty]
  simp only [bind, Except.bind, pure, Except.pure, Bool.false_eq_true, if_false, hdata]
  exact if_neg hpos

theorem refines_pop : Refines r .pop := by
  cases hheld : r.held with
  | zero =>
    have hempty : r.mEmpty = true := by
      rw [mEmpty_eq h.toSized, hheld]
      rfl
    have hcontent : r.content = [] := by
      rw [← List.length_eq_zero_iff, length_content, hheld]
    refine ⟨.pop none, r, ?_, h, ?_⟩
    · rw [apply, mPop, hempty]
      rfl
    · rw [BoundedFifo.apply, fifo, hcontent]
  | succ count =>
    obtain ⟨hsized, hcontent⟩ := sized_pop h hheld
      (if (r.info (r.pos r.read)).eventType = eData then r.countRecvEvent - 1
        else r.countRecvEvent)
    have hcount := h.count
    rw [hcontent, List.countP_cons] at hcount
    refine ⟨.pop (some (r.info (r.pos r.read))), _, ?_, ⟨hsized, h.maxCount, ?_⟩, ?_⟩
    · rw [apply, mPop_eq h hheld]
      rfl
    · change _ ≤ if (r.info (r.pos r.read)).eventType = eData then _ else _
      by_cases hd : (r.info (r.pos r.read)).eventType = eData
      · rw [isData, hd] at hcount
        rw [if_pos hd]
        simp only [decide_true, if_true] at hcount
        omega
      · rw [if_neg hd]
        exact Nat.le_trans (Nat.le_add_right _ _) hcount
    · rw [BoundedFifo.apply, fifo]
      simp only [hcontent]
      rfl

end

/-- The last of the first places where an event stands. -/
def lastMatch (r : EventFifo) (e : EventInfo) : ℕ → Option ℕ
  | 0 => none
  | j + 1 => if r.info ((r.read + j) % r.arraySize) = e then some j else lastMatch r e j

theorem lastMatch_eq_some {r : EventFifo} {e : EventInfo} {i j : ℕ}
    (h : r.lastMatch e j = some i) :
    i < j ∧ r.info ((r.read + i) % r.arraySize) = e ∧
      ∀ k, i < k → k < j → r.info ((r.read + k) % r.arraySize) ≠ e := by
  induction j with
  | zero => cases h
  | succ j ih =>
    rw [lastMatch] at h
    split_ifs at h with hj
    · cases h
      exact ⟨Nat.lt_succ_self _, hj, fun k hk hk' => absurd hk' (by omega)⟩
    · obtain ⟨hlt, hi, hlater⟩ := ih h
      refine ⟨Nat.lt_succ_of_lt hlt, hi, fun k hk hk' => ?_⟩
      rcases Nat.lt_succ_iff_lt_or_eq.1 hk' with hk' | rfl
      · exact hlater k hk hk'
      · exact hj

theorem lastMatch_eq_none {r : EventFifo} {e : EventInfo} {j : ℕ} (h : r.lastMatch e j = none) :
    ∀ k < j, r.info ((r.read + k) % r.arraySize) ≠ e := by
  induction j with
  | zero => exact fun k hk => absurd hk (Nat.not_lt_zero _)
  | succ j ih =>
    rw [lastMatch] at h
    split_ifs at h with hj
    intro k hk
    rcases Nat.lt_succ_iff_lt_or_eq.1 hk with hk | rfl
    · exact ih h k hk
    · exact hj

/-- Without its last event that is equal to `e` the list of a ring has one place less. -/
theorem eraseLast_content (r : EventFifo) (e : EventInfo) :
    eraseLast e r.content = (r.lastMatch e r.held).map fun i => r.content.eraseIdx i := by
  cases hmatch : r.lastMatch e r.held with
  | none =>
    rw [Option.map_none, eraseLast_eq_none_iff]
    intro hmem
    obtain ⟨k, hk, hget⟩ := List.getElem_of_mem hmem
    rw [length_content] at hk
    exact lastMatch_eq_none hmatch k hk (by rw [← hget, getElem_content])
  | some i =>
    obtain ⟨hi, hget, hlater⟩ := lastMatch_eq_some hmatch
    have hlt : i < r.content.length := by rwa [length_content]
    have hsplit : r.content = r.content.take i ++ e :: r.content.drop (i + 1) := by
      conv_lhs => rw [← List.take_append_drop i r.content, List.drop_eq_getElem_cons hlt]
      congr 2
      rw [getElem_content, hget]
    have hnot : e ∉ r.content.drop (i + 1) := by
      intro hmem
      obtain ⟨k, hk, hget⟩ := List.getElem_of_mem hmem
      rw [List.length_drop, length_content] at hk
      rw [List.getElem_drop, getElem_content] at hget
      exact hlater (i + 1 + k) (by omega) (by omega) hget
    rw [hsplit, eraseLast_append hnot, Option.map_some, ← hsplit, List.eraseIdx_eq_take_drop_succ]

/-- The search for an event does not walk back over the wrap. -/
def CrossFree (r : EventFifo) (e : EventInfo) : Prop :=
  r.read ≤ r.write ∨ ∃ id < r.write, r.info (r.pos id) = e

instance (r : EventFifo) (e : EventInfo) : Decidable (r.CrossFree e) :=
  inferInstanceAs (Decidable (_ ∨ _))

section
variable {r : EventFifo} (h : Sound r)
include h

/-- The search, while the ids behind a place of the event are not zero. -/
theorem searchFrom_eq (e : EventInfo) {j s fuel : ℕ} (hfuel : j < fuel) (hj : j ≤ r.held)
    (hs : s ≤ j) (hfound : s = 0 ∨ s < j ∧ r.info ((r.read + s) % r.arraySize) = e)
    (hids : ∀ k, s < k → k ≤ j → (r.read + k) % r.maxValue ≠ 0) :
    r.searchFrom e fuel ((r.read + j) % r.maxValue) =
      .ok ((r.lastMatch e j).map fun i => (r.read + i) % r.maxValue) := by
  have hrange := maxValue_range h.toSized
  have hle := h.held
  have hread := h.read
  induction j generalizing fuel with
  | zero =>
    obtain ⟨fuel, rfl⟩ := Nat.exists_eq_succ_of_ne_zero (Nat.ne_of_gt hfuel)
    rw [searchFrom, if_pos (by rw [Nat.add_zero, Nat.mod_eq_of_lt hread]), lastMatch]
    rfl
  | succ j ih =>
    obtain ⟨fuel, rfl⟩ := Nat.exists_eq_succ_of_ne_zero (Nat.ne_of_gt (Nat.lt_of_le_of_lt
      (Nat.zero_le _) hfuel))
    have hne : ¬(r.read + (j + 1)) % r.maxValue = r.read := by
      intro heq
      have hplace : (r.read + (j + 1)) % r.maxValue = (r.read + 0) % r.maxValue := by
        rw [heq, Nat.add_zero, Nat.mod_eq_of_lt hread]
      exact absurd (place_inj (by omega) (by omega) hplace) (Nat.succ_ne_zero j)
    have hsj : s ≤ j := by
      rcases hfound with rfl | ⟨hlt, -⟩
      · exact Nat.zero_le j
      · omega
    have hid := hids (j + 1) (by omega) (Nat.le_refl _)
    have hdec : r.mDec ((r.read + (j + 1)) % r.maxValue) = (r.read + j) % r.maxValue := by
      have hlt := Nat.mod_lt (r.read + (j + 1)) (by omega : r.maxValue > 0)
      rw [mDec_eq h.toSized (Nat.pos_of_ne_zero hid) hlt]
      have hsucc : (r.read + (j + 1)) % r.maxValue = (r.read + j) % r.maxValue + 1 := by
        rw [← Nat.add_assoc] at hid ⊢
        exact succ_mod_of_ne_zero (by omega) hid
      rw [hsucc, Nat.add_sub_cancel]
    have hpos : r.pos ((r.read + j) % r.maxValue) = (r.read + j) % r.arraySize :=
      pos_mod h.toSized _
    rw [searchFrom, if_neg hne]
    simp only [hdec, hpos]
    rw [lastMatch]
    by_cases hmatch : r.info ((r.read + j) % r.arraySize) = e
    · rw [if_pos hmatch, if_pos hmatch]
      rfl
    · rw [if_neg hmatch, if_neg hmatch]
      refine ih (by omega) (by omega) hsj ?_ fun k hk hkj => hids k hk (by omega)
      rcases hfound with rfl | ⟨hlt, hget⟩
      · exact .inl rfl
      · refine .inr ⟨Nat.lt_of_le_of_ne hsj ?_, hget⟩
        rintro rfl
        exact hmatch hget

/-- The events behind an erased one are moved up. -/
theorem shiftFrom_eq {info : ℕ → EventInfo} {i d fuel : ℕ} (hd : r.held = i + 1 + d)
    (hfuel : d < fuel) :
    ∃ info', r.shiftFrom fuel info ((r.read + i) % r.maxValue) ((r.read + (i + 1)) % r.maxValue) =
        .ok info' ∧
      ringItems info' r.arraySize r.read (r.held - 1) =
        (ringItems info r.arraySize r.read r.held).eraseIdx i := by
  have hrange := maxValue_range h.toSized
  have hle := h.held
  obtain ⟨fuel, rfl⟩ := Nat.exists_eq_succ_of_ne_zero (Nat.ne_of_gt (Nat.lt_of_le_of_lt
    (Nat.zero_le _) hfuel))
  have hwrite := write_eq h.toSized
  induction d generalizing info i fuel with
  | zero =>
    refine ⟨info, ?_, ?_⟩
    · rw [shiftFrom, if_pos (by rw [hwrite, hd])]
    · have hlast : r.held - 1 = i := by omega
      rw [hlast, hd, ringItems_succ, List.eraseIdx_append_of_length_le (by rw [length_ringItems]),
        length_ringItems, Nat.sub_self]
      exact (List.append_nil _).symm
  | succ d ih =>
    have hne : ¬(r.read + (i + 1)) % r.maxValue = r.write := by
      rw [hwrite]
      exact fun heq => absurd (place_inj (by omega) (by omega) heq) (by omega)
    have hinc : ∀ k, r.mInc ((r.read + k) % r.maxValue) = (r.read + (k + 1)) % r.maxValue := by
      intro k
      rw [mInc_eq h.toSized (Nat.mod_lt _ (by omega)), Nat.mod_add_mod, Nat.add_assoc]
    have hpos : ∀ k, r.pos ((r.read + k) % r.maxValue) = (r.read + k) % r.arraySize :=
      fun k => pos_mod h.toSized _
    obtain ⟨fuel, rfl⟩ := Nat.exists_eq_succ_of_ne_zero (by omega : fuel ≠ 0)
    obtain ⟨info', hshift, hitems⟩ := @ih (Function.update info ((r.read + i) % r.arraySize)
      (info ((r.read + (i + 1)) % r.arraySize))) (i + 1) (by omega) fuel (by omega)
    refine ⟨info', ?_, ?_⟩
    · rw [shiftFrom, if_neg hne, hpos, hpos, hinc, hinc]
      exact hshift
    · have hlt : i + 1 < (ringItems info r.arraySize r.read r.held).length := by
        rw [length_ringItems]
        omega
      have hset := eraseIdx_set_succ hlt
      rw [getElem_ringItems] at hset
      rw [hitems, ringItems_update info hle (by omega), hset]

/-- Where a search may begin. -/
theorem exists_start {e : EventInfo} (hcross : r.CrossFree e) :
    ∃ s ≤ r.held, (s = 0 ∨ s < r.held ∧ r.info ((r.read + s) % r.arraySize) = e) ∧
      ∀ k, s < k → k ≤ r.held → (r.read + k) % r.maxValue ≠ 0 := by
  have hwrite := h.write
  have hread := h.read
  by_cases hlt : r.read ≤ r.write
  · have hheld : r.held = r.write - r.read := if_neg (Nat.not_lt.2 hlt)
    refine ⟨0, Nat.zero_le _, .inl rfl, fun k hk hkle => ?_⟩
    rw [Nat.mod_eq_of_lt (by omega)]
    omega
  · obtain ⟨id, hid, hget⟩ := hcross.resolve_left hlt
    have hheld : r.held = r.write + r.maxValue - r.read := if_pos (Nat.not_le.1 hlt)
    have hsum : r.read + (id + r.maxValue - r.read) = id + r.maxValue := by omega
    have hplace : (id + r.maxValue) % r.arraySize = id % r.arraySize := by
      rw [Nat.add_mod, Nat.mod_eq_zero_of_dvd (dvd_maxValue h.toSized), Nat.add_zero, Nat.mod_mod]
    refine ⟨id + r.maxValue - r.read, by omega, .inr ⟨by omega, ?_⟩, fun k hk hkle => ?_⟩
    · rw [hsum, hplace]
      exact hget
    · have hk₁ : r.read + k = (r.read + k - r.maxValue) + r.maxValue := by omega
      rw [hk₁, Nat.add_mod_right, Nat.mod_eq_of_lt (by omega)]
      omega

theorem refines_erase {e : EventInfo} (hcross : r.CrossFree e) : Refines r (.erase e) := by
  have hrange := maxValue_range h.toSized
  have hle := h.held
  obtain ⟨s, hs, hfound, hids⟩ := exists_start h hcross
  have hsearch := searchFrom_eq h e (by omega : r.held < 2 ^ 16 + 1) (Nat.le_refl _) hs hfound hids
  rw [← write_eq h.toSized] at hsearch
  have herase := eraseLast_content r e
  cases hmatch : r.lastMatch e r.held with
  | none =>
    rw [hmatch, Option.map_none] at hsearch herase
    have hfalse : r.mEraseFromFifo e = .ok (false, r) := by
      unfold mEraseFromFifo
      rw [hsearch]
      cases r.mEmpty <;> rfl
    refine ⟨.erase false, r, by rw [apply, hfalse]; rfl, h, ?_⟩
    rw [BoundedFifo.apply, fifo]
    simp only [herase]
  | some i =>
    rw [hmatch, Option.map_some] at hsearch herase
    obtain ⟨hi, hget, -⟩ := lastMatch_eq_some hmatch
    have hempty : r.mEmpty = false := by
      rw [mEmpty_eq h.toSized, decide_eq_false_iff_not]
      omega
    have hpos : 0 < r.write := by
      have hne : (r.read + r.held) % r.maxValue ≠ 0 := by
        refine hids r.held ?_ (Nat.le_refl _)
        rcases hfound with rfl | ⟨hlt, -⟩ <;> omega
      rw [← write_eq h.toSized] at hne
      exact Nat.pos_of_ne_zero hne
    have hinc : r.mInc ((r.read + i) % r.maxValue) = (r.read + (i + 1)) % r.maxValue := by
      rw [mInc_eq h.toSized (Nat.mod_lt _ (by omega)), Nat.mod_add_mod, Nat.add_assoc]
    obtain ⟨info, hshift, hitems⟩ := @shiftFrom_eq r h r.info i (r.held - (i + 1)) (2 ^ 16 + 1)
      (by omega) (by omega)
    have htrue : r.mEraseFromFifo e = .ok (true, { r with info, write := r.mDec r.write }) := by
      unfold mEraseFromFifo
      rw [hempty, hsearch]
      simp only [bind, Except.bind, pure, Except.pure, Bool.false_eq_true, if_false, hinc, hshift]
    have hwrite : r.mDec r.write = (r.read + (r.held - 1)) % r.maxValue := by
      have hsucc : r.write = (r.read + (r.held - 1)) % r.maxValue + 1 := by
        have hid := write_eq h.toSized
        have hheld : r.read + r.held = r.read + (r.held - 1) + 1 := by omega
        rw [hheld] at hid
        rw [hid]
        exact succ_mod_of_ne_zero (by omega) (by omega)
      rw [mDec_eq h.toSized hpos h.write]
      omega
    have hheld : held { r with info, write := r.mDec r.write } = r.held - 1 :=
      held_eq h.read (by change r.held - 1 < r.maxValue; omega) hwrite
    have hcontent : content { r with info, write := r.mDec r.write } = r.content.eraseIdx i := by
      unfold content
      rw [hheld]
      exact hitems
    refine ⟨.erase true, { r with info, write := r.mDec r.write }, by rw [apply, htrue]; rfl,
      ⟨⟨h.two_le, h.le, h.maxValue, h.read, ?_, ?_⟩, h.maxCount, ?_⟩, ?_⟩
    · change r.mDec r.write < r.maxValue
      rw [hwrite]
      exact Nat.mod_lt _ (by omega)
    · rw [hheld]
      change r.held - 1 ≤ r.arraySize
      omega
    · rw [hcontent]
      exact Nat.le_trans ((List.eraseIdx_sublist _ _).countP_le) h.count
    · rw [BoundedFifo.apply, fifo]
      simp only [herase]
      rw [fifo, hcontent]

end

end EventFifo

end UdtKernel.Socket
