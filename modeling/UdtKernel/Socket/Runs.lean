import UdtKernel.Socket.Refine

set_option autoImplicit false

/-! Runs of a ring from its beginning. -/

namespace UdtKernel.Socket
open UdtKernel.Lib

namespace EventFifo

/-- An erasure does not walk back over the wrap. -/
def StaysBefore (s : EventFifo × List Reply) : Op → Prop
  | .erase e => s.1.CrossFree e
  | _ => True

instance (s : EventFifo × List Reply) : (op : Op) → Decidable (StaysBefore s op)
  | .put _ => isTrue trivial
  | .pop => isTrue trivial
  | .erase e => inferInstanceAs (Decidable (s.1.CrossFree e))

theorem sound_new {n : ℕ} (htwo : 2 ≤ n) (hle : 2 * n ≤ 2 ^ 16 - 1) : Sound (new n) := by
  refine ⟨sized_new htwo hle, ?_, Nat.zero_le _⟩
  unfold new
  dsimp only
  split_ifs
  · exact Nat.sub_le _ _
  · exact Nat.le_refl _

theorem refines {s : EventFifo × List Reply} {op : Op} (h : Sound s.1) (hop : StaysBefore s op) :
    Refines s.1 op := by
  cases op with
  | put e => exact refines_put h e
  | pop => exact refines_pop h
  | erase e => exact refines_erase h hop

theorem turn_eq {s : EventFifo × List Reply} {op : Op} (h : Sound s.1) (hop : StaysBefore s op) :
    ∃ r log, turn op s = .ok (r, log) ∧ Sound r ∧
      BoundedFifo.turn (s.1.fifo, s.2) op = (r.fifo, log) := by
  obtain ⟨reply, r, hr, hsound, hfifo⟩ := refines h hop
  refine ⟨r, s.2 ++ [reply], ?_, hsound, ?_⟩
  · rw [turn, hr]
    rfl
  · rw [BoundedFifo.turn, hfifo]

/-- A ring is used as a FIFO, from any state on. -/
theorem runAll_eq {ops : List Op} {s : EventFifo × List Reply} (h : Sound s.1)
    (hops : EveryStep turn StaysBefore ops s) :
    ∃ r log, runAll turn ops s = .ok (r, log) ∧
      ops.foldl BoundedFifo.turn (s.1.fifo, s.2) = (r.fifo, log) := by
  induction ops generalizing s with
  | nil => exact ⟨s.1, s.2, rfl, rfl⟩
  | cons op ops ih =>
    obtain ⟨hop, hrest⟩ := hops
    obtain ⟨r, log, hturn, hsound, hfifo⟩ := turn_eq h hop
    obtain ⟨r', log', hrun, hfold⟩ := @ih (r, log) hsound (hrest _ (by rw [hturn]; rfl))
    refine ⟨r', log', ?_, ?_⟩
    · rw [runAll_cons_of_ok hturn]
      exact hrun
    · rw [List.foldl_cons, hfifo]
      exact hfold

/-- A ring answers as a bounded FIFO, and holds what it holds. -/
theorem runAll_refines {n : ℕ} (htwo : 2 ≤ n) (hle : 2 * n ≤ 2 ^ 16 - 1) {ops : List Op}
    (hops : EveryStep turn StaysBefore ops (new n, [])) :
    ∃ r log, runAll turn ops (new n, []) = .ok (r, log) ∧
      BoundedFifo.run ops (.new n (new n).maxCountRecvEvent) = (r.fifo, log) :=
  runAll_eq (sound_new htwo hle) hops

def someEvent (eventType counter : ℕ) : EventInfo := ⟨eventType, counter, 7, 1, 2, [1, 2, 3]⟩

theorem runAll_refines_three :
    EveryStep turn StaysBefore [.put (someEvent 1 1), .put (someEvent 1 2), .erase (someEvent 1 1),
      .pop] (new 3, []) ∧
    ∃ r log, runAll turn [.put (someEvent 1 1), .put (someEvent 1 2), .erase (someEvent 1 1),
      .pop] (new 3, []) = .ok (r, log) ∧
      BoundedFifo.run [.put (someEvent 1 1), .put (someEvent 1 2), .erase (someEvent 1 1), .pop]
        (.new 3 (new 3).maxCountRecvEvent) = (r.fifo, log) := by
  have hops : EveryStep turn StaysBefore [.put (someEvent 1 1), .put (someEvent 1 2),
      .erase (someEvent 1 1), .pop] (new 3, []) := by decide +kernel
  exact ⟨hops, runAll_refines (by decide) (by decide) hops⟩

/-- A ring of three that was used so often, is empty, and never held an event. -/
structure Idle (a : EventInfo) (k : ℕ) (r : EventFifo) : Prop extends Sound r where
  arraySize : r.arraySize = 3
  held_eq : r.held = 0
  read_eq : r.read = k % 65535
  info : ∀ j, r.info j ≠ a

theorem Idle.maxValue_eq {a : EventInfo} {k : ℕ} {r : EventFifo} (h : Idle a k r) :
    r.maxValue = 65535 := by
  rw [h.maxValue, h.arraySize]
  rfl

theorem turn_of_apply {r r' : EventFifo} {op : Op} {reply : Reply}
    (h : r.apply op = .ok (reply, r')) (log : List Reply) :
    turn op (r, log) = .ok (r', log ++ [reply]) := by
  rw [turn, h]
  rfl

theorem apply_put_of_mPut {r r' : EventFifo} {e : EventInfo} {isPut : Bool}
    (h : r.mPut e = .ok (isPut, r')) : r.apply (.put e) = .ok (.put isPut, r') := by
  rw [apply, h]
  rfl

theorem runAll_pair {s s₁ s₂ : EventFifo × List Reply} {op₁ op₂ : Op} (h₁ : turn op₁ s = .ok s₁)
    (h₂ : turn op₂ s₁ = .ok s₂) : runAll turn [op₁, op₂] s = .ok s₂ := by
  rw [runAll_cons_of_ok h₁, runAll_cons_of_ok h₂]
  rfl

theorem idle_turns {a e : EventInfo} (he : e.eventType ≠ eData) (hne : e ≠ a) {k : ℕ}
    {r : EventFifo} (h : Idle a k r) (log : List Reply) :
    ∃ r' log', runAll turn [.put e, .pop] (r, log) = .ok (r', log') ∧ Idle a (k + 1) r' := by
  have hfull : r.held ≠ r.arraySize := by
    rw [h.held_eq, h.arraySize]
    decide
  have hput := mPut_eq h.toSound hfull fun hd => he hd.1
  obtain ⟨-, hheld, -⟩ := sized_put h.toSound hfull
    (if e.eventType = eData then r.countRecvEvent + 1 else r.countRecvEvent) e
  obtain ⟨reply, r₁, happly₁, hsound₁, -⟩ := refines_put h.toSound e
  have hr₁ := happly₁
  rw [apply, hput] at hr₁
  cases hr₁
  rw [h.held_eq] at hheld
  have hpop := mPop_eq hsound₁ hheld
  obtain ⟨-, hcontent⟩ := sized_pop hsound₁ hheld _
  obtain ⟨reply, r₂, happly₂, hsound₂, -⟩ := refines_pop hsound₁
  have hr₂ := happly₂
  rw [apply, hpop] at hr₂
  cases hr₂
  have hlength := congrArg List.length hcontent
  rw [List.length_cons, length_content, length_content, hheld] at hlength
  have hrun := runAll_pair (turn_of_apply happly₁ log) (turn_of_apply happly₂ _)
  refine ⟨_, _, hrun, hsound₂, h.arraySize, ?_, ?_, ?_⟩
  · exact (Nat.succ.inj hlength).symm
  · change mInc _ r.read = _
    rw [mInc_eq hsound₁.toSized h.read]
    change (r.read + 1) % r.maxValue = _
    rw [h.maxValue_eq, h.read_eq, Nat.mod_add_mod]
  · intro j
    change Function.update r.info _ e j ≠ a
    by_cases hj : j = r.pos r.write
    · rw [hj, Function.update_self]
      exact hne
    · rw [Function.update_of_ne hj]
      exact h.info j

theorem idle_run {a e : EventInfo} (he : e.eventType ≠ eData) (hne : e ≠ a) (hno : eNo ≠ a)
    (k : ℕ) :
    ∃ r log, runAll turn (List.replicate k [Op.put e, Op.pop]).flatten (new 3, []) = .ok (r, log) ∧
      Idle a k r := by
  induction k with
  | zero => exact ⟨new 3, [], rfl, sound_new (by decide) (by decide), rfl, rfl, rfl, fun _ => hno⟩
  | succ k ih =>
    obtain ⟨r, log, hrun, hidle⟩ := ih
    obtain ⟨r', log', hturns, hidle'⟩ := idle_turns he hne hidle log
    refine ⟨r', log', ?_, hidle'⟩
    rw [List.replicate_succ', List.flatten_append, runAll_append_of_ok hrun]
    exact hturns

/-- The search that comes to the id 0 stays there. -/
theorem searchFrom_zero {r : EventFifo} {a : EventInfo} (hmax : r.maxValue = 65535)
    (hread : r.read ≠ 0) (hinfo : r.info (r.pos 0) ≠ a) (fuel : ℕ) :
    r.searchFrom a fuel 0 = .error .hang := by
  have hdec : r.mDec 0 = 0 := by
    unfold mDec
    rw [hmax]
    rfl
  induction fuel with
  | zero => rfl
  | succ fuel ih => rw [searchFrom, if_neg (Ne.symm hread), hdec, if_neg hinfo, ih]

theorem turn_erase_zero {r : EventFifo} {a : EventInfo} (hmax : r.maxValue = 65535)
    (hread : r.read ≠ 0) (hwrite : r.write = 0) (hinfo : r.info (r.pos 0) ≠ a) (log : List Reply) :
    turn (.erase a) (r, log) = .error .hang := by
  have hempty : r.mEmpty = false := by
    refine decide_eq_false ?_
    rw [hwrite]
    exact hread
  rw [turn, apply, mEraseFromFifo, hempty, hwrite, searchFrom_zero hmax hread hinfo]
  rfl

/-- 65534 events are put and popped, one more is put, and it is to be erased. -/
theorem refines_false_of_wrap :
    runAll turn ((List.replicate 65534 [Op.put (someEvent 7 1), Op.pop]).flatten ++
      [.put (someEvent 7 2), .erase (someEvent 7 2)]) (new 3, []) = .error .hang := by
  obtain ⟨r, log, hrun, h⟩ := @idle_run (someEvent 7 2) (someEvent 7 1) (by decide) (by decide)
    (by decide) 65534
  have hread : r.read = 65534 := h.read_eq
  have hwrite : r.write = 65534 := by
    rw [write_eq h.toSized, h.held_eq, h.maxValue_eq, hread]
  have hinc : r.mInc r.write = 0 := by
    rw [mInc_eq h.toSized h.write, h.maxValue_eq, hwrite]
  have hfull : r.held ≠ r.arraySize := by
    rw [h.held_eq, h.arraySize]
    decide
  have hput := mPut_eq h.toSound hfull fun hd =>
    absurd hd.1 (by decide : (someEvent 7 2).eventType ≠ eData)
  have happly := apply_put_of_mPut hput
  have hinfo :
      Function.update r.info (r.pos r.write) (someEvent 7 2) (r.pos 0) ≠ someEvent 7 2 := by
    have hpos : r.pos 0 ≠ r.pos r.write := by
      unfold pos
      rw [hwrite, h.arraySize]
      decide
    rw [Function.update_of_ne hpos]
    exact h.info _
  have hturn := turn_of_apply happly log
  have herase := @turn_erase_zero { r with
      countRecvEvent := if (someEvent 7 2).eventType = eData then r.countRecvEvent + 1
        else r.countRecvEvent
      write := r.mInc r.write
      info := Function.update r.info (r.pos r.write) (someEvent 7 2) } (someEvent 7 2)
    h.maxValue_eq (by rw [hread]; decide) hinc hinfo (log ++ [.put true])
  rw [runAll_append_of_ok hrun, runAll_cons_of_ok hturn, runAll_cons, herase]
  rfl

/-- No data event is erased that is in the ring. -/
def KeepsData (s : EventFifo × List Reply) : Op → Prop
  | .erase e => isData e = true → e ∉ s.1.content
  | _ => True

instance (s : EventFifo × List Reply) : (op : Op) → Decidable (KeepsData s op)
  | .put _ => isTrue trivial
  | .pop => isTrue trivial
  | .erase e => inferInstanceAs (Decidable (isData e = true → e ∉ s.1.content))

theorem isData_iff {e : EventInfo} : isData e = true ↔ e.eventType = eData := decide_eq_true_iff

theorem count_apply {q q' : BoundedFifo} {op : Op} {reply : Reply}
    (hcount : q.data = q.events.countP isData)
    (hop : ∀ e, op = .erase e → isData e = true → e ∉ q.events)
    (h : q.apply op = (reply, q')) : q'.data = q'.events.countP isData := by
  cases op with
  | put e =>
    rw [BoundedFifo.apply] at h
    split_ifs at h with hrefuse hd
    · cases h
      exact hcount
    · cases h
      rw [List.countP_append, List.countP_singleton, hcount, if_pos (isData_iff.2 hd)]
    · cases h
      rw [List.countP_append, List.countP_singleton, hcount, if_neg (mt isData_iff.1 hd),
        Nat.add_zero]
  | pop =>
    rw [BoundedFifo.apply] at h
    split at h
    · cases h
      exact hcount
    · rename_i e events hevents
      cases h
      rw [hevents, List.countP_cons] at hcount
      dsimp only
      split_ifs with hd
      · rw [if_pos (isData_iff.2 hd)] at hcount
        rw [hcount, Nat.add_sub_cancel]
      · rw [if_neg (mt isData_iff.1 hd)] at hcount
        exact hcount
  | erase e =>
    rw [BoundedFifo.apply] at h
    split at h
    · cases h
      exact hcount
    · rename_i events herase
      cases h
      obtain ⟨l₁, l₂, hsplit, -, rfl⟩ := exists_of_eraseLast herase
      have hmem : e ∈ q.events := by
        rw [hsplit]
        exact List.mem_append_right _ List.mem_cons_self
      have hother : isData e ≠ true := fun hd => hop e rfl hd hmem
      dsimp only
      rw [hcount, hsplit, List.countP_append, List.countP_append, List.countP_cons_of_neg hother]

/-- The counter is the number of the data events that wait, as long as none of them is erased. -/
theorem runAll_count {n : ℕ} (htwo : 2 ≤ n) (hle : 2 * n ≤ 2 ^ 16 - 1) {ops : List Op}
    (hops : EveryStep turn (fun s op => StaysBefore s op ∧ KeepsData s op) ops (new n, [])) :
    ∃ r log, runAll turn ops (new n, []) = .ok (r, log) ∧
      r.countRecvEvent = r.content.countP isData := by
  have hrun : Outcome (fun _ => False)
      (fun s : EventFifo × List Reply =>
        Sound s.1 ∧ s.1.countRecvEvent = s.1.content.countP isData)
      (runAll turn ops (new n, [])) := by
    refine runAll_outcome ?_ ⟨sound_new htwo hle, rfl⟩ hops
    rintro ⟨r, log⟩ op ⟨hsound, hcount⟩ ⟨hstays, hkeeps⟩
    obtain ⟨reply, r', happly, hsound', hfifo⟩ := refines hsound hstays
    rw [turn_of_apply happly log]
    refine Outcome.ok ⟨hsound', ?_⟩
    refine count_apply (q := r.fifo) hcount ?_ hfifo
    rintro e rfl
    exact hkeeps
  cases hresult : runAll turn ops (new n, []) with
  | error e =>
    rw [hresult] at hrun
    exact hrun.elim
  | ok s =>
    rw [hresult] at hrun
    exact ⟨s.1, s.2, rfl, hrun.2⟩

theorem runAll_count_three :
    EveryStep turn (fun s op => StaysBefore s op ∧ KeepsData s op) [.put (someEvent 1 1),
      .put (someEvent 3 2), .erase (someEvent 3 2), .pop, .erase (someEvent 1 1)] (new 3, []) ∧
    ∃ r log, runAll turn [.put (someEvent 1 1), .put (someEvent 3 2), .erase (someEvent 3 2), .pop,
      .erase (someEvent 1 1)] (new 3, []) = .ok (r, log) ∧
      r.countRecvEvent = r.content.countP isData := by
  have hops : EveryStep turn (fun s op => StaysBefore s op ∧ KeepsData s op) [.put (someEvent 1 1),
      .put (someEvent 3 2), .erase (someEvent 3 2), .pop, .erase (someEvent 1 1)] (new 3, []) := by
    decide +kernel
  exact ⟨hops, runAll_count (by decide) (by decide) hops⟩

/-- A data event is put and erased. -/
theorem count_false_of_erase :
    (runAll turn [.put (someEvent 1 1), .erase (someEvent 1 1)] (new 3, [])).map
      (fun s => (s.1.countRecvEvent, s.1.content)) = .ok (1, []) := by
  decide +kernel

end EventFifo

end UdtKernel.Socket
