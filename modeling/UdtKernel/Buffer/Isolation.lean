import UdtKernel.Buffer.Copies
import UdtKernel.Buffer.SharedSteps

set_option autoImplicit false

/-! Runs of operations on objects that are copied from each other. -/

namespace UdtKernel.Buffer
open UdtKernel.Lib

/-- The objects that an operation is on; a new one is not among them. -/
def ObjectOp.targets : ObjectOp → List ℕ
  | .create _ _ | .copy _ | .createCopy _ => []
  | .moveTo o r | .swap o r => [o, r]
  | .assign o _ | .deepCopy o _ | .release o | .destroy o | .begin' o | .write o _ _
  | .insert o _ _ | .erase o _ _ | .resize o _ _ | .pushBack o _ | .pushFront o _ | .popBack o
  | .popFront o | .reserve o _ | .clear o => [o]

namespace World

variable (w : World)

def Performs : ObjectOp × (ℕ → Byte) → Prop
  | (.create _ _, _) => True
  | (.copy r, _) | (.createCopy r, _) => ∃ _ ∈ w.find r, True
  | (.assign o r, _) | (.moveTo o r, _) | (.swap o r, _) => ∃ _ ∈ w.find o, ∃ _ ∈ w.find r, True
  | (.deepCopy o r, _) => ∃ x ∈ w.find o, ∃ y ∈ w.find r,
      y.beginOfStorage = none → x.beginOfStorage = none
  | (.write o p _, _) => ∃ x ∈ w.find o, w.Points x p ∧ w.index x p < (w.buffer x).size
  | (.insert o p _, _) => ∃ x ∈ w.find o, w.Points x p
  | (.erase o p q, _) => ∃ x ∈ w.find o, w.Points x p ∧ w.Points x q ∧ p.offset ≤ q.offset
  | (.release o, _) | (.destroy o, _) | (.begin' o, _) | (.resize o _ _, _) | (.pushBack o _, _)
  | (.pushFront o _, _) | (.popBack o, _) | (.popFront o, _) | (.reserve o _, _)
  | (.clear o, _) => ∃ _ ∈ w.find o, True

/-- A storage that others hold is neither written nor resized in place, use counts do not wrap, and
the bytes that remain or are added have room. -/
def Keeps : ObjectOp × (ℕ → Byte) → Prop
  | (.copy r, _) | (.assign _ r, _) => ∀ y ∈ w.find r, w.use_count y + 1 < 2 ^ 32
  | (.write o _ _, _) => ∀ x ∈ w.find o, ¬ 1 < w.use_count x
  | (.insert o p l, _) => ∀ x ∈ w.find o, l ≠ [] → w.Admits x (w.index x p) l.length
  | (.erase o p q, _) => ∀ x ∈ w.find o, w.Erases x p q
  | (.resize o n fromBegin, memory) => ∀ x ∈ w.find o, w.Resizes x n fromBegin memory
  | (.pushBack o _, _) => ∀ x ∈ w.find o, w.Admits x (w.buffer x).size 2
  | (.pushFront o _, memory) => ∀ x ∈ w.find o, (w.own x memory).Opens 0 2
  | (.popFront o, memory) => ∀ x ∈ w.find o,
      (w.buffer x).size ≠ 0 → (w.own x memory).RoomBehind 1
  | (.reserve o n, _) => ∀ x ∈ w.find o, (w.buffer x).capacity < n → w.Reserves x n
  | _ => True

instance : (op : ObjectOp × (ℕ → Byte)) → Decidable (w.Performs op)
  | (.create _ _, _) => isTrue trivial
  | (.copy r, _) | (.createCopy r, _) => inferInstanceAs (Decidable (∃ _ ∈ w.find r, True))
  | (.assign o r, _) | (.moveTo o r, _) | (.swap o r, _) =>
    inferInstanceAs (Decidable (∃ _ ∈ w.find o, ∃ _ ∈ w.find r, True))
  | (.deepCopy o r, _) => inferInstanceAs (Decidable (∃ x ∈ w.find o, ∃ y ∈ w.find r,
      y.beginOfStorage = none → x.beginOfStorage = none))
  | (.write o p _, _) => inferInstanceAs (Decidable (∃ x ∈ w.find o,
      w.Points x p ∧ w.index x p < (w.buffer x).size))
  | (.insert o p _, _) => inferInstanceAs (Decidable (∃ x ∈ w.find o, w.Points x p))
  | (.erase o p q, _) => inferInstanceAs (Decidable (∃ x ∈ w.find o,
      w.Points x p ∧ w.Points x q ∧ p.offset ≤ q.offset))
  | (.release o, _) | (.destroy o, _) | (.begin' o, _) | (.resize o _ _, _) | (.pushBack o _, _)
  | (.pushFront o _, _) | (.popBack o, _) | (.popFront o, _) | (.reserve o _, _)
  | (.clear o, _) => inferInstanceAs (Decidable (∃ _ ∈ w.find o, True))

instance : (op : ObjectOp × (ℕ → Byte)) → Decidable (w.Keeps op)
  | (.copy r, _) | (.assign _ r, _) =>
    inferInstanceAs (Decidable (∀ y ∈ w.find r, w.use_count y + 1 < 2 ^ 32))
  | (.write o _ _, _) => inferInstanceAs (Decidable (∀ x ∈ w.find o, ¬ 1 < w.use_count x))
  | (.insert o p l, _) => inferInstanceAs (Decidable (∀ x ∈ w.find o,
      l ≠ [] → w.Admits x (w.index x p) l.length))
  | (.erase o p q, _) => inferInstanceAs (Decidable (∀ x ∈ w.find o, w.Erases x p q))
  | (.resize o n fromBegin, memory) =>
    inferInstanceAs (Decidable (∀ x ∈ w.find o, w.Resizes x n fromBegin memory))
  | (.pushBack o _, _) => inferInstanceAs (Decidable (∀ x ∈ w.find o,
      w.Admits x (w.buffer x).size 2))
  | (.pushFront o _, memory) => inferInstanceAs (Decidable (∀ x ∈ w.find o,
      (w.own x memory).Opens 0 2))
  | (.popFront o, memory) => inferInstanceAs (Decidable (∀ x ∈ w.find o,
      (w.buffer x).size ≠ 0 → (w.own x memory).RoomBehind 1))
  | (.reserve o n, _) => inferInstanceAs (Decidable (∀ x ∈ w.find o,
      (w.buffer x).capacity < n → w.Reserves x n))
  | (.create _ _, _) | (.createCopy _, _) | (.deepCopy _ _, _) | (.moveTo _ _, _)
  | (.swap _ _, _) | (.release _, _) | (.destroy _, _) | (.begin' _, _) | (.popBack _, _)
  | (.clear _, _) => isTrue trivial

/-- The object ends as a buffer does that shares nothing: as that one, where it shares nothing, and
else with the bytes of a vector. -/
def StepsAlone (o : ℕ) (e : BufferOp × (ℕ → Byte)) (w' : World) : Prop :=
  ∃ x ∈ w.find o, ∃ b ∈ w'.view o,
    (¬ 1 < w.use_count x → ∃ c, bufferStep e (w.buffer x) = .ok c ∧ c.storage = b.storage) ∧
    (1 < w.use_count x → VectorStep (w.buffer x).bytes b.bytes e.1)

def bytesOf (o : ℕ) : Option (List Byte) := (w.view o).map CBuffer.bytes

/-- What an operation makes of its objects; an unshared buffer is pushed the two bytes of a
`smart_field_t`. -/
def Result (w' : World) : ObjectOp × (ℕ → Byte) → Prop
  | (.create _ _, _) => w'.bytesOf w.objects.length = some []
  | (.copy r, _) | (.createCopy r, _) => w'.bytesOf w.objects.length = w.bytesOf r
  | (.assign o r, _) | (.deepCopy o r, _) => w'.bytesOf o = w.bytesOf r
  | (.moveTo o r, _) => w' = w ∧ w.bytesOf o = w.bytesOf r ∨
      w'.bytesOf o = some [] ∧ w'.bytesOf r = w.bytesOf o
  | (.swap o r, _) => w'.bytesOf o = w.bytesOf r ∧ w'.bytesOf r = w.bytesOf o
  | (.release o, _) => w'.bytesOf o = some []
  | (.destroy o, _) => w'.view o = none
  | (.begin' o, _) => w'.bytesOf o = w.bytesOf o ∧ ∀ x ∈ w'.find o, ¬ 1 < w'.use_count x
  | (.write o p v, _) => ∃ x ∈ w.find o,
      w'.bytesOf o = some ((w.buffer x).bytes.set (w.index x p) v)
  | (.insert o p l, memory) => ∃ x ∈ w.find o,
      w.StepsAlone o (.insert (w.index x p) l, memory) w'
  | (.erase o p q, memory) => ∃ x ∈ w.find o,
      w.StepsAlone o (.erase (w.index x p) (w.index x q), memory) w'
  | (.resize o n fromBegin, memory) => w.StepsAlone o (.resize n fromBegin, memory) w'
  | (.pushBack o v, memory) => ∃ x ∈ w.find o,
      w.StepsAlone o (.insert (w.buffer x).size (smartField v), memory) w'
  | (.pushFront o v, memory) => w.StepsAlone o (.insert 0 (smartField v), memory) w'
  | (.popBack o, memory) => w.StepsAlone o (.popBack, memory) w'
  | (.popFront o, memory) => w.StepsAlone o (.popFront, memory) w'
  | (.reserve o n, memory) => w.StepsAlone o (.reserve n, memory) w'
  | (.clear o, memory) => w.StepsAlone o (.clear, memory) w'

/-- The objects that an operation is not on see the same size and the same bytes after it, and a
storage has as many holders as it counts, or none and is deallocated. -/
structure Isolated (op : ObjectOp × (ℕ → Byte)) (w' : World) : Prop where
  others : ∀ p, p < w.objects.length → p ∉ op.1.targets → w'.view p = w.view p
  result : w.Result w' op
  counts : CountsHolders w'.blocks w'.held

variable {w} {w' : World} {o : ℕ} {x : Object} {e op : BufferOp × (ℕ → Byte)} {s : Option Storage}

theorem bytesOf_eq (hfind : w.find o = some x) : w.bytesOf o = some (w.buffer x).bytes :=
  congrArg (Option.map CBuffer.bytes) (view_eq hfind)

theorem Becomes.bytesOf (h : w.Becomes o s w') (hfind : w.find o = some x) :
    w'.bytesOf o = some ({ w.buffer x with storage := s } : CBuffer).bytes := by
  unfold World.bytesOf
  rw [h.self, view_eq hfind]
  rfl

theorem Mutates.stepsAlone (h : w.Mutates o x e s w') (hfind : w.find o = some x) :
    w.StepsAlone o e w' := by
  refine ⟨x, hfind, { w.buffer x with storage := s }, ?_, h.alone, h.shared⟩
  rw [h.becomes.self, view_eq hfind]
  rfl

theorem isolated_of_becomes {op : ObjectOp × (ℕ → Byte)} (h : w.Becomes o s w')
    (htargets : op.1.targets = [o]) (hresult : w.Result w' op) : w'.Inv ∧ w.Isolated op w' := by
  refine ⟨h.inv, fun p _ hp => h.others p fun hpo => hp ?_, hresult, h.inv.counts⟩
  rw [htargets, hpo]
  exact List.mem_singleton_self o

/-- One operation on objects that share storages. -/
theorem objectStep_isolated (h : w.Inv) {op : ObjectOp × (ℕ → Byte)} (hperforms : w.Performs op)
    (hkeeps : w.Keeps op) :
    ∃ w', objectStep op w = .ok w' ∧ w'.Inv ∧ w.Isolated op w' := by
  obtain ⟨op, memory⟩ := op
  cases op with
  | create beginSize maxSize =>
    have hadds := h.create beginSize maxSize
    exact ⟨_, rfl, hadds.inv, fun p hp _ => hadds.others p hp, hadds.bytes, hadds.inv.counts⟩
  | copy r =>
    obtain ⟨y, hy, -⟩ := hperforms
    obtain ⟨w', hstep, hadds⟩ := h.copy hy (hkeeps y hy)
    exact ⟨w', hstep, hadds.inv, fun p hp _ => hadds.others p hp,
      hadds.bytes.trans (bytesOf_eq hy).symm, hadds.inv.counts⟩
  | createCopy r =>
    obtain ⟨y, hy, -⟩ := hperforms
    obtain ⟨w', hstep, hadds⟩ := h.mCreateCopy hy memory
    exact ⟨w', hstep, hadds.inv, fun p hp _ => hadds.others p hp,
      hadds.bytes.trans (bytesOf_eq hy).symm, hadds.inv.counts⟩
  | assign o r =>
    obtain ⟨x, hx, y, hy, -⟩ := hperforms
    obtain ⟨w', hstep, hinv, hbytes, hothers⟩ := h.assign hx hy (hkeeps y hy)
    exact ⟨w', hstep, hinv, fun p _ hp => hothers p (List.ne_of_not_mem_cons hp),
      hbytes.trans (bytesOf_eq hy).symm, hinv.counts⟩
  | deepCopy o r =>
    obtain ⟨x, hx, y, hy, hsome⟩ := hperforms
    obtain ⟨w', s, hstep, hbecomes, hbytes⟩ := h.deep_copy hx hy hsome memory
    exact ⟨w', hstep, isolated_of_becomes hbecomes rfl
      ((hbecomes.bytesOf hx).trans ((congrArg some hbytes).trans (bytesOf_eq hy).symm))⟩
  | moveTo o r =>
    obtain ⟨x, hx, y, hy, -⟩ := hperforms
    by_cases hsame : y.beginOfStorage = x.beginOfStorage
    · refine ⟨w, ?_, h, fun _ _ _ => rfl, Or.inl ⟨rfl, ?_⟩, h.counts⟩
      · change w.mMoveTo o r = _
        unfold mMoveTo
        rw [object_eq hx, object_eq hy]
        exact if_pos hsame
      · rw [bytesOf_eq hx, bytesOf_eq hy, bytes_congr (storage_congr hsame)]
    · obtain ⟨w', hstep, hinv, hempty, hbytes, hothers⟩ := h.mMoveTo hx hy hsame
      exact ⟨w', hstep, hinv, fun p _ hp => hothers p (List.ne_of_not_mem_cons hp)
        (List.ne_of_not_mem_cons (List.not_mem_of_not_mem_cons hp)),
        Or.inr ⟨hempty, hbytes.trans (bytesOf_eq hx).symm⟩, hinv.counts⟩
  | swap o r =>
    obtain ⟨x, hx, y, hy, -⟩ := hperforms
    obtain ⟨w', hstep, hinv, hbytes, hbytes', hothers⟩ := h.swap hx hy
    exact ⟨w', hstep, hinv, fun p _ hp => hothers p (List.ne_of_not_mem_cons hp)
      (List.ne_of_not_mem_cons (List.not_mem_of_not_mem_cons hp)),
      ⟨hbytes.trans (bytesOf_eq hy).symm, hbytes'.trans (bytesOf_eq hx).symm⟩, hinv.counts⟩
  | release o =>
    obtain ⟨x, hx, -⟩ := hperforms
    obtain ⟨w', hstep, hreleased⟩ := h.release hx
    exact ⟨w', hstep, isolated_of_becomes hreleased.becomes rfl (hreleased.becomes.bytesOf hx)⟩
  | destroy o =>
    obtain ⟨x, hx, -⟩ := hperforms
    obtain ⟨w', hstep, hinv, hnone, hothers⟩ := h.destroy hx
    exact ⟨w', hstep, hinv, fun p _ hp => hothers p (List.ne_of_not_mem_cons hp), hnone,
      hinv.counts⟩
  | begin' o =>
    obtain ⟨x, hx, -⟩ := hperforms
    obtain ⟨w', x', hstep, hbecomes, halone, -⟩ := h.begin hx memory
    refine ⟨w', congrArg (Except.map Prod.snd) hstep, isolated_of_becomes hbecomes rfl ⟨?_, ?_⟩⟩
    · rw [hbecomes.bytesOf hx, bytesOf_eq hx, ← bytes_own memory]
      rfl
    · intro y hy
      cases halone.find.symm.trans hy
      exact halone.sole
  | write o p v =>
    obtain ⟨x, hx, hp, hlt⟩ := hperforms
    obtain ⟨w', s, hstep, hbecomes, hbytes⟩ := Alone.write ⟨hx, hkeeps x hx⟩ h hp hlt v
    exact ⟨w', hstep, isolated_of_becomes hbecomes rfl
      ⟨x, hx, (hbecomes.bytesOf hx).trans (congrArg some hbytes)⟩⟩
  | insert o p l =>
    obtain ⟨x, hx, hp⟩ := hperforms
    obtain ⟨w', s, hstep, hbecomes, hbytes, halone⟩ := h.insert hx hp (hkeeps x hx) memory
    have hmutates : w.Mutates o x (.insert (w.index x p) l, memory) s w' :=
      ⟨hbecomes, fun hsole => ⟨_, halone hsole, rfl⟩, fun _ => hbytes⟩
    exact ⟨w', hstep, isolated_of_becomes hbecomes rfl ⟨x, hx, hmutates.stepsAlone hx⟩⟩
  | erase o p q =>
    obtain ⟨x, hx, hp, hq, hle⟩ := hperforms
    obtain ⟨w', s, hstep, hmutates⟩ := h.erase hx hp hq hle (hkeeps x hx) memory
    exact ⟨w', hstep, isolated_of_becomes hmutates.becomes rfl ⟨x, hx, hmutates.stepsAlone hx⟩⟩
  | resize o n fromBegin =>
    obtain ⟨x, hx, -⟩ := hperforms
    obtain ⟨w', s, hstep, hmutates⟩ := h.resize hx (hkeeps x hx)
    exact ⟨w', hstep, isolated_of_becomes hmutates.becomes rfl (hmutates.stepsAlone hx)⟩
  | pushBack o v =>
    obtain ⟨x, hx, -⟩ := hperforms
    obtain ⟨w', s, hstep, hmutates⟩ := h.push_back hx (hkeeps x hx) memory
    exact ⟨w', hstep, isolated_of_becomes hmutates.becomes rfl ⟨x, hx, hmutates.stepsAlone hx⟩⟩
  | pushFront o v =>
    obtain ⟨x, hx, -⟩ := hperforms
    obtain ⟨w', s, hstep, hmutates⟩ := h.push_front hx (hkeeps x hx)
    exact ⟨w', hstep, isolated_of_becomes hmutates.becomes rfl (hmutates.stepsAlone hx)⟩
  | popBack o =>
    obtain ⟨x, hx, -⟩ := hperforms
    obtain ⟨w', s, hstep, hmutates⟩ := h.pop_back hx memory
    exact ⟨w', hstep, isolated_of_becomes hmutates.becomes rfl (hmutates.stepsAlone hx)⟩
  | popFront o =>
    obtain ⟨x, hx, -⟩ := hperforms
    obtain ⟨w', s, hstep, hmutates⟩ := h.pop_front hx (hkeeps x hx)
    exact ⟨w', hstep, isolated_of_becomes hmutates.becomes rfl (hmutates.stepsAlone hx)⟩
  | reserve o n =>
    obtain ⟨x, hx, -⟩ := hperforms
    obtain ⟨w', s, hstep, hmutates⟩ := h.reserve hx (hkeeps x hx) memory
    exact ⟨w', hstep, isolated_of_becomes hmutates.becomes rfl (hmutates.stepsAlone hx)⟩
  | clear o =>
    obtain ⟨x, hx, -⟩ := hperforms
    obtain ⟨w', s, hstep, hmutates⟩ := h.clear hx memory
    exact ⟨w', hstep, isolated_of_becomes hmutates.becomes rfl (hmutates.stepsAlone hx)⟩

theorem inv_empty : Inv ⟨[], []⟩ := by
  refine ⟨fun i => rfl, fun i c hc => ?_⟩
  cases hc

/-- An operation on one object leaves the others as they are, in every run in which none is made in
place on a storage that others hold. -/
theorem runAll_isolated {ops : List (ObjectOp × (ℕ → Byte))}
    (hops : EveryStep objectStep (fun w op => w.Performs op ∧ w.Keeps op) ops ⟨[], []⟩) :
    Traced objectStep Isolated ops ⟨[], []⟩ :=
  traced_of_step (I := Inv) (fun _ _ h hop => objectStep_isolated h hop.1 hop.2) inv_empty hops

/-- Copies of copies, changed at both ends and between, until nothing holds the first storages. -/
def someObjectOps : List (ObjectOp × (ℕ → Byte)) :=
  [.create 256 10000, .pushBack 0 1, .copy 0, .pushFront 1 2, .pushBack 1 3, .createCopy 1,
    .copy 2, .insert 3 ⟨some 2, 2⟩ [4, 5], .begin' 0, .write 0 ⟨some 0, 256⟩ 6, .assign 0 3,
    .copy 2, .resize 4 600 true, .popFront 4, .clear 0,
    .erase 3 ⟨some 3, 257⟩ ⟨some 3, 259⟩, .swap 0 2,
    .moveTo 3 1, .deepCopy 3 1, .reserve 4 2000, .resize 4 0 false, .popBack 1, .release 1,
    .destroy 3, .destroy 0].map fun op => (op, CBuffer.someMemory)

theorem runAll_isolated_someObjectOps :
    EveryStep objectStep (fun w op => w.Performs op ∧ w.Keeps op) someObjectOps ⟨[], []⟩ ∧
      Traced objectStep Isolated someObjectOps ⟨[], []⟩ := by
  have hops : EveryStep objectStep (fun w op => w.Performs op ∧ w.Keeps op) someObjectOps
      ⟨[], []⟩ := by decide +kernel
  exact ⟨hops, runAll_isolated hops⟩

/-- A byte inserted at the end of a copy, or written before it, is one of the other object. -/
theorem isolated_false_of_end :
    ∃ w, runAll objectStep [(.create 256 10000, CBuffer.someMemory),
        (.insert 0 ⟨none, 0⟩ [1], CBuffer.someMemory), (.copy 0, CBuffer.someMemory)] ⟨[], []⟩ =
        .ok w ∧ w.bytesOf 0 = some [1] ∧ w.end' 1 = .ok ⟨some 0, 257⟩ ∧
      (∃ w', w.Performs (.insert 1 ⟨some 0, 257⟩ [2], CBuffer.someMemory) ∧
        objectStep (.insert 1 ⟨some 0, 257⟩ [2], CBuffer.someMemory) w = .ok w' ∧
        w'.bytesOf 0 = some [1, 2] ∧ w'.bytesOf 1 = some [1] ∧
        ¬ w.Isolated (.insert 1 ⟨some 0, 257⟩ [2], CBuffer.someMemory) w') ∧
      (∃ w', objectStep (.pushBack 1 2, CBuffer.someMemory) w = .ok w' ∧
        w'.bytesOf 0 = some [1, 2, 1] ∧ w'.bytesOf 1 = some [1]) ∧
      (∃ w', w.Performs (.write 1 ⟨some 0, 256⟩ 2, CBuffer.someMemory) ∧
        objectStep (.write 1 ⟨some 0, 256⟩ 2, CBuffer.someMemory) w = .ok w' ∧
        w'.bytesOf 0 = some [2]) := by
  refine ⟨_, rfl, by decide +kernel, by decide +kernel, ⟨_, by decide +kernel, rfl,
    by decide +kernel, by decide +kernel, fun h => ?_⟩, ⟨_, rfl, by decide +kernel,
    by decide +kernel⟩, ⟨_, by decide +kernel, rfl, by decide +kernel⟩⟩
  have hsame := congrArg (Option.map CBuffer.bytes) (h.others 0 (by decide +kernel) (by decide))
  revert hsame
  decide +kernel

end World

end UdtKernel.Buffer
