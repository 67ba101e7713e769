import Mathlib.Data.List.TakeWhile
import Mathlib.Tactic.SplitIfs
import UdtKernel.Lib.Run

set_option autoImplicit false

/-! The queue of a thread pool, and the order in which it hands its operations out. -/

namespace UdtKernel.ThreadPool
open UdtKernel.Lib

inductive OperationType
  | immediate
  | asLower
  | io
deriving DecidableEq

/-- What copies of an operation have in common; `κ` is the callback with its data. -/
structure Task (κ : Type) where
  callback : κ
  type : OperationType
  poolThreadId : ℕ
deriving DecidableEq

structure Operation (κ : Type) where
  task : Task κ
  uniqueId : ℕ
deriving DecidableEq

/-- `COperationQueue`. The iterator is the position of its node, which moves with what is inserted
and erased before it; `lastId` is the counter of `sMGetNextId`. -/
structure OperationQueue (κ : Type) where
  operations : List (Operation κ)
  currentOperationIterator : ℕ
  numberOfInvoked : ℕ
  lastId : ℕ
deriving DecidableEq

/-- Operations wait in the order in which they were added, those to run immediately before others;
`added`, `handed` and `erased` are what has come and gone. -/
structure Plain (κ : Type) where
  immediate : List (Operation κ)
  lower : List (Operation κ)
  added : List (Operation κ)
  handed : List (Operation κ)
  erased : List (Operation κ)
  finished : ℕ

inductive QueueCall (κ : Type)
  | construct
  | add (operation : Operation κ)
  | eraseOp (operation : Operation κ)
  | eraseAll
  | next
  | finish

namespace OperationQueue

variable {κ : Type} (s : OperationQueue κ)

def new : OperationQueue κ := ⟨[], 0, 0, 0⟩

/-- `sMGetNextId`, which every constructor calls. -/
def nextId : ℕ := (s.lastId + 1) % 2 ^ 32

def mFinishOperation : OperationQueue κ :=
  { s with numberOfInvoked := (s.numberOfInvoked + 2 ^ 32 - 1) % 2 ^ 32 }

/-- `MNextOperation(false)`; an empty operation is none. -/
def mNextOperation : Option (Operation κ) × OperationQueue κ :=
  let i :=
    if s.currentOperationIterator = s.operations.length then 0 else s.currentOperationIterator
  if s.operations.isEmpty then (none, { s with lastId := s.nextId })
  else match s.operations[i]? with
    | none => (none, s)
    | some op => (some { op with uniqueId := s.nextId }, { s with
        operations := s.operations.eraseIdx i
        currentOperationIterator := i
        numberOfInvoked := (s.numberOfInvoked + 1) % 2 ^ 32
        lastId := s.nextId })

def mAdd (operation : Operation κ) : OperationQueue κ :=
  let copy := { operation with uniqueId := s.nextId }
  if operation.task.type = .immediate then { s with
    operations := s.operations.takeWhile (·.task.type = .immediate) ++
      copy :: s.operations.dropWhile (·.task.type = .immediate)
    currentOperationIterator := 0
    lastId := s.nextId }
  else { s with
    operations := s.operations ++ [copy]
    currentOperationIterator :=
      if s.currentOperationIterator = s.operations.length then s.operations.length + 1
      else s.currentOperationIterator
    lastId := s.nextId }

def mEraseOp (operation : Operation κ) : Bool × OperationQueue κ :=
  match s.operations.findIdx? (·.uniqueId = operation.uniqueId) with
  | none => (false, s)
  | some i => (true, { s with
      operations := s.operations.eraseIdx i
      currentOperationIterator :=
        if i < s.currentOperationIterator then s.currentOperationIterator - 1
        else s.currentOperationIterator })

def mEraseAll : OperationQueue κ := { s with operations := [], currentOperationIterator := 0 }

end OperationQueue

namespace Plain

variable {κ : Type} (p : Plain κ)

def new : Plain κ := ⟨[], [], [], [], [], 0⟩

def waiting : List (Operation κ) := p.immediate ++ p.lower

def add (operation : Operation κ) : Plain κ :=
  if operation.task.type = .immediate then
    { p with immediate := p.immediate ++ [operation], added := p.added ++ [operation] }
  else { p with lower := p.lower ++ [operation], added := p.added ++ [operation] }

def next : Plain κ :=
  match p.immediate, p.lower with
  | op :: immediate, _ => { p with immediate := immediate, handed := p.handed ++ [op] }
  | [], op :: lower => { p with lower := lower, handed := p.handed ++ [op] }
  | [], [] => p

def eraseOp (operation : Operation κ) : Bool × Plain κ :=
  match p.waiting.find? (·.uniqueId = operation.uniqueId) with
  | none => (false, p)
  | some op => (true, { p with
      immediate := p.immediate.eraseP (·.uniqueId = operation.uniqueId)
      lower :=
        if p.immediate.any (·.uniqueId = operation.uniqueId) then p.lower
        else p.lower.eraseP (·.uniqueId = operation.uniqueId)
      erased := p.erased ++ [op] })

def eraseAll : Plain κ :=
  { p with immediate := [], lower := [], erased := p.erased ++ p.waiting }

/-- What was added has been handed out once, or erased, or still waits. -/
def Accounted : Prop := (p.handed ++ p.erased ++ p.waiting).Perm p.added

end Plain

/-- The queue with what `MNextOperation` has returned, beside the plain one. -/
structure Both (κ : Type) where
  queue : OperationQueue κ
  got : List (Operation κ)
  plain : Plain κ

namespace Both

variable {κ : Type}

def new : Both κ := ⟨.new, [], .new⟩

def call : QueueCall κ → Both κ → Except Empty (Both κ)
  | .construct, s => .ok { s with queue := { s.queue with lastId := s.queue.nextId } }
  | .add op, s => .ok { s with queue := s.queue.mAdd op, plain := s.plain.add op }
  | .eraseOp op, s =>
    .ok { s with queue := (s.queue.mEraseOp op).2, plain := (s.plain.eraseOp op).2 }
  | .eraseAll, s => .ok { s with queue := s.queue.mEraseAll, plain := s.plain.eraseAll }
  | .next, s => .ok
      { queue := s.queue.mNextOperation.2
        got := s.got ++ s.queue.mNextOperation.1.toList
        plain := s.plain.next }
  | .finish, s => .ok
      { s with
        queue := s.queue.mFinishOperation
        plain := { s.plain with finished := s.plain.finished + 1 } }

/-- The queue is as the plain one, and counts what was handed out and not finished. -/
structure Follows (s : Both κ) : Prop where
  waiting : s.queue.operations.map Operation.task = s.plain.waiting.map Operation.task
  got : s.got.map Operation.task = s.plain.handed.map Operation.task
  accounted : s.plain.Accounted
  running : s.plain.handed.length = s.queue.numberOfInvoked + s.plain.finished

/-- A removal says what the plain one says. -/
def Reports (s : Both κ) : QueueCall κ → Prop
  | .eraseOp op => (s.queue.mEraseOp op).1 = (s.plain.eraseOp op).1
  | _ => True

/-- The 32 bits of the numbers have not come round to one that is in use. -/
def Numbered (s : Both κ) : QueueCall κ → Prop
  | .add op => op.uniqueId ≠ s.queue.nextId ∧
      (∀ b ∈ s.plain.waiting, b.uniqueId ≠ s.queue.nextId) ∧
      ∀ a ∈ s.queue.operations, a.uniqueId ≠ op.uniqueId
  | .eraseOp op => ∀ a ∈ s.queue.operations, a.uniqueId ≠ op.uniqueId
  | _ => True

/-- Nothing that waits is erased by its number, and what is finished was handed out. -/
def Unerased (s : Both κ) : QueueCall κ → Prop
  | .eraseOp op => ∀ b ∈ s.plain.waiting, b.uniqueId ≠ op.uniqueId
  | .next => s.queue.operations ≠ [] → s.queue.numberOfInvoked + 1 < 2 ^ 32
  | .finish => 0 < s.queue.numberOfInvoked
  | _ => True

instance (s : Both κ) : (c : QueueCall κ) → Decidable (s.Numbered c)
  | .add _ => inferInstanceAs (Decidable (_ ∧ _ ∧ _))
  | .eraseOp _ => inferInstanceAs (Decidable (∀ _ ∈ _, _))
  | .construct | .eraseAll | .next | .finish => isTrue trivial

structure Inv (s : Both κ) : Prop extends Follows s where
  immediate : ∀ b ∈ s.plain.immediate, b.task.type = .immediate
  lower : ∀ b ∈ s.plain.lower, b.task.type ≠ .immediate
  iterator : s.queue.currentOperationIterator = 0 ∨
    s.queue.currentOperationIterator = s.queue.operations.length
  lt : s.queue.numberOfInvoked < 2 ^ 32
  apart : ∀ a ∈ s.queue.operations, ∀ b ∈ s.plain.waiting, a.uniqueId ≠ b.uniqueId

variable {s : Both κ}

theorem inv_new : (new : Both κ).Inv := by
  refine ⟨⟨rfl, rfl, List.Perm.refl _, rfl⟩, ?_, ?_, Or.inl rfl, Nat.two_pow_pos 32, ?_⟩
  · rintro b ⟨⟩
  · rintro b ⟨⟩
  · rintro a ⟨⟩

/-- Where the immediate operations of the queue end. -/
theorem map_split {operations immediate lower : List (Operation κ)}
    (heq : operations.map Operation.task = (immediate ++ lower).map Operation.task)
    (himmediate : ∀ b ∈ immediate, b.task.type = .immediate)
    (hlower : ∀ b ∈ lower, b.task.type ≠ .immediate) :
    (operations.takeWhile (·.task.type = .immediate)).map Operation.task =
        immediate.map Operation.task ∧
      (operations.dropWhile (·.task.type = .immediate)).map Operation.task =
        lower.map Operation.task := by
  induction immediate generalizing operations with
  | nil =>
    cases operations with
    | nil => exact ⟨rfl, heq⟩
    | cons a operations =>
      cases lower with
      | nil => cases heq
      | cons b lower =>
        have htask : a.task = b.task := (List.cons.inj heq).1
        have hnot : decide (a.task.type = .immediate) = false := by
          rw [decide_eq_false_iff_not, htask]
          exact hlower b List.mem_cons_self
        simp only [List.takeWhile_cons, List.dropWhile_cons, hnot]
        exact ⟨rfl, heq⟩
  | cons b immediate ih =>
    cases operations with
    | nil => cases heq
    | cons a operations =>
      obtain ⟨htask, hrest⟩ := List.cons.inj heq
      have hyes : decide (b.task.type = .immediate) = true :=
        decide_eq_true (himmediate b List.mem_cons_self)
      obtain ⟨htake, hdrop⟩ := ih hrest fun c hc => himmediate c (List.mem_cons_of_mem b hc)
      simp only [List.takeWhile_cons, List.dropWhile_cons, htask, hyes, if_true, List.map_cons,
        htake]
      exact ⟨trivial, hdrop⟩

theorem construct_inv (h : s.Inv) :
    ({ s with queue := { s.queue with lastId := s.queue.nextId } } : Both κ).Inv :=
  ⟨⟨h.waiting, h.got, h.accounted, h.running⟩, h.immediate, h.lower, h.iterator, h.lt, h.apart⟩

theorem mAdd_immediate {op : Operation κ} (h : op.task.type = .immediate) :
    s.queue.mAdd op = { s.queue with
      operations := s.queue.operations.takeWhile (·.task.type = .immediate) ++
        ⟨op.task, s.queue.nextId⟩ :: s.queue.operations.dropWhile (·.task.type = .immediate)
      currentOperationIterator := 0
      lastId := s.queue.nextId } := if_pos h

theorem mAdd_lower {op : Operation κ} (h : op.task.type ≠ .immediate) :
    s.queue.mAdd op = { s.queue with
      operations := s.queue.operations ++ [⟨op.task, s.queue.nextId⟩]
      currentOperationIterator :=
        if s.queue.currentOperationIterator = s.queue.operations.length then
          s.queue.operations.length + 1
        else s.queue.currentOperationIterator
      lastId := s.queue.nextId } := if_neg h

theorem add_immediate {op : Operation κ} (h : op.task.type = .immediate) :
    s.plain.add op = { s.plain with
      immediate := s.plain.immediate ++ [op]
      added := s.plain.added ++ [op] } := if_pos h

theorem add_lower {op : Operation κ} (h : op.task.type ≠ .immediate) :
    s.plain.add op = { s.plain with
      lower := s.plain.lower ++ [op]
      added := s.plain.added ++ [op] } := if_neg h

theorem accounted_add (h : s.plain.Accounted) (op : Operation κ) : (s.plain.add op).Accounted := by
  unfold Plain.Accounted Plain.waiting at h ⊢
  by_cases htype : op.task.type = .immediate
  · have hmove : (s.plain.immediate ++ [op] ++ s.plain.lower).Perm
        (s.plain.immediate ++ s.plain.lower ++ [op]) := by
      rw [List.append_assoc, List.append_assoc]
      exact List.Perm.append_left _ List.perm_append_comm
    rw [add_immediate htype]
    refine (List.Perm.append_left _ hmove).trans ?_
    rw [← List.append_assoc]
    exact h.append_right [op]
  · rw [add_lower htype]
    dsimp only
    rw [← List.append_assoc s.plain.immediate, ← List.append_assoc]
    exact h.append_right [op]

theorem mem_waiting_add {op b : Operation κ} (hb : b ∈ (s.plain.add op).waiting) :
    b ∈ s.plain.waiting ∨ b = op := by
  unfold Plain.waiting at hb ⊢
  by_cases htype : op.task.type = .immediate
  · rw [add_immediate htype] at hb
    simp only [List.mem_append, List.mem_singleton] at hb ⊢
    tauto
  · rw [add_lower htype] at hb
    simp only [List.mem_append, List.mem_singleton] at hb ⊢
    tauto

theorem mem_mAdd {op a : Operation κ} (ha : a ∈ (s.queue.mAdd op).operations) :
    a ∈ s.queue.operations ∨ a.uniqueId = s.queue.nextId := by
  by_cases htype : op.task.type = .immediate
  · rw [mAdd_immediate htype] at ha
    rcases List.mem_append.1 ha with ha | ha
    · exact Or.inl ((List.takeWhile_prefix _).subset ha)
    · rcases List.mem_cons.1 ha with rfl | ha
      · exact Or.inr rfl
      · exact Or.inl ((List.dropWhile_suffix _).subset ha)
  · rw [mAdd_lower htype] at ha
    rcases List.mem_append.1 ha with ha | ha
    · exact Or.inl ha
    · rw [List.mem_singleton] at ha
      exact Or.inr (ha ▸ rfl)

theorem add_apart (h : s.Inv) {op : Operation κ} (hop : s.Numbered (.add op)) :
    ∀ a ∈ (s.queue.mAdd op).operations, ∀ b ∈ (s.plain.add op).waiting,
      a.uniqueId ≠ b.uniqueId := by
  obtain ⟨hself, hwaiting, hcopies⟩ := hop
  intro a ha b hb
  rcases mem_mAdd ha with hold | hcopy
  · rcases mem_waiting_add hb with hqueued | rfl
    · exact h.apart a hold b hqueued
    · exact hcopies a hold
  · rcases mem_waiting_add hb with hqueued | rfl
    · exact fun heq => hwaiting b hqueued (heq.symm.trans hcopy)
    · exact fun heq => hself (heq.symm.trans hcopy)

theorem add_inv (h : s.Inv) {op : Operation κ} (hop : s.Numbered (.add op)) :
    ({ s with queue := s.queue.mAdd op, plain := s.plain.add op } : Both κ).Inv := by
  have hapart := add_apart h hop
  have haccounted := accounted_add h.accounted op
  by_cases htype : op.task.type = .immediate
  · obtain ⟨htake, hdrop⟩ := map_split h.waiting h.immediate h.lower
    rw [mAdd_immediate htype] at hapart ⊢
    rw [add_immediate htype] at hapart haccounted ⊢
    refine ⟨⟨?_, h.got, haccounted, h.running⟩, ?_, h.lower, Or.inl rfl, h.lt, hapart⟩
    · unfold Plain.waiting
      dsimp only
      rw [List.map_append, List.map_cons, htake, hdrop, List.append_assoc, List.map_append]
      rfl
    · intro b hb
      rcases List.mem_append.1 hb with hb | hb
      · exact h.immediate b hb
      · rw [List.mem_singleton.1 hb]
        exact htype
  · have hwaiting := h.waiting
    rw [mAdd_lower htype] at hapart ⊢
    rw [add_lower htype] at hapart haccounted ⊢
    refine ⟨⟨?_, h.got, haccounted, h.running⟩, h.immediate, ?_, ?_, h.lt, hapart⟩
    · unfold Plain.waiting at hwaiting ⊢
      dsimp only
      rw [← List.append_assoc, List.map_append, List.map_append, hwaiting]
      rfl
    · intro b hb
      rcases List.mem_append.1 hb with hb | hb
      · exact h.lower b hb
      · rw [List.mem_singleton.1 hb]
        exact htype
    · dsimp only
      rw [List.length_append]
      rcases h.iterator with hbegin | hend
      · by_cases hempty : s.queue.currentOperationIterator = s.queue.operations.length
        · rw [if_pos hempty]
          exact Or.inr rfl
        · rw [if_neg hempty]
          exact Or.inl hbegin
      · rw [if_pos hend]
        exact Or.inr rfl

theorem eraseAll_inv (h : s.Inv) :
    ({ s with queue := s.queue.mEraseAll, plain := s.plain.eraseAll } : Both κ).Inv := by
  have haccounted := h.accounted
  refine ⟨⟨rfl, h.got, ?_, h.running⟩, ?_, ?_, Or.inl rfl, h.lt, ?_⟩
  · unfold Plain.Accounted Plain.waiting at haccounted ⊢
    rw [← List.append_assoc] at haccounted ⊢
    simpa [Plain.eraseAll, Plain.waiting] using haccounted
  · rintro b ⟨⟩
  · rintro b ⟨⟩
  · rintro a ⟨⟩

/-- The plain queue hands out what waits first. -/
theorem next_of_waiting {b : Operation κ} {rest : List (Operation κ)}
    (hwaiting : s.plain.waiting = b :: rest) : s.plain.next.waiting = rest ∧
      s.plain.next.handed = s.plain.handed ++ [b] ∧ s.plain.next.added = s.plain.added ∧
      s.plain.next.erased = s.plain.erased ∧ s.plain.next.finished = s.plain.finished ∧
      s.plain.next.immediate ⊆ s.plain.immediate ∧ s.plain.next.lower ⊆ s.plain.lower := by
  unfold Plain.waiting at hwaiting
  unfold Plain.next Plain.waiting
  cases himmediate : s.plain.immediate with
  | cons c immediate =>
    rw [himmediate] at hwaiting
    obtain ⟨rfl, hrest⟩ := List.cons.inj hwaiting
    exact ⟨hrest, rfl, rfl, rfl, rfl, List.subset_cons_self _ _, List.Subset.refl _⟩
  | nil =>
    rw [himmediate, List.nil_append] at hwaiting
    rw [hwaiting]
    exact ⟨rfl, rfl, rfl, rfl, rfl, List.Subset.refl _, List.subset_cons_self _ _⟩

/-- The iterator of the queue is at its first operation or behind the last. -/
theorem mNextOperation_cons (h : s.Inv) {a : Operation κ} {rest : List (Operation κ)}
    (hoperations : s.queue.operations = a :: rest) :
    s.queue.mNextOperation = (some ⟨a.task, s.queue.nextId⟩, { s.queue with
      operations := rest
      currentOperationIterator := 0
      numberOfInvoked := (s.queue.numberOfInvoked + 1) % 2 ^ 32
      lastId := s.queue.nextId }) := by
  have hbegin : (if s.queue.currentOperationIterator = s.queue.operations.length then 0
      else s.queue.currentOperationIterator) = 0 := by
    split_ifs with hend
    · rfl
    · exact h.iterator.resolve_right hend
  unfold OperationQueue.mNextOperation
  dsimp only
  rw [hbegin, hoperations]
  rfl

theorem mNextOperation_nil (hoperations : s.queue.operations = []) :
    s.queue.mNextOperation = (none, { s.queue with lastId := s.queue.nextId }) := by
  unfold OperationQueue.mNextOperation
  exact if_pos (List.isEmpty_iff.2 hoperations)

theorem next_of_nil (hwaiting : s.plain.waiting = []) : s.plain.next = s.plain := by
  unfold Plain.waiting at hwaiting
  obtain ⟨himmediate, hlower⟩ := List.append_eq_nil_iff.1 hwaiting
  unfold Plain.next
  rw [himmediate, hlower]

/-- Where something is handed out, the queue and the plain one begin alike. -/
theorem Follows.cons (h : s.Follows) {a : Operation κ} {rest : List (Operation κ)}
    (hoperations : s.queue.operations = a :: rest) :
    ∃ b tail, s.plain.waiting = b :: tail ∧ a.task = b.task ∧
      rest.map Operation.task = tail.map Operation.task := by
  have hwaiting := h.waiting
  rw [hoperations] at hwaiting
  cases htail : s.plain.waiting with
  | nil =>
    rw [htail] at hwaiting
    cases hwaiting
  | cons b tail =>
    rw [htail] at hwaiting
    obtain ⟨htask, hrest⟩ := List.cons.inj hwaiting
    exact ⟨b, tail, rfl, htask, hrest⟩

/-- An operation is handed out, as far as the count of 32 bits allows. -/
theorem next_cons_inv (h : s.Inv) {a : Operation κ} {rest : List (Operation κ)}
    (hoperations : s.queue.operations = a :: rest)
    (hroom : s.queue.numberOfInvoked + 1 < 2 ^ 32) :
    ({ queue := s.queue.mNextOperation.2
       got := s.got ++ s.queue.mNextOperation.1.toList
       plain := s.plain.next } : Both κ).Inv := by
  obtain ⟨b, tail, hwaiting, htask, hrest⟩ := h.toFollows.cons hoperations
  obtain ⟨hnext, hhanded, hadded, herased, hfinished, himmediate, hlower⟩ :=
    next_of_waiting hwaiting
  have haccounted := h.accounted
  have hrunning := h.running
  have hgot := h.got
  rw [mNextOperation_cons h hoperations, Nat.mod_eq_of_lt hroom]
  refine ⟨⟨?_, ?_, ?_, ?_⟩, fun c hc => h.immediate c (himmediate hc),
    fun c hc => h.lower c (hlower hc), Or.inl rfl, hroom, ?_⟩
  · rw [hnext]
    exact hrest
  · dsimp only
    rw [hhanded, List.map_append, List.map_append, hgot]
    exact congrArg (fun t => s.plain.handed.map Operation.task ++ [t]) htask
  · unfold Plain.Accounted at haccounted ⊢
    dsimp only
    rw [hhanded, herased, hnext, hadded, List.append_assoc, List.append_assoc]
    rw [hwaiting, List.append_assoc] at haccounted
    have hmove : (b :: (s.plain.erased ++ tail)).Perm (s.plain.erased ++ b :: tail) :=
      List.perm_middle.symm
    exact (List.Perm.append_left _ hmove).trans haccounted
  · dsimp only
    rw [hhanded, List.length_append, hrunning, hfinished, List.length_singleton]
    omega
  · intro c hc d hd
    rw [hnext] at hd
    refine h.apart c ?_ d ?_
    · rw [hoperations]
      exact List.mem_cons_of_mem a hc
    · rw [hwaiting]
      exact List.mem_cons_of_mem b hd

theorem next_nil_inv (h : s.Inv) (hoperations : s.queue.operations = []) :
    ({ queue := s.queue.mNextOperation.2
       got := s.got ++ s.queue.mNextOperation.1.toList
       plain := s.plain.next } : Both κ).Inv := by
  have hwaiting := h.waiting
  rw [hoperations] at hwaiting
  rw [mNextOperation_nil hoperations, next_of_nil (List.map_eq_nil_iff.1 hwaiting.symm)]
  exact ⟨⟨h.waiting, by rw [← h.got]; exact congrArg _ (List.append_nil _), h.accounted, h.running⟩,
    h.immediate, h.lower, h.iterator, h.lt, h.apart⟩

theorem finish_inv (h : s.Inv) (hpos : 0 < s.queue.numberOfInvoked) :
    ({ s with
       queue := s.queue.mFinishOperation
       plain := { s.plain with finished := s.plain.finished + 1 } } : Both κ).Inv := by
  have hlt := h.lt
  have hrunning := h.running
  have hcount : (s.queue.numberOfInvoked + 2 ^ 32 - 1) % 2 ^ 32 = s.queue.numberOfInvoked - 1 := by
    omega
  unfold OperationQueue.mFinishOperation
  rw [hcount]
  refine ⟨⟨h.waiting, h.got, h.accounted, ?_⟩, h.immediate, h.lower, h.iterator, ?_, h.apart⟩
  · dsimp only
    omega
  · dsimp only
    omega

/-- A number that no operation has is not found in the queue, nor in the plain one. -/
theorem mEraseOp_of_not {op : Operation κ}
    (hnot : ∀ a ∈ s.queue.operations, a.uniqueId ≠ op.uniqueId) :
    s.queue.mEraseOp op = (false, s.queue) := by
  unfold OperationQueue.mEraseOp
  rw [List.findIdx?_eq_none_iff.2 fun a ha => decide_eq_false (hnot a ha)]

theorem eraseOp_of_not {op : Operation κ}
    (hnot : ∀ b ∈ s.plain.waiting, b.uniqueId ≠ op.uniqueId) :
    s.plain.eraseOp op = (false, s.plain) := by
  unfold Plain.eraseOp
  rw [List.find?_eq_none.2 fun b hb => by rw [decide_eq_true_eq]; exact hnot b hb]

theorem call_ok (hs : s.Inv) {c : QueueCall κ} (hnumbered : s.Numbered c) (hc : s.Unerased c) :
    ∃ s', call c s = .ok s' ∧ s'.Inv ∧ s'.Follows ∧ s.Reports c := by
  have hstep : ∃ s', call c s = .ok s' ∧ s'.Inv ∧ s.Reports c := by
    cases c with
    | construct => exact ⟨_, rfl, construct_inv hs, trivial⟩
    | add op => exact ⟨_, rfl, add_inv hs hnumbered, trivial⟩
    | eraseOp op =>
      have hqueue := mEraseOp_of_not hnumbered
      have hplain := eraseOp_of_not hc
      refine ⟨_, rfl, ?_, ?_⟩
      · rw [hqueue, hplain]
        exact hs
      · rw [Reports, hqueue, hplain]
    | eraseAll => exact ⟨_, rfl, eraseAll_inv hs, trivial⟩
    | next =>
      cases hoperations : s.queue.operations with
      | nil => exact ⟨_, rfl, next_nil_inv hs hoperations, trivial⟩
      | cons a rest =>
        have hsome : s.queue.operations ≠ [] := by
          rw [hoperations]
          exact List.cons_ne_nil a rest
        exact ⟨_, rfl, next_cons_inv hs hoperations (hc hsome), trivial⟩
    | finish => exact ⟨_, rfl, finish_inv hs hc, trivial⟩
  obtain ⟨s', hcall, hinv, hreports⟩ := hstep
  exact ⟨s', hcall, hinv, hinv.toFollows, hreports⟩

/-- A removal that finds what it is to remove, a count that comes round, and an end of what was
not begun are not as in the plain queue. -/
theorem unerased_of_follows (hs : s.Inv) {c : QueueCall κ} (hnumbered : s.Numbered c)
    {s' : Both κ} (hcall : call c s = .ok s') (hfollows : s'.Follows) (hreports : s.Reports c) :
    s.Unerased c := by
  have hrunning := hs.running
  have hrunning' := hfollows.running
  cases c with
  | construct | add op | eraseAll => trivial
  | eraseOp op =>
    intro b hb heq
    rw [Reports, mEraseOp_of_not hnumbered] at hreports
    have hsome : (s.plain.waiting.find? (·.uniqueId = op.uniqueId)).isSome = true :=
      List.find?_isSome.2 ⟨b, hb, decide_eq_true heq⟩
    obtain ⟨e, he⟩ := Option.isSome_iff_exists.1 hsome
    unfold Plain.eraseOp at hreports
    rw [he] at hreports
    cases hreports
  | next =>
    intro hsome
    obtain ⟨a, rest, hoperations⟩ := List.exists_cons_of_ne_nil hsome
    obtain ⟨b, tail, hwaiting, -, -⟩ := hs.toFollows.cons hoperations
    obtain ⟨-, hhanded, -, -, hfinished, -⟩ := next_of_waiting hwaiting
    cases hcall
    dsimp only at hrunning'
    rw [mNextOperation_cons hs hoperations, hhanded, hfinished, List.length_append,
      List.length_singleton, hrunning] at hrunning'
    dsimp only at hrunning'
    by_contra hnot
    have hlt := hs.lt
    rw [show s.queue.numberOfInvoked + 1 = 2 ^ 32 by omega] at hrunning'
    omega
  | finish =>
    cases hcall
    unfold OperationQueue.mFinishOperation at hrunning'
    dsimp only at hrunning'
    by_contra hnot
    have hzero : s.queue.numberOfInvoked = 0 := Nat.eq_zero_of_not_pos hnot
    rw [hzero] at hrunning hrunning'
    omega

/-- In a run in which the numbers do not come round the queue is as the plain one, hands out what
the plain one hands out and counts what is not finished, in every state, just when nothing that
waits is erased by its number. -/
theorem follows_iff_unerased {calls : List (QueueCall κ)}
    (hnumbered : EveryStep call Numbered calls (new : Both κ)) :
    Traced call (fun s c s' => s'.Follows ∧ s.Reports c) calls new ↔
      EveryStep call Unerased calls new := by
  refine traced_iff_among (I := Inv) (fun s c hs hc hunerased => ?_)
    (fun s c s' hs hc hcall hR => ?_) inv_new hnumbered
  · exact call_ok hs hc hunerased
  · exact unerased_of_follows hs hc hcall hR.1 hR.2

/-- Two operations are made, queued and handed out. -/
def twoCalls : List (QueueCall ℕ) :=
  [.construct, .construct, .add ⟨⟨5, .asLower, 0⟩, 1⟩, .add ⟨⟨6, .immediate, 0⟩, 2⟩, .next, .finish,
    .next]

theorem follows_iff_unerased_twoCalls :
    Traced call (fun s c s' => s'.Follows ∧ s.Reports c) twoCalls new ↔
      EveryStep call Unerased twoCalls new := by
  have hnumbered : EveryStep call Numbered twoCalls new := by
    decide +kernel
  exact follows_iff_unerased hnumbered

/-- An operation is queued and not found by its own number. -/
theorem reports_false_of_eraseOp :
    ∃ s : Both ℕ, runAll call [.construct, .add ⟨⟨5, .asLower, 0⟩, 1⟩] new = .ok s ∧
      s.plain.waiting = [⟨⟨5, .asLower, 0⟩, 1⟩] ∧
      (s.queue.mEraseOp ⟨⟨5, .asLower, 0⟩, 1⟩).1 = false ∧
      (s.queue.mEraseOp ⟨⟨5, .asLower, 0⟩, 1⟩).2.operations = [⟨⟨5, .asLower, 0⟩, 2⟩] := by
  exact ⟨_, rfl, rfl, rfl, rfl⟩

end Both

end UdtKernel.ThreadPool
