import Mathlib.Logic.Function.Basic
import UdtKernel.Types

set_option autoImplicit false

/-! How user data comes to its handler: `CDataObject` and the operations of the pool. -/

namespace UdtKernel.DataObject

variable {α : Type}

/-- `user_operation_t`, with the node of `FUserDataFIFO` where it stands. -/
structure UserOperation (α : Type) where
  node : ℕ
  data : List α
  isWorking : Bool

/-- An `operation_t` of `sMUserDataOperation`, which points to a node. -/
structure Operation where
  desc : Descriptor
  node : ℕ
  deriving DecidableEq

/-- Where a thread stands in an operation: before the data is taken, before the handler is called,
before the data is looked for again, and before the operation is queued again. -/
inductive Place (α : Type) where
  | started
  | taken (data : List α)
  | called
  | kept

structure Running (α : Type) where
  op : Operation
  place : Place α

/-- `FUserDataFIFO`, the queue and the threads of the pool, and what the handler received. -/
structure State (α : Type) where
  userDataFifo : Descriptor → Option (UserOperation α)
  nextNode : ℕ
  queue : List Operation
  running : List (Running α)
  handled : Descriptor → List α

namespace State

def init : State α := ⟨fun _ => none, 0, [], [], fun _ => []⟩

variable (s : State α)

/-- What a pointer to a `user_operation_t` points to. -/
def deref (op : Operation) : Except Abort (UserOperation α) :=
  match s.userDataFifo op.desc with
  | some e => if e.node = op.node then .ok e else .error .readOutside
  | none => .error .readOutside

/-- `CDataObject::MPush`, under `FFifoMutex`. -/
def mPush (desc : Descriptor) (aVal : List α) : Except Abort (State α) :=
  let e := (s.userDataFifo desc).getD ⟨s.nextNode, [], false⟩
  let needCall := !e.isWorking && e.data.isEmpty
  let data := e.data ++ aVal
  if data = [] then .error .noUserData
  else .ok { s with
    userDataFifo := Function.update s.userDataFifo desc (some { e with data })
    nextNode := if (s.userDataFifo desc).isNone then s.nextNode + 1 else s.nextNode
    queue := if needCall then s.queue ++ [⟨desc, e.node⟩] else s.queue }

/-- A thread begins an operation of the queue: `MNextOperation`. -/
def start (i : ℕ) : Except Abort (State α) :=
  match s.queue[i]? with
  | some op => .ok { s with queue := s.queue.eraseIdx i, running := s.running ++ [⟨op, .started⟩] }
  | none => .ok s

/-- The first block of `MUserOperation` under `FFifoMutex`. -/
def take (r : ℕ) (op : Operation) : Except Abort (State α) := do
  let e ← s.deref op
  if e.data = [] then throw .noUserData
  return { s with
    userDataFifo :=
      Function.update s.userDataFifo op.desc (some { e with data := [], isWorking := true })
    running := s.running.set r ⟨op, .taken e.data⟩ }

def call (r : ℕ) (op : Operation) (data : List α) : State α :=
  { s with
    handled := Function.update s.handled op.desc (s.handled op.desc ++ data)
    running := s.running.set r ⟨op, .called⟩ }

/-- The last block of `MUserOperation` under `FFifoMutex`. -/
def finish (r : ℕ) (op : Operation) : Except Abort (State α) := do
  let e ← s.deref op
  if e.data = [] then
    return { s with
      userDataFifo := Function.update s.userDataFifo op.desc none
      running := s.running.eraseIdx r }
  else return { s with running := s.running.set r ⟨op, .kept⟩ }

/-- `MAdd` of an operation that returned `E_CB_SAFE_IT`. -/
def keep (r : ℕ) (op : Operation) : State α :=
  { s with queue := s.queue ++ [op], running := s.running.eraseIdx r }

def next (r : ℕ) : Except Abort (State α) :=
  match s.running[r]? with
  | none => .ok s
  | some ⟨op, .started⟩ => s.take r op
  | some ⟨op, .taken data⟩ => .ok (s.call r op data)
  | some ⟨op, .called⟩ => s.finish r op
  | some ⟨op, .kept⟩ => .ok (s.keep r op)

def operations : List Operation := s.queue ++ s.running.map Running.op

end State

inductive Step (α : Type) where
  | push (desc : Descriptor) (data : List α)
  | start (i : ℕ)
  | next (r : ℕ)

def step : Step α → State α → Except Abort (State α)
  | .push desc data, s => s.mPush desc data
  | .start i, s => s.start i
  | .next r, s => s.next r

def pushed (steps : List (Step α)) (desc : Descriptor) : List α :=
  steps.flatMap fun
    | .push d data => if d = desc then data else []
    | _ => []

def Place.batch : Place α → List α
  | .taken data => data
  | _ => []

namespace State

/-- What was taken for a descriptor, and is not handled yet. -/
def inHand (s : State α) (desc : Descriptor) : List α :=
  s.running.flatMap fun r => if r.op.desc = desc then r.place.batch else []

def stored (s : State α) (desc : Descriptor) : List α :=
  match s.userDataFifo desc with
  | some e => e.data
  | none => []

end State

end UdtKernel.DataObject
