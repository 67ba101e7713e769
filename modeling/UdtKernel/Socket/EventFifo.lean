import UdtKernel.Lib.Outcome
import UdtKernel.Lib.Ring
import UdtKernel.Types

set_option autoImplicit false

/-! The ring of events of a shared-memory socket. -/

namespace UdtKernel.Socket
open UdtKernel.Lib

/-- `event_info_t`, with the bytes of its union. -/
structure EventInfo where
  eventType : ℕ
  counter : ℕ
  pid : ℕ
  userId : ℕ
  uniqueId : ℕ
  union : List Byte
  deriving DecidableEq

def eData : ℕ := 1

def eventReserv : ℕ := 4

structure EventFifo where
  arraySize : ℕ
  read : ℕ
  write : ℕ
  maxCountRecvEvent : ℕ
  countRecvEvent : ℕ
  maxValue : ℕ
  info : ℕ → EventInfo

/-- The events of a memory that was not used yet. -/
def eNo : EventInfo := ⟨0, 0, 0, 0, 0, []⟩

namespace EventFifo

/-- `event_fifo_t(aMemorySize)` of a memory with so many events. -/
def new (arraySize : ℕ) : EventFifo where
  arraySize := arraySize
  read := 0
  write := 0
  maxCountRecvEvent := if eventReserv < arraySize then arraySize - eventReserv else arraySize
  countRecvEvent := 0
  maxValue := (2 ^ 16 - 1) / arraySize * arraySize
  info := fun _ => eNo

section
variable (r : EventFifo)

def mDec (aVal : ℕ) : ℕ := (aVal + (2 ^ 16 - 1)) % 2 ^ 16 % r.maxValue

def mInc (aVal : ℕ) : ℕ := (aVal + 1) % 2 ^ 16 % r.maxValue

def mCount : Except Abort ℕ :=
  let count : ℤ := (r.write : ℤ) - r.read
  let count := if count < 0 then count + r.maxValue else count
  if count < 0 ∨ (r.arraySize : ℤ) < count then .error .countIsWrong else .ok count.toNat

def mEmpty : Bool := r.read = r.write

def pos (id : ℕ) : ℕ := id % r.arraySize

def mPut (aData : EventInfo) : Except Abort (Bool × EventFifo) := do
  if (← r.mCount) = r.arraySize then return (false, r)
  if aData.eventType = eData ∧ r.maxCountRecvEvent ≤ r.countRecvEvent then return (false, r)
  let countRecvEvent :=
    if aData.eventType = eData then (r.countRecvEvent + 1) % 2 ^ 16 else r.countRecvEvent
  let count ← r.mCount
  let r' := { r with
    countRecvEvent, write := r.mInc r.write
    info := Function.update r.info (r.pos r.write) aData }
  if r.pos r.write = r'.pos r'.write then throw .countIsWrong
  if (← r'.mCount) ≠ count + 1 then throw .countIsWrong
  return (true, r')

def mPop : Except Abort (Option EventInfo × EventFifo) := do
  if r.mEmpty then return (none, r)
  let aTo := r.info (r.pos r.read)
  if aTo.eventType = eData ∧ r.countRecvEvent = 0 then throw .countIsWrong
  let r' := { r with
    countRecvEvent := if aTo.eventType = eData then r.countRecvEvent - 1 else r.countRecvEvent
    read := r.mInc r.read }
  if r.pos r.read = r'.pos r'.read then throw .countIsWrong
  return (some aTo, r')

/-- The search of `MEraseFromFifo`, which goes backwards. The ids have 16 bits, and it does not end
    when it takes more turns than there are ids. -/
def searchFrom (aData : EventInfo) : ℕ → ℕ → Except Abort (Option ℕ)
  | 0, _ => .error .hang
  | fuel + 1, id =>
    if id = r.read then .ok none
    else
      let id := r.mDec id
      if r.info (r.pos id) = aData then .ok (some id) else searchFrom aData fuel id

def shiftFrom : ℕ → (ℕ → EventInfo) → ℕ → ℕ → Except Abort (ℕ → EventInfo)
  | 0, _, _, _ => .error .hang
  | fuel + 1, info, id, next =>
    if next = r.write then .ok info
    else
      shiftFrom fuel (Function.update info (r.pos id) (info (r.pos next))) (r.mInc id) (r.mInc next)

def mEraseFromFifo (aData : EventInfo) : Except Abort (Bool × EventFifo) := do
  if r.mEmpty then return (false, r)
  match ← r.searchFrom aData (2 ^ 16 + 1) r.write with
  | none => return (false, r)
  | some id =>
    let info ← r.shiftFrom (2 ^ 16 + 1) r.info id (r.mInc id)
    return (true, { r with info, write := r.mDec r.write })

end

end EventFifo

inductive Op where
  | put (aData : EventInfo)
  | pop
  | erase (aData : EventInfo)

inductive Reply where
  | put (isPut : Bool)
  | pop (event : Option EventInfo)
  | erase (isErased : Bool)
  deriving DecidableEq

def EventFifo.apply (r : EventFifo) : Op → Except Abort (Reply × EventFifo)
  | .put aData => do
    let (isPut, r) ← r.mPut aData
    return (.put isPut, r)
  | .pop => do
    let (event, r) ← r.mPop
    return (.pop event, r)
  | .erase aData => do
    let (isErased, r) ← r.mEraseFromFifo aData
    return (.erase isErased, r)

def EventFifo.turn (op : Op) (s : EventFifo × List Reply) :
    Except Abort (EventFifo × List Reply) := do
  let (reply, r) ← s.1.apply op
  return (r, s.2 ++ [reply])

/-- A FIFO of so many events, with how many data events more were put than popped. -/
structure BoundedFifo where
  capacity : ℕ
  maxData : ℕ
  data : ℕ
  events : List EventInfo

namespace BoundedFifo

def new (capacity maxData : ℕ) : BoundedFifo := ⟨capacity, maxData, 0, []⟩

def apply (q : BoundedFifo) : Op → Reply × BoundedFifo
  | .put e =>
    if q.events.length = q.capacity ∨ e.eventType = eData ∧ q.maxData ≤ q.data then (.put false, q)
    else
      (.put true, { q with
        data := if e.eventType = eData then q.data + 1 else q.data
        events := q.events ++ [e] })
  | .pop =>
    match q.events with
    | [] => (.pop none, q)
    | e :: events =>
      (.pop (some e), { q with
        data := if e.eventType = eData then q.data - 1 else q.data
        events })
  | .erase e =>
    match eraseLast e q.events with
    | none => (.erase false, q)
    | some events => (.erase true, { q with events })

def turn (s : BoundedFifo × List Reply) (op : Op) : BoundedFifo × List Reply :=
  ((s.1.apply op).2, s.2 ++ [(s.1.apply op).1])

def run (ops : List Op) (q : BoundedFifo) : BoundedFifo × List Reply := ops.foldl turn (q, [])

end BoundedFifo

end UdtKernel.Socket
