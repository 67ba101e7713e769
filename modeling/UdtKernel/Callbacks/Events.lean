import UdtKernel.Callbacks.Event
import UdtKernel.Types
import Mathlib.Logic.Function.Basic

set_option autoImplicit false

/-! The callbacks of the keys, and a call of them that others change meanwhile: `CEvents`. -/

namespace UdtKernel.Callbacks

/-- A node of the map; the number tells it from the nodes of other times. -/
structure Node (β : Type) where
  number : ℕ
  event : Event β

/-- `CEvents`, with the number of nodes there have been. -/
structure Events (κ β : Type) where
  cbs : κ → Option (Node β)
  numberOfArrayChange : BitVec 32
  nodes : ℕ

/-- The changes that other callers make while callbacks run. -/
inductive Change (κ β : Type) where
  | add (aKey : κ) (aCb : β) (aPrior : ℕ)
  | erase (aKey : κ) (aCb : β)
  | changePrior (aKey : κ) (aCb : β) (aPrior : ℕ)
  | clear (aKey : κ)

def Change.key {κ β : Type} : Change κ β → κ
  | .add aKey _ _ | .erase aKey _ | .changePrior aKey _ _ | .clear aKey => aKey

namespace Events

variable {κ β : Type} [DecidableEq κ] [DecidableEq β]

def new : Events κ β := ⟨fun _ => none, 0, 0⟩

def set (aKey : κ) (node : Node β) (event : Event β) (s : Events κ β) : Events κ β :=
  { s with cbs := Function.update s.cbs aKey (some { node with event := event }) }

/-- The key goes when its event has no callbacks any more. -/
def setOrErase (aKey : κ) (node : Node β) (event : Event β) (s : Events κ β) : Events κ β :=
  if event.cbs = [] then
    { s with
      cbs := Function.update s.cbs aKey none
      numberOfArrayChange := s.numberOfArrayChange + 1 }
  else s.set aKey node event

def mAdd (aKey : κ) (aCb : β) (aPrior : ℕ) (s : Events κ β) : Events κ β :=
  match s.cbs aKey with
  | some node => s.set aKey node (node.event.mAdd aCb aPrior)
  | none =>
    { s with numberOfArrayChange := s.numberOfArrayChange + 1, nodes := s.nodes + 1 }.set aKey
      ⟨s.nodes, .new⟩ (Event.new.mAdd aCb aPrior)

def mErase (aKey : κ) (aCb : β) (s : Events κ β) : Events κ β :=
  match s.cbs aKey with
  | none => s
  | some node =>
    let r := node.event.mErase aCb
    if r.2 then s.setOrErase aKey node r.1 else s

def mChangePrior (aKey : κ) (aCb : β) (aPrior : ℕ) (s : Events κ β) : Events κ β :=
  match s.cbs aKey with
  | none => s
  | some node => s.set aKey node (node.event.mChangePrior aCb aPrior)

/-- `CEvent::MClear` of the event of a key. -/
def mClear (aKey : κ) (s : Events κ β) : Events κ β :=
  match s.cbs aKey with
  | none => s
  | some node => s.set aKey node node.event.mClear

def change (s : Events κ β) : Change κ β → Events κ β
  | .add aKey aCb aPrior => s.mAdd aKey aCb aPrior
  | .erase aKey aCb => s.mErase aKey aCb
  | .changePrior aKey aCb aPrior => s.mChangePrior aKey aCb aPrior
  | .clear aKey => s.mClear aKey

def list (s : Events κ β) (aKey : κ) : List (Callback β) :=
  match s.cbs aKey with
  | none => []
  | some node => node.event.cbs

/-- The last part of `MCall`, for the iterator to `node`, of a time when the table had the counter
    `was`. -/
def synchronize (aKey : κ) (was : BitVec 32) (node : Node β) (event : Event β) (s : Events κ β) :
    Except Abort (Events κ β) :=
  match s.cbs aKey with
  | none => if s.numberOfArrayChange ≠ was then .ok s else .error .readOutside
  | some node' =>
    if s.numberOfArrayChange ≠ was ∨ node'.number = node.number then
      .ok (s.setOrErase aKey node' (node'.event.mSynchronizeChange node.event event))
    else .error .readOutside

/-- `MCall`, and the callbacks that were called; others make some changes while they run. -/
def mCall (aKey : κ) (returns : β → CbRval) (changes : List (Change κ β)) (s : Events κ β) :
    Except Abort (Events κ β × List β) :=
  let live := changes.foldl change s
  match s.cbs aKey with
  | none => .ok (live, [])
  | some node => do
    let r := node.event.mCall returns
    if r.1.mWasChanged node.event.numberOfArrayChange then
      let live ← live.synchronize aKey s.numberOfArrayChange node r.1
      return (live, r.2)
    else return (live, r.2)

def AllOrdered (s : Events κ β) : Prop := ∀ k, Ordered (s.list k)

section
omit [DecidableEq κ] [DecidableEq β]
variable {s : Events κ β} {aKey : κ}

theorem list_of_none (h : s.cbs aKey = none) : s.list aKey = [] := by
  unfold list
  rw [h]

theorem list_of_some {node : Node β} (h : s.cbs aKey = some node) :
    s.list aKey = node.event.cbs := by
  unfold list
  rw [h]

theorem list_congr {t : Events κ β} {k : κ} (h : s.cbs k = t.cbs k) : s.list k = t.list k := by
  unfold list
  rw [h]

theorem AllOrdered.event (h : s.AllOrdered) {node : Node β} (hs : s.cbs aKey = some node) :
    Ordered node.event.cbs :=
  list_of_some hs ▸ h aKey

theorem allOrdered_new : (new : Events κ β).AllOrdered := fun _ => ordered_nil

end

section
omit [DecidableEq β]
variable {s : Events κ β} {aKey : κ} (node : Node β) (event : Event β)

@[simp] theorem set_cbs_self :
    (s.set aKey node event).cbs aKey = some { node with event := event } :=
  Function.update_self ..

theorem set_cbs_of_ne {k : κ} (h : k ≠ aKey) : (s.set aKey node event).cbs k = s.cbs k :=
  Function.update_of_ne h ..

theorem setOrErase_cbs_of_ne {k : κ} (h : k ≠ aKey) :
    (s.setOrErase aKey node event).cbs k = s.cbs k := by
  unfold setOrErase
  split_ifs
  · exact Function.update_of_ne h ..
  · exact set_cbs_of_ne node event h

theorem setOrErase_cbs_self : (s.setOrErase aKey node event).cbs aKey =
    if event.cbs = [] then none else some { node with event := event } := by
  unfold setOrErase
  split_ifs
  · exact Function.update_self ..
  · exact set_cbs_self node event

theorem setOrErase_list : (s.setOrErase aKey node event).list aKey = event.cbs := by
  have hself : (s.setOrErase aKey node event).cbs aKey =
      if event.cbs = [] then none else some { node with event := event } :=
    setOrErase_cbs_self node event
  split_ifs at hself with hempty
  · rw [list_of_none hself, hempty]
  · rw [list_of_some hself]

theorem setOrErase_absent : (s.setOrErase aKey node event).cbs aKey = none ↔
    (s.setOrErase aKey node event).list aKey = [] := by
  rw [setOrErase_list, setOrErase_cbs_self]
  split_ifs with hempty <;> simp [hempty]

theorem AllOrdered.set (h : s.AllOrdered) (he : Ordered event.cbs) :
    (s.set aKey node event).AllOrdered := by
  intro k
  by_cases hk : k = aKey
  · rw [hk, list_of_some (set_cbs_self node event)]
    exact he
  · rw [list_congr (set_cbs_of_ne node event hk)]
    exact h k

theorem AllOrdered.setOrErase (h : s.AllOrdered) (he : Ordered event.cbs) :
    (s.setOrErase aKey node event).AllOrdered := by
  intro k
  by_cases hk : k = aKey
  · rw [hk, setOrErase_list]
    exact he
  · rw [list_congr (setOrErase_cbs_of_ne node event hk)]
    exact h k

end

variable {s : Events κ β} {aKey : κ}

theorem change_cbs_of_ne (c : Change κ β) (h : aKey ≠ c.key) :
    (s.change c).cbs aKey = s.cbs aKey := by
  cases c with
  | add k aCb aPrior =>
    rw [change, mAdd]
    split <;> exact set_cbs_of_ne _ _ h
  | erase k aCb =>
    rw [change, mErase]
    split
    · rfl
    · dsimp only
      split_ifs
      · exact setOrErase_cbs_of_ne _ _ h
      · rfl
  | changePrior k aCb aPrior =>
    rw [change, mChangePrior]
    split
    · rfl
    · exact set_cbs_of_ne _ _ h
  | clear k =>
    rw [change, mClear]
    split
    · rfl
    · exact set_cbs_of_ne _ _ h

theorem AllOrdered.change (h : s.AllOrdered) (c : Change κ β) : (s.change c).AllOrdered := by
  cases c with
  | add k aCb aPrior =>
    unfold Events.change mAdd
    dsimp only
    split
    next node hs => exact h.set node _ (Event.ordered_mAdd (h.event hs) aCb aPrior)
    next => exact AllOrdered.set _ _ h (Event.ordered_mAdd ordered_nil aCb aPrior)
  | erase k aCb =>
    unfold Events.change mErase
    dsimp only
    split
    next => exact h
    next node hs =>
      split_ifs
      · exact h.setOrErase node _ (Event.ordered_mErase (h.event hs) aCb)
      · exact h
  | changePrior k aCb aPrior =>
    unfold Events.change mChangePrior
    dsimp only
    split
    next => exact h
    next node hs => exact h.set node _ (Event.ordered_mChangePrior (h.event hs) aCb aPrior)
  | clear k =>
    unfold Events.change mClear
    dsimp only
    split
    next => exact h
    next node hs => exact h.set node _ ordered_nil

theorem AllOrdered.changes (h : s.AllOrdered) (changes : List (Change κ β)) :
    (changes.foldl Events.change s).AllOrdered := by
  induction changes generalizing s with
  | nil => exact h
  | cons c changes ih => exact ih (h.change c)

end Events
end UdtKernel.Callbacks
