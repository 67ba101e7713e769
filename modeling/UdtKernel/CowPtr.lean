import UdtKernel.Lib.Run
import UdtKernel.Lib.SharedCells

set_option autoImplicit false

/-! `CCOWPtr`: pointers that share a value until one of them is written through. -/

namespace UdtKernel.CowPtr
open UdtKernel.Lib

/-- The value of an `implementation_t`, and the allocator that gave its memory. -/
structure Impl (α : Type) where
  val : α
  allocator : ℕ

/-- A `CCOWPtr`: `FAllocator` and `FPtr`. -/
structure Pointer where
  allocator : ℕ
  ptr : Option ℕ

/-- The memory with the counters of the `implementation_t`, and the pointers that are alive. -/
structure World (α : Type) where
  cells : List (Option (SharedCell (Impl α)))
  pointers : List (Option Pointer)

inductive Fault where
  | noPointer
  | deallocated
  | null
  | otherAllocator
  deriving DecidableEq

variable {α : Type}

def start : World α := ⟨[], []⟩

namespace World

variable (w : World α)

def find (o : ℕ) : Option Pointer := w.pointers[o]?.join

def pointer (o : ℕ) : Except Fault Pointer := (w.find o).elim (.error .noPointer) .ok

def cell (i : ℕ) : Except Fault (SharedCell (Impl α)) :=
  (cellAt w.cells i).elim (.error .deallocated) .ok

def setCell (i : ℕ) (c : Option (SharedCell (Impl α))) : World α :=
  { w with cells := w.cells.set i c }

def setPointer (o : ℕ) (x : Option Pointer) : World α :=
  { w with pointers := w.pointers.set o x }

def allocate (allocator : ℕ) (aVal : α) : World α × ℕ :=
  ({ w with cells := w.cells ++ [some ⟨⟨aVal, allocator⟩, 1⟩] }, w.cells.length)

/-- `hold`; the counter has 32 bits. -/
def hold (aVal : Option ℕ) : Except Fault (World α) :=
  match aVal with
  | none => .ok w
  | some i => do
    let c ← w.cell i
    return w.setCell i (some { c with count := (c.count + 1) % 2 ^ 32 })

def release (allocator : ℕ) (aVal : Option ℕ) : Except Fault (World α) :=
  match aVal with
  | none => .ok w
  | some i => do
    let c ← w.cell i
    if c.count ≠ 1 then
      return w.setCell i (some { c with count := (c.count + 2 ^ 32 - 1) % 2 ^ 32 })
    else if c.value.allocator ≠ allocator then throw .otherAllocator
    else return w.setCell i none

/-- `reset`, to a new value. -/
def reset (o : ℕ) (x : Pointer) (aVal : α) : Except Fault (World α) := do
  let (w, new) := w.allocate x.allocator aVal
  let w ← w.release x.allocator x.ptr
  return w.setPointer o (some { x with ptr := some new })

def create (allocator : ℕ) (aVal : α) : World α :=
  let (w, new) := w.allocate allocator aVal
  { w with pointers := w.pointers ++ [some ⟨allocator, some new⟩] }

def copy (r : ℕ) : Except Fault (World α) := do
  let x ← w.pointer r
  let w ← w.hold x.ptr
  return { w with pointers := w.pointers ++ [some x] }

def destroy (o : ℕ) : Except Fault (World α) := do
  let x ← w.pointer o
  let w ← w.release x.allocator x.ptr
  return w.setPointer o none

def assign (o r : ℕ) : Except Fault (World α) := do
  let x ← w.pointer o
  let y ← w.pointer r
  if x.ptr ≠ y.ptr ∨ x.allocator ≠ y.allocator then
    let w ← w.release x.allocator x.ptr
    let w ← w.hold y.ptr
    return w.setPointer o (some y)
  else return w

def set (o : ℕ) (aVal : α) : Except Fault (World α) := do
  let x ← w.pointer o
  match x.ptr with
  | none =>
    let (w, new) := w.allocate x.allocator aVal
    return w.setPointer o (some { x with ptr := some new })
  | some i =>
    let c ← w.cell i
    if c.count = 1 then return w.setCell i (some { c with value := { c.value with val := aVal } })
    else w.reset o x aVal

/-- `MWrite`, and what is then done with the value. -/
def write (o : ℕ) (f : α → α) : Except Fault (World α) := do
  let x ← w.pointer o
  match x.ptr with
  | none => throw .null
  | some i =>
    let c ← w.cell i
    let w ← if c.count ≠ 1 then w.reset o x c.value.val else pure w
    let x ← w.pointer o
    match x.ptr with
    | none => throw .null
    | some i =>
      let c ← w.cell i
      return w.setCell i (some { c with value := { c.value with val := f c.value.val } })

def swap (o r : ℕ) : Except Fault (World α) := do
  let x ← w.pointer o
  let y ← w.pointer r
  if x.ptr ≠ y.ptr ∨ x.allocator ≠ y.allocator then
    return (w.setPointer o (some y)).setPointer r (some x)
  else return w

end World

inductive Op (α : Type) where
  | create (allocator : ℕ) (aVal : α)
  | copy (r : ℕ)
  | destroy (o : ℕ)
  | assign (o r : ℕ)
  | set (o : ℕ) (aVal : α)
  | write (o : ℕ) (f : α → α)
  | swap (o r : ℕ)

def step : Op α → World α → Except Fault (World α)
  | .create allocator aVal, w => .ok (w.create allocator aVal)
  | .copy r, w => w.copy r
  | .destroy o, w => w.destroy o
  | .assign o r, w => w.assign o r
  | .set o aVal, w => w.set o aVal
  | .write o f, w => w.write o f
  | .swap o r, w => w.swap o r

def World.alive (w : World α) : ℕ := w.pointers.countP Option.isSome

/-- The pointers of an operation are alive, and there are less pointers than a counter counts. -/
def Enabled (w : World α) : Op α → Prop
  | .create _ _ => w.alive + 1 < 2 ^ 32
  | .copy r => w.alive + 1 < 2 ^ 32 ∧ (w.find r).isSome
  | .destroy o | .set o _ | .write o _ => (w.find o).isSome
  | .assign o r | .swap o r => (w.find o).isSome ∧ (w.find r).isSome

instance (w : World α) : (op : Op α) → Decidable (Enabled w op)
  | .create _ _ => inferInstanceAs (Decidable (w.alive + 1 < 2 ^ 32))
  | .copy r => inferInstanceAs (Decidable (w.alive + 1 < 2 ^ 32 ∧ (w.find r).isSome))
  | .destroy o | .set o _ | .write o _ => inferInstanceAs (Decidable ((w.find o).isSome = true))
  | .assign o r | .swap o r =>
    inferInstanceAs (Decidable ((w.find o).isSome = true ∧ (w.find r).isSome = true))

abbrev Values (α : Type) := List (Option (ℕ × α))

def Values.step (l : Values α) : Op α → Values α
  | .create allocator aVal => l ++ [some (allocator, aVal)]
  | .copy r => l ++ [l[r]?.join]
  | .destroy o => l.set o none
  | .assign o r => l.set o l[r]?.join
  | .set o aVal => l.set o (l[o]?.join.map fun x => (x.1, aVal))
  | .write o f => l.set o (l[o]?.join.map fun x => (x.1, f x.2))
  | .swap o r => (l.set o l[r]?.join).set r l[o]?.join

def World.valueOf (w : World α) (x : Option Pointer) : Option (ℕ × α) :=
  x.bind fun x => x.ptr.bind fun i => (cellAt w.cells i).map fun c => (x.allocator, c.value.val)

def World.values (w : World α) : Values α := w.pointers.map w.valueOf

/-- `FPtr` of every pointer. -/
def World.held (w : World α) : List (Option ℕ) := w.pointers.map fun x => x.bind Pointer.ptr

/-- A pointer has a value that its own allocator gave the memory for. -/
def Owns (cells : List (Option (SharedCell (Impl α)))) (x : Pointer) : Prop :=
  ∃ i c, x.ptr = some i ∧ cellAt cells i = some c ∧ c.value.allocator = x.allocator

structure Inv (w : World α) : Prop where
  counts : CountsHolders w.cells w.held
  few : w.alive < 2 ^ 32
  owns : ∀ o x, w.find o = some x → Owns w.cells x

/-- The values that somebody holds are as they were. -/
def Steady (cells cells' : List (Option (SharedCell (Impl α)))) (held : List (Option ℕ)) : Prop :=
  ∀ j, 0 < held.count (some j) →
    (cellAt cells' j).map SharedCell.value = (cellAt cells j).map SharedCell.value

structure Becomes (w : World α) (o : ℕ) (x : Option Pointer) (w' : World α) : Prop where
  pointers : w'.pointers = w.pointers.set o x
  counts : CountsHolders w'.cells w'.held
  steady : Steady w.cells w'.cells (w.held.set o none)

section
variable {w w' w'' : World α} {o p i : ℕ} {x y : Pointer} {z : Option Pointer}
variable {c : SharedCell (Impl α)} {cells : List (Option (SharedCell (Impl α)))}
variable {held : List (Option ℕ)}

theorem getElem_of_find (h : w.find o = some x) : w.pointers[o]? = some (some x) :=
  Option.join_eq_some_iff.1 h

theorem pointer_eq (h : w.find o = some x) : w.pointer o = .ok x := by
  unfold World.pointer
  rw [h]
  rfl

theorem cell_eq (h : cellAt w.cells i = some c) : w.cell i = .ok c := by
  unfold World.cell
  rw [h]
  rfl

theorem held_eq (h : w.find o = some x) : w.held[o]? = some x.ptr := by
  unfold World.held
  rw [List.getElem?_map, getElem_of_find h]
  rfl

theorem held_set (h : w'.pointers = w.pointers.set o z) :
    w'.held = w.held.set o (z.bind Pointer.ptr) := by
  unfold World.held
  rw [h, List.map_set]

theorem alive_set {z' : Option Pointer} (ho : w.pointers[o]? = some z)
    (h : w'.pointers = w.pointers.set o z') :
    w'.alive + (if z.isSome then 1 else 0) = w.alive + if z'.isSome then 1 else 0 := by
  obtain ⟨hlt, hget⟩ := List.getElem?_eq_some_iff.1 ho
  have hpos : z.isSome → 0 < w.pointers.countP Option.isSome := fun hz =>
    List.countP_pos_iff.2 ⟨z, hget ▸ List.getElem_mem hlt, hz⟩
  unfold World.alive
  rw [h, List.countP_set hlt, hget]
  split_ifs with hz hz' hz'
  all_goals
    try have hpos := hpos hz
    omega

theorem count_le_alive (w : World α) (i : ℕ) : w.held.count (some i) ≤ w.alive := by
  unfold World.held World.alive List.count
  rw [List.countP_map]
  refine List.countP_mono_left fun x _ hx => ?_
  cases x with
  | none => cases hx
  | some x => rfl

theorem find_of_set (h : w'.pointers = w.pointers.set o z) (hp : p ≠ o) : w'.find p = w.find p := by
  unfold World.find
  rw [h, List.getElem?_set_ne hp.symm]

theorem valueOf_eq (hptr : x.ptr = some i) (hc : cellAt w.cells i = some c) :
    w.valueOf (some x) = some (x.allocator, c.value.val) := by
  unfold World.valueOf
  rw [Option.bind_some, hptr, Option.bind_some, hc]
  rfl

theorem values_join (w : World α) (o : ℕ) : w.values[o]?.join = w.valueOf (w.find o) := by
  unfold World.values World.find
  rw [List.getElem?_map]
  cases w.pointers[o]? with
  | none => rfl
  | some x => rfl

/-- What is read depends on the values only. -/
theorem valueOf_congr (h : ∀ j, x.ptr = some j →
      (cellAt w'.cells j).map SharedCell.value = (cellAt w.cells j).map SharedCell.value) :
    w'.valueOf (some x) = w.valueOf (some x) := by
  unfold World.valueOf
  rw [Option.bind_some, Option.bind_some]
  cases hptr : x.ptr with
  | none => rfl
  | some j =>
    have hvalue := congrArg (Option.map fun v => (x.allocator, v.val)) (h j hptr)
    rw [Option.map_map, Option.map_map] at hvalue
    exact hvalue

theorem owns_congr (hx : Owns cells x) (h : ∀ j, x.ptr = some j →
    (cellAt w.cells j).map SharedCell.value = (cellAt cells j).map SharedCell.value) :
    Owns w.cells x := by
  obtain ⟨i, c, hptr, hc, hown⟩ := hx
  have hvalue := h i hptr
  rw [hc] at hvalue
  obtain ⟨d, hd, hsame⟩ := Option.map_eq_some_iff.1 hvalue
  exact ⟨i, d, hptr, hd, by rw [hsame, hown]⟩

theorem count_other (hp : p ≠ o) (hy : w.find p = some y) (hj : y.ptr = some i) :
    0 < (w.held.set o none).count (some i) := by
  refine List.count_pos_iff.2 (List.mem_of_getElem? (i := p) ?_)
  rw [List.getElem?_set_ne hp.symm, held_eq hy, hj]

namespace Becomes

theorem inv (h : Becomes w o z w') (hw : Inv w) (hfew : w'.alive < 2 ^ 32)
    (hz : ∀ y ∈ z, Owns w'.cells y) : Inv w' := by
  refine ⟨h.counts, hfew, fun p y hy => ?_⟩
  by_cases hp : p = o
  · have hmem := getElem_of_find hy
    rw [h.pointers, hp] at hmem
    obtain ⟨hlt, hget⟩ := List.getElem?_eq_some_iff.1 hmem
    rw [List.getElem_set_self] at hget
    exact hz y hget
  · rw [find_of_set h.pointers hp] at hy
    exact owns_congr (hw.owns p y hy) fun j hj => h.steady j (count_other hp hy hj)

/-- A pointer that is alive gives way to another one, or to none. -/
theorem few (h : Becomes w o z w') (hw : Inv w) (hx : w.find o = some x) : w'.alive < 2 ^ 32 := by
  have halive := alive_set (getElem_of_find hx) h.pointers
  have hfew := hw.few
  simp only [Option.isSome_some, if_true] at halive
  split_ifs at halive <;> omega

theorem values (h : Becomes w o z w') : w'.values = w.values.set o (w'.valueOf z) := by
  unfold World.values
  rw [h.pointers, List.map_set]
  refine List.ext_getElem? fun p => ?_
  by_cases hp : p = o
  · rw [hp]
    by_cases hlt : o < w.pointers.length
    · rw [List.getElem?_set_self (by rwa [List.length_map]),
        List.getElem?_set_self (by rwa [List.length_map])]
    · rw [List.getElem?_eq_none (by rw [List.length_set, List.length_map]; omega),
        List.getElem?_eq_none (by rw [List.length_set, List.length_map]; omega)]
  · rw [List.getElem?_set_ne (Ne.symm hp), List.getElem?_set_ne (Ne.symm hp), List.getElem?_map,
      List.getElem?_map]
    cases hx : w.pointers[p]? with
    | none => rfl
    | some x =>
      cases x with
      | none => rfl
      | some y =>
        have hfind : w.find p = some y := Option.join_eq_some_iff.2 hx
        exact congrArg some (valueOf_congr fun j hj => h.steady j (count_other hp hfind hj))

end Becomes

theorem count_drop (h : CountsHolders cells held) (hc : cellAt cells i = some c)
    (ho : held[o]? = some (some i)) : (held.set o none).count (some i) + 1 = c.count := by
  have hset := count_set_holder ho none (some i)
  have hcount := (h.count_eq hc).1
  simp only [if_true, reduceCtorEq, if_false] at hset
  omega

/-- A counter that is decremented, and a cell that is deallocated with its last holder. -/
def dropped (c : SharedCell (Impl α)) : Option (SharedCell (Impl α)) :=
  if c.count = 1 then none else some { c with count := c.count - 1 }

theorem steady_drop (h : CountsHolders cells held) (hc : cellAt cells i = some c)
    (ho : held[o]? = some (some i)) :
    Steady cells (cells.set i (dropped c)) (held.set o none) := by
  intro j hj
  by_cases hji : j = i
  · have hcount := count_drop h hc ho
    rw [hji] at hj
    rw [hji, cellAt_set_self hc, hc]
    unfold dropped
    rw [if_neg (by omega)]
    rfl
  · rw [cellAt_set_of_ne hji]

theorem release_eq (hc : cellAt w.cells i = some c) (hpos : 0 < c.count) (hlt : c.count < 2 ^ 32)
    {a : ℕ} (hown : c.value.allocator = a) :
    w.release a (some i) = .ok (w.setCell i (dropped c)) := by
  unfold dropped
  dsimp only [World.release]
  rw [cell_eq hc]
  change (if c.count ≠ 1 then _ else _) = _
  by_cases hone : c.count = 1
  · rw [if_neg (not_not.2 hone), if_neg (not_not.2 hown), if_pos hone]
    rfl
  · rw [if_pos hone, if_neg hone]
    have hmod : (c.count + 2 ^ 32 - 1) % 2 ^ 32 = c.count - 1 := by omega
    rw [hmod]
    rfl

theorem hold_eq (hc : cellAt w.cells i = some c) (hlt : c.count + 1 < 2 ^ 32) :
    w.hold (some i) = .ok (w.setCell i (some { c with count := c.count + 1 })) := by
  dsimp only [World.hold]
  rw [cell_eq hc]
  change Except.ok _ = _
  rw [Nat.mod_eq_of_lt hlt]

theorem Inv.count_le (h : Inv w) (hc : cellAt w.cells i = some c) :
    0 < c.count ∧ c.count ≤ w.alive := by
  obtain ⟨hcount, hpos⟩ := h.counts.count_eq hc
  have hle := count_le_alive w i
  omega

namespace Becomes

theorem trans {z' : Option Pointer} (h : Becomes w o z w') (h' : Becomes w' o z' w'') :
    Becomes w o z' w'' := by
  have hheld : w'.held.set o none = w.held.set o none := by
    rw [held_set h.pointers, List.set_set]
  refine ⟨?_, h'.counts, fun j hj => ?_⟩
  · rw [h'.pointers, h.pointers, List.set_set]
  · exact (h'.steady j (hheld ▸ hj)).trans (h.steady j hj)

theorem drop (hw : Inv w) (hx : w.find o = some x) (hptr : x.ptr = some i)
    (hc : cellAt w.cells i = some c) :
    Becomes w o none ((w.setCell i (dropped c)).setPointer o none) := by
  have ho : w.held[o]? = some (some i) := by rw [held_eq hx, hptr]
  refine ⟨rfl, ?_, steady_drop hw.counts hc ho⟩
  rw [held_set (w := w) (z := none) rfl]
  exact hw.counts.drop hc ho

theorem hold (h : CountsHolders w.cells w.held) (ho : w.pointers[o]? = some none)
    (hptr : x.ptr = some i) (hc : cellAt w.cells i = some c) :
    Becomes w o (some x)
      ((w.setCell i (some { c with count := c.count + 1 })).setPointer o (some x)) := by
  have hnone : w.held[o]? = some none := by
    unfold World.held
    rw [List.getElem?_map, ho]
    rfl
  refine ⟨rfl, ?_, fun j _ => ?_⟩
  · rw [held_set (w := w) (z := some x) rfl, Option.bind_some, hptr]
    exact h.hold hc hnone
  · change (cellAt (w.cells.set i _) j).map _ = _
    by_cases hji : j = i
    · rw [hji, cellAt_set_self hc, hc]
      rfl
    · rw [cellAt_set_of_ne hji]

theorem fresh (h : CountsHolders w.cells w.held) (ho : w.pointers[o]? = some none)
    (a : ℕ) (v : α) :
    Becomes w o (some ⟨a, some w.cells.length⟩)
      ((w.allocate a v).1.setPointer o (some ⟨a, some w.cells.length⟩)) := by
  have hnone : w.held[o]? = some none := by
    unfold World.held
    rw [List.getElem?_map, ho]
    rfl
  refine ⟨rfl, ?_, fun j hj => ?_⟩
  · rw [held_set (w := w) (z := some ⟨a, some w.cells.length⟩) rfl]
    exact h.fresh hnone ⟨v, a⟩
  · have hne : j ≠ w.cells.length := by
      intro heq
      have hset := count_set_holder hnone none (some j)
      have hzero := h.not_held (i := w.cells.length) cellAt_length
      rw [heq] at hj hset
      simp only [reduceCtorEq, if_false] at hset
      omega
    exact congrArg (Option.map SharedCell.value) (cellAt_concat_of_ne hne _)

/-- The value of a cell that no other pointer has is another one. -/
theorem alter (hw : Inv w) (hx : w.find o = some x) (hptr : x.ptr = some i)
    (hc : cellAt w.cells i = some c) (hone : c.count = 1) (v : Impl α) :
    Becomes w o (some x) (w.setCell i (some { c with value := v })) := by
  have ho : w.held[o]? = some (some i) := by rw [held_eq hx, hptr]
  have hself : w.pointers = w.pointers.set o (some x) := by
    obtain ⟨hlt, hget⟩ := List.getElem?_eq_some_iff.1 (getElem_of_find hx)
    rw [← hget, List.set_getElem_self]
  refine ⟨hself, hw.counts.alter hc v, fun j hj => ?_⟩
  have hne : j ≠ i := by
    intro heq
    have hcount := count_drop hw.counts hc ho
    rw [heq] at hj
    omega
  exact congrArg (Option.map SharedCell.value) (cellAt_set_of_ne hne _)

end Becomes

/-- An operation ends well, and does to the values what it does to plain ones. -/
def Does (w : World α) (op : Op α) : Prop :=
  ∃ w', step op w = .ok w' ∧ Inv w' ∧ w'.values = w.values.step op

theorem Inv.cell_of_find (hw : Inv w) (hx : w.find o = some x) :
    ∃ i c, x.ptr = some i ∧ cellAt w.cells i = some c ∧ c.value.allocator = x.allocator ∧
      0 < c.count ∧ c.count < 2 ^ 32 := by
  obtain ⟨i, c, hptr, hc, hown⟩ := hw.owns o x hx
  obtain ⟨hpos, hle⟩ := hw.count_le hc
  exact ⟨i, c, hptr, hc, hown, hpos, Nat.lt_of_le_of_lt hle hw.few⟩

/-- `w` with one pointer more, that has nothing yet. -/
def World.join (w : World α) : World α := { w with pointers := w.pointers ++ [none] }

theorem join_held : w.join.held = w.held ++ [none] := by
  unfold World.held World.join
  rw [List.map_append]
  rfl

theorem join_values : w.join.values = w.values ++ [none] := by
  unfold World.values
  exact List.map_append

theorem join_getElem : w.join.pointers[w.pointers.length]? = some none :=
  List.getElem?_concat_length

theorem join_alive : w.join.alive = w.alive := by
  unfold World.alive World.join
  rw [List.countP_append]
  rfl

theorem Inv.join (hw : Inv w) : Inv w.join := by
  have hfew : w.join.alive < 2 ^ 32 := by
    rw [join_alive]
    exact hw.few
  refine ⟨join_held ▸ hw.counts.join, hfew, fun p y hy => ?_⟩
  have hp : p ≠ w.pointers.length := by
    intro hp
    unfold World.find at hy
    rw [hp, join_getElem] at hy
    cases hy
  refine hw.owns p y ?_
  unfold World.find World.join at hy
  rcases Nat.lt_or_ge p w.pointers.length with hlt | hge
  · rwa [List.getElem?_append_left hlt] at hy
  · rw [List.getElem?_eq_none (by rw [List.length_append, List.length_singleton]; omega)] at hy
    cases hy

theorem Becomes.few_join (h : Becomes w.join w.pointers.length z w')
    (hfew : w.alive + 1 < 2 ^ 32) : w'.alive < 2 ^ 32 := by
  have halive := alive_set join_getElem h.pointers
  rw [join_alive] at halive
  simp only [Option.isSome_none, Bool.false_eq_true, if_false] at halive
  split_ifs at halive <;> omega

/-- The last pointer is the new one. -/
theorem Becomes.values_join (h : Becomes w.join w.pointers.length z w') :
    w'.values = w.values ++ [w'.valueOf z] := by
  have hlength : w.pointers.length = w.values.length := (List.length_map _).symm
  rw [h.values, join_values, hlength, List.set_append_right _ _ (Nat.le_refl _), Nat.sub_self]
  rfl

theorem create_does (hw : Inv w) (a : ℕ) (v : α) (h : Enabled w (.create a v)) :
    Does w (.create a v) := by
  have hjoin := hw.join
  have hnew := Becomes.fresh hjoin.counts join_getElem a v
  have heq : (w.join.allocate a v).1.setPointer w.pointers.length
      (some ⟨a, some w.join.cells.length⟩) = w.create a v := by
    unfold World.create World.setPointer World.allocate World.join
    dsimp only
    rw [List.set_append_right _ _ (Nat.le_refl _), Nat.sub_self]
    rfl
  rw [heq] at hnew
  have hc : cellAt (w.create a v).cells w.cells.length = some ⟨⟨v, a⟩, 1⟩ := cellAt_concat_self _
  refine ⟨_, rfl, hnew.inv hjoin (hnew.few_join h) fun y hy => ?_, ?_⟩
  · obtain rfl := Option.some.inj hy
    exact ⟨_, _, rfl, hc, rfl⟩
  · rw [hnew.values_join, valueOf_eq rfl hc]
    rfl

theorem copy_does (hw : Inv w) (r : ℕ) (h : Enabled w (.copy r)) : Does w (.copy r) := by
  obtain ⟨hfew, hsome⟩ := h
  obtain ⟨x, hx⟩ := Option.isSome_iff_exists.1 hsome
  obtain ⟨i, c, hptr, hc, hown, -, -⟩ := hw.cell_of_find hx
  have hjoin := hw.join
  have hlt : c.count + 1 < 2 ^ 32 := by
    have := (hw.count_le hc).2
    omega
  have hnew := Becomes.hold hjoin.counts join_getElem hptr hc
  have hstep : step (.copy r) w = .ok ((w.join.setCell i
      (some { c with count := c.count + 1 })).setPointer w.pointers.length (some x)) := by
    dsimp only [step, World.copy]
    rw [pointer_eq hx]
    change (do let w ← w.hold x.ptr; _) = _
    rw [hptr, hold_eq hc hlt]
    refine congrArg Except.ok ?_
    unfold World.setPointer World.setCell World.join
    dsimp only
    rw [List.set_append_right _ _ (Nat.le_refl _), Nat.sub_self]
    rfl
  have hcell := cellAt_set_self hc (some { c with count := c.count + 1 })
  refine ⟨_, hstep, hnew.inv hjoin (hnew.few_join hfew) fun y hy => ?_, ?_⟩
  · obtain rfl := Option.some.inj hy
    exact ⟨i, _, hptr, hcell, hown⟩
  · rw [hnew.values_join, valueOf_eq hptr hcell]
    change _ = w.values ++ [w.values[r]?.join]
    rw [values_join, hx, valueOf_eq hptr hc]

theorem destroy_does (hw : Inv w) (o : ℕ) (h : Enabled w (.destroy o)) : Does w (.destroy o) := by
  obtain ⟨x, hx⟩ := Option.isSome_iff_exists.1 h
  obtain ⟨i, c, hptr, hc, hown, hpos, hlt⟩ := hw.cell_of_find hx
  have hnew := Becomes.drop hw hx hptr hc
  refine ⟨_, ?_, hnew.inv hw (hnew.few hw hx) (fun y hy => by cases hy), hnew.values⟩
  dsimp only [step, World.destroy]
  rw [pointer_eq hx]
  change (do let w ← w.release x.allocator x.ptr; _) = _
  rw [hptr, release_eq hc hpos hlt hown]
  rfl

theorem values_getElem (h : w.find o = some x) : w.values[o]? = some (w.valueOf (some x)) := by
  unfold World.values
  rw [List.getElem?_map, getElem_of_find h]
  rfl

theorem values_set_self (h : w.find o = some x) :
    w.values.set o (w.valueOf (some x)) = w.values := by
  obtain ⟨hlt, hget⟩ := List.getElem?_eq_some_iff.1 (values_getElem h)
  rw [← hget, List.set_getElem_self]

theorem assign_does (hw : Inv w) (o r : ℕ) (h : Enabled w (.assign o r)) :
    Does w (.assign o r) := by
  obtain ⟨hfirst, hsecond⟩ := h
  obtain ⟨x, hx⟩ := Option.isSome_iff_exists.1 hfirst
  obtain ⟨y, hy⟩ := Option.isSome_iff_exists.1 hsecond
  obtain ⟨i, c, hptr, hc, hown, hpos, hlt⟩ := hw.cell_of_find hx
  obtain ⟨j, d, hptr', hd, hown', hpos', hlt'⟩ := hw.cell_of_find hy
  unfold Does
  dsimp only [step, World.assign]
  rw [pointer_eq hx, pointer_eq hy]
  change ∃ w', (if x.ptr ≠ y.ptr ∨ x.allocator ≠ y.allocator then _ else _) = _ ∧ _
  by_cases hne : x.ptr ≠ y.ptr ∨ x.allocator ≠ y.allocator
  · -- two pointers to one cell have its allocator, so the cells differ
    have hij : j ≠ i := by
      intro heq
      rw [heq, hc] at hd
      obtain rfl := Option.some.inj hd
      rw [hptr, hptr', heq, ← hown, ← hown'] at hne
      simp only [ne_eq, not_true_eq_false, or_self] at hne
    have hdrop := Becomes.drop hw hx hptr hc
    have hd' : cellAt (w.setCell i (dropped c)).cells j = some d := by
      rw [← hd]
      exact cellAt_set_of_ne hij _
    have hnone : ((w.setCell i (dropped c)).setPointer o none).pointers[o]? = some none := by
      obtain ⟨hlt, -⟩ := List.getElem?_eq_some_iff.1 (getElem_of_find hx)
      exact List.getElem?_set_self hlt
    have hnew := hdrop.trans (Becomes.hold hdrop.counts hnone hptr' hd')
    have hroom : d.count + 1 < 2 ^ 32 := by
      have hle := count_le_alive ((w.setCell i (dropped c)).setPointer o none) j
      have hcount := (hdrop.counts.count_eq hd').1
      have halive := alive_set (getElem_of_find hx) hdrop.pointers
      have hfew := hw.few
      simp only [Option.isSome_some, Option.isSome_none, Bool.false_eq_true, if_true, if_false]
        at halive
      omega
    have hcell := cellAt_set_self hd' (some { d with count := d.count + 1 })
    rw [if_pos hne, hptr, release_eq hc hpos hlt hown, hptr']
    refine ⟨_, ?_, hnew.inv hw (hnew.few hw hx) fun z hz => ?_, ?_⟩
    · change (do let w ← (w.setCell i (dropped c)).hold (some j); _) = _
      rw [hold_eq hd' hroom]
      refine congrArg Except.ok ?_
      unfold World.setPointer World.setCell
      dsimp only
      rw [List.set_set]
    · obtain rfl := Option.some.inj hz
      exact ⟨j, _, hptr', hcell, hown'⟩
    · rw [hnew.values, valueOf_eq hptr' hcell]
      change _ = w.values.set o w.values[r]?.join
      rw [values_join, hy, valueOf_eq hptr' hd]
  · rw [if_neg hne]
    rw [not_or, not_not, not_not] at hne
    have hxy : y = x := by
      obtain ⟨a, p⟩ := x
      obtain ⟨b, q⟩ := y
      exact congrArg₂ Pointer.mk hne.2.symm hne.1.symm
    refine ⟨w, rfl, hw, ?_⟩
    change _ = w.values.set o w.values[r]?.join
    rw [values_join, hy, hxy, values_set_self hx]

/-- `reset`: the old value is let go of, and the new one has the pointer only. -/
theorem reset_becomes (hw : Inv w) (hx : w.find o = some x) (v : α) :
    ∃ w', w.reset o x v = .ok w' ∧ Becomes w o (some { x with ptr := some w.cells.length }) w' ∧
      cellAt w'.cells w.cells.length = some ⟨⟨v, x.allocator⟩, 1⟩ := by
  obtain ⟨i, c, hptr, hc, hown, hpos, hlt⟩ := hw.cell_of_find hx
  have hdrop := Becomes.drop hw hx hptr hc
  have hnone : ((w.setCell i (dropped c)).setPointer o none).pointers[o]? = some none := by
    obtain ⟨hlt, -⟩ := List.getElem?_eq_some_iff.1 (getElem_of_find hx)
    exact List.getElem?_set_self hlt
  have hnew := hdrop.trans (Becomes.fresh hdrop.counts hnone x.allocator v)
  have hlength : ((w.setCell i (dropped c)).setPointer o none).cells.length = w.cells.length :=
    List.length_set
  rw [hlength] at hnew
  have hilt := lt_of_cellAt hc
  have hc' : cellAt (w.allocate x.allocator v).1.cells i = some c := by
    rw [← hc]
    exact cellAt_concat_of_ne (Nat.ne_of_lt hilt) _
  refine ⟨_, ?_, hnew, ?_⟩
  · dsimp only [World.reset]
    rw [hptr, release_eq hc' hpos hlt hown]
    refine congrArg Except.ok ?_
    unfold World.setPointer World.setCell World.allocate
    dsimp only
    rw [List.set_append_left _ _ hilt, List.set_set]
  · change cellAt (w.cells.set i (dropped c) ++ _) _ = _
    rw [← hlength]
    exact cellAt_concat_self _

theorem set_eq (hx : w.find o = some x) (hptr : x.ptr = some i) (hc : cellAt w.cells i = some c)
    (v : α) :
    w.set o v =
      if c.count = 1 then .ok (w.setCell i (some { c with value := { c.value with val := v } }))
      else w.reset o x v := by
  dsimp only [World.set]
  rw [pointer_eq hx]
  dsimp only [bind, Except.bind]
  rw [hptr]
  dsimp only
  rw [cell_eq hc]
  rfl

theorem set_does (hw : Inv w) (o : ℕ) (v : α) (h : Enabled w (.set o v)) : Does w (.set o v) := by
  obtain ⟨x, hx⟩ := Option.isSome_iff_exists.1 h
  obtain ⟨i, c, hptr, hc, hown, -, -⟩ := hw.cell_of_find hx
  have hvalue : w.values[o]?.join = some (x.allocator, c.value.val) := by
    rw [values_join, hx, valueOf_eq hptr hc]
  unfold Does
  dsimp only [step]
  rw [set_eq hx hptr hc]
  by_cases hone : c.count = 1
  · have hnew := Becomes.alter hw hx hptr hc hone { c.value with val := v }
    have hcell := cellAt_set_self hc (some { c with value := { c.value with val := v } })
    rw [if_pos hone]
    refine ⟨_, rfl, hnew.inv hw (hnew.few hw hx) fun z hz => ?_, ?_⟩
    · obtain rfl := Option.some.inj hz
      exact ⟨i, _, hptr, hcell, hown⟩
    · rw [hnew.values, valueOf_eq hptr hcell]
      change _ = w.values.set o (w.values[o]?.join.map _)
      rw [hvalue]
      rfl
  · obtain ⟨w', hreset, hnew, hcell⟩ := reset_becomes hw hx v
    rw [if_neg hone]
    refine ⟨w', hreset, hnew.inv hw (hnew.few hw hx) fun z hz => ?_, ?_⟩
    · obtain rfl := Option.some.inj hz
      exact ⟨_, _, rfl, hcell, rfl⟩
    · rw [hnew.values, valueOf_eq rfl hcell]
      change _ = w.values.set o (w.values[o]?.join.map _)
      rw [hvalue]
      rfl

theorem write_sole (hx : w.find o = some x) (hptr : x.ptr = some i)
    (hc : cellAt w.cells i = some c) (hone : c.count = 1) (f : α → α) :
    w.write o f =
      .ok (w.setCell i (some { c with value := { c.value with val := f c.value.val } })) := by
  dsimp only [World.write]
  rw [pointer_eq hx]
  dsimp only [bind, Except.bind]
  rw [hptr]
  dsimp only
  rw [cell_eq hc]
  dsimp only
  rw [if_neg (not_not.2 hone)]
  dsimp only [pure, Except.pure]
  rw [pointer_eq hx]
  dsimp only
  rw [hptr]
  dsimp only
  rw [cell_eq hc]

theorem write_shared (hx : w.find o = some x) (hptr : x.ptr = some i)
    (hc : cellAt w.cells i = some c) (hone : c.count ≠ 1)
    (hreset : w.reset o x c.value.val = .ok w') {y : Pointer} {j : ℕ} {d : SharedCell (Impl α)}
    (hy : w'.find o = some y) (hptr' : y.ptr = some j) (hd : cellAt w'.cells j = some d)
    (f : α → α) :
    w.write o f =
      .ok (w'.setCell j (some { d with value := { d.value with val := f d.value.val } })) := by
  dsimp only [World.write]
  rw [pointer_eq hx]
  dsimp only [bind, Except.bind]
  rw [hptr]
  dsimp only
  rw [cell_eq hc]
  dsimp only
  rw [if_pos hone, hreset]
  dsimp only
  rw [pointer_eq hy]
  dsimp only
  rw [hptr']
  dsimp only
  rw [cell_eq hd]
  rfl

theorem Becomes.find_self (h : Becomes w o (some y) w') (hx : w.find o = some x) :
    w'.find o = some y := by
  obtain ⟨hlt, -⟩ := List.getElem?_eq_some_iff.1 (getElem_of_find hx)
  unfold World.find
  rw [h.pointers, List.getElem?_set_self hlt]
  rfl

theorem write_does (hw : Inv w) (o : ℕ) (f : α → α) (h : Enabled w (.write o f)) :
    Does w (.write o f) := by
  obtain ⟨x, hx⟩ := Option.isSome_iff_exists.1 h
  obtain ⟨i, c, hptr, hc, hown, -, -⟩ := hw.cell_of_find hx
  have hvalue : w.values[o]?.join = some (x.allocator, c.value.val) := by
    rw [values_join, hx, valueOf_eq hptr hc]
  by_cases hone : c.count = 1
  · have hnew := Becomes.alter hw hx hptr hc hone { c.value with val := f c.value.val }
    have hcell :=
      cellAt_set_self hc (some { c with value := { c.value with val := f c.value.val } })
    refine ⟨_, write_sole hx hptr hc hone f, hnew.inv hw (hnew.few hw hx) fun z hz => ?_, ?_⟩
    · obtain rfl := Option.some.inj hz
      exact ⟨i, _, hptr, hcell, hown⟩
    · rw [hnew.values, valueOf_eq hptr hcell]
      change _ = w.values.set o (w.values[o]?.join.map _)
      rw [hvalue]
      rfl
  · -- the value is copied first, and the copy has this pointer only
    obtain ⟨w', hreset, hbecomes, hfresh⟩ := reset_becomes hw hx c.value.val
    have hw' : Inv w' := hbecomes.inv hw (hbecomes.few hw hx) fun z hz => by
      obtain rfl := Option.some.inj hz
      exact ⟨_, _, rfl, hfresh, rfl⟩
    have hx' := hbecomes.find_self hx
    have hnew := hbecomes.trans
      (Becomes.alter hw' hx' rfl hfresh rfl ⟨f c.value.val, x.allocator⟩)
    have hcell := cellAt_set_self hfresh (some ⟨⟨f c.value.val, x.allocator⟩, 1⟩)
    refine ⟨_, write_shared hx hptr hc hone hreset hx' rfl hfresh f,
      hnew.inv hw (hnew.few hw hx) fun z hz => ?_, ?_⟩
    · obtain rfl := Option.some.inj hz
      exact ⟨_, _, rfl, hcell, rfl⟩
    · rw [hnew.values, valueOf_eq rfl hcell]
      change _ = w.values.set o (w.values[o]?.join.map _)
      rw [hvalue]
      rfl

theorem swap_does (hw : Inv w) (o r : ℕ) (h : Enabled w (.swap o r)) : Does w (.swap o r) := by
  obtain ⟨hfirst, hsecond⟩ := h
  obtain ⟨x, hx⟩ := Option.isSome_iff_exists.1 hfirst
  obtain ⟨y, hy⟩ := Option.isSome_iff_exists.1 hsecond
  unfold Does
  dsimp only [step, World.swap]
  rw [pointer_eq hx, pointer_eq hy]
  dsimp only [bind, Except.bind]
  by_cases hne : x.ptr ≠ y.ptr ∨ x.allocator ≠ y.allocator
  · have hro : r ≠ o := by
      intro heq
      rw [heq, hx] at hy
      obtain rfl := Option.some.inj hy
      simp only [ne_eq, not_true_eq_false, or_self] at hne
    rw [if_pos hne]
    refine ⟨_, rfl, ⟨?_, ?_, fun p z hz => ?_⟩, ?_⟩
    · have hheld : ((w.setPointer o (some y)).setPointer r (some x)).held =
          (w.held.set o y.ptr).set r x.ptr := by
        rw [held_set (w := w.setPointer o (some y)) rfl, held_set (w := w) (o := o) rfl]
        rfl
      rw [hheld]
      exact hw.counts.exchange (held_eq hx) (held_eq hy) hro
    · have halive := alive_set (getElem_of_find hx)
        (rfl : (w.setPointer o (some y)).pointers = w.pointers.set o (some y))
      have hy' : (w.setPointer o (some y)).pointers[r]? = some (some y) :=
        (List.getElem?_set_ne hro.symm).trans (getElem_of_find hy)
      have halive' := alive_set hy'
        (rfl : ((w.setPointer o (some y)).setPointer r (some x)).pointers =
        (w.setPointer o (some y)).pointers.set r (some x))
      have hfew := hw.few
      simp only [Option.isSome_some, if_true] at halive halive'
      omega
    · have hmem := List.mem_of_getElem? (getElem_of_find hz)
      change some z ∈ (w.pointers.set o (some y)).set r (some x) at hmem
      rcases List.mem_or_eq_of_mem_set hmem with hmem | hz'
      · rcases List.mem_or_eq_of_mem_set hmem with hmem | hz'
        · obtain ⟨q, hq⟩ := List.mem_iff_getElem?.1 hmem
          exact hw.owns q z (Option.join_eq_some_iff.2 hq)
        · obtain rfl := Option.some.inj hz'
          exact hw.owns r z hy
      · obtain rfl := Option.some.inj hz'
        exact hw.owns o z hx
    · change ((w.pointers.set o (some y)).set r (some x)).map w.valueOf =
        (w.values.set o w.values[r]?.join).set r w.values[o]?.join
      rw [List.map_set, List.map_set, values_join, values_join, hx, hy]
      rfl
  · rw [if_neg hne]
    rw [not_or, not_not, not_not] at hne
    have hxy : y = x := by
      obtain ⟨a, p⟩ := x
      obtain ⟨b, q⟩ := y
      exact congrArg₂ Pointer.mk hne.2.symm hne.1.symm
    refine ⟨w, rfl, hw, ?_⟩
    change _ = (w.values.set o w.values[r]?.join).set r w.values[o]?.join
    rw [values_join, values_join, hx, hy, hxy, values_set_self hx, ← hxy, values_set_self hy]

theorem step_does (hw : Inv w) (op : Op α) (h : Enabled w op) : Does w op := by
  cases op with
  | create a v => exact create_does hw a v h
  | copy r => exact copy_does hw r h
  | destroy o => exact destroy_does hw o h
  | assign o r => exact assign_does hw o r h
  | set o v => exact set_does hw o v h
  | write o f => exact write_does hw o f h
  | swap o r => exact swap_does hw o r h

theorem start_inv : Inv (start : World α) := by
  refine ⟨fun i => rfl, Nat.two_pow_pos 32, fun o x hx => ?_⟩
  cases hx

end

/-- Pointers that share their values are used as plain values, whose memory is there as long as
somebody has them. -/
theorem run_values (ops : List (Op α)) (h : EveryStep step Enabled ops start) :
    ∃ w, runAll step ops start = .ok w ∧ w.values = ops.foldl Values.step [] ∧
      CountsHolders w.cells w.held := by
  obtain ⟨w, hrun, hw, hvalues⟩ := runAll_simulates (g := Values.step)
    (fun w op hw hop => step_does hw op hop) start_inv h
  exact ⟨w, hrun, hvalues, hw.counts⟩

/-- Two values, one of them shared and then written through, and one of them gone. -/
def someOps : List (Op ℕ) :=
  [.create 0 5, .copy 0, .write 1 (· + 1), .create 1 9, .assign 0 2, .swap 0 1, .destroy 2,
    .set 1 7]

theorem run_values_someOps :
    EveryStep step Enabled someOps start ∧
      ∃ w, runAll step someOps start = .ok w ∧ w.values = someOps.foldl Values.step [] ∧
        CountsHolders w.cells w.held :=
  ⟨by decide, run_values someOps (by decide)⟩

example : (runAll step someOps start).toOption.map World.values =
    some [some (0, 6), some (1, 7), none] := by
  decide

end UdtKernel.CowPtr
