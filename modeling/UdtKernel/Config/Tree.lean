import UdtKernel.Types

set_option autoImplicit false

/-! `CConfig`, the tree that a message becomes before it becomes a text. -/

namespace UdtKernel

/-- `CConfig`; the keys are the ones of the source. -/
inductive Config where
  | node (key : String) (value : Text) (children : List Config)

namespace Config

def key : Config → String
  | node key _ _ => key

def value : Config → Text
  | node _ value _ => value

def children : Config → List Config
  | node _ _ children => children

def empty : Config := node "" [] []

def named (key : String) : Config := node key [] []

def leaf (key : String) (value : Text) : Config := node key value []

def isEmpty (c : Config) : Bool := c.key = "" && c.value = [] && c.children.isEmpty

def isChild (c : Config) (key : String) : Bool := c.children.any fun x => x.key = key

/-- `MChild`: the first child with the key. -/
def child (c : Config) (key : String) : Config :=
  (c.children.find? fun x => x.key = key).getD empty

def childrenOf (c : Config) (key : String) : List Config := c.children.filter fun x => x.key = key

def add (c x : Config) : Config := node c.key c.value (c.children ++ [x])

def withKey (key : String) (x : Config) : Config := node key x.value x.children

def addAs (c : Config) (key : String) (x : Config) : Config := c.add (withKey key x)

def addValue (c : Config) (key : String) (value : Text) : Config := c.add (leaf key value)

def remove (c : Config) (key : String) : Config :=
  node c.key c.value (c.children.filter fun x => x.key ≠ key)

def set (c : Config) (key : String) (value : Text) : Config := (c.remove key).addValue key value

/-- What a text is read as: the value given, if the text is empty or cannot be read. -/
def readValue {α : Type} (fromString : Text → Option α) (out : α) (value : Text) : α :=
  if value = [] then out else (fromString value).getD out

/-- `MGetIfSet(key, out)`, and `MValue(key, out)`. -/
def get {α : Type} (c : Config) (key : String) (fromString : Text → Option α) (out : α) : α :=
  readValue fromString out (c.child key).value

/-- `MAdd(conf)` under an `if`. -/
def addIf (p : Bool) (c x : Config) : Config := if p then c.add x else c

/-- `MAdd(conf)` of some configs, one after another. -/
def addAll (c : Config) (xs : List Config) : Config := xs.foldl add c

theorem readValue_eq {α : Type} {fromString : Text → Option α} {value : Text} {x : α} (out : α)
    (hne : value ≠ []) (h : fromString value = some x) : readValue fromString out value = x := by
  rw [readValue, if_neg hne, h, Option.getD_some]

/-- A text that is read as it is. -/
@[simp] theorem readValue_some (value : Text) : readValue some [] value = value := by
  unfold readValue
  split_ifs with h
  · exact h.symm
  · rfl

@[simp] theorem key_node (k : String) (v : Text) (l : List Config) : (node k v l).key = k := rfl

@[simp] theorem value_node (k : String) (v : Text) (l : List Config) : (node k v l).value = v := rfl

@[simp] theorem children_node (k : String) (v : Text) (l : List Config) :
    (node k v l).children = l := rfl

@[simp] theorem key_named (k : String) : (named k).key = k := rfl

@[simp] theorem key_leaf (k : String) (v : Text) : (leaf k v).key = k := by
  rw [leaf, key_node]

@[simp] theorem value_leaf (k : String) (v : Text) : (leaf k v).value = v := rfl

@[simp] theorem key_withKey (k : String) (x : Config) : (withKey k x).key = k := rfl

@[simp] theorem value_withKey (k : String) (x : Config) : (withKey k x).value = x.value := rfl

@[simp] theorem child_withKey (j : String) (x : Config) (k : String) :
    (withKey j x).child k = x.child k := rfl

@[simp] theorem childrenOf_withKey (j : String) (x : Config) (k : String) :
    (withKey j x).childrenOf k = x.childrenOf k := rfl

@[simp] theorem value_empty : empty.value = [] := rfl

@[simp] theorem key_add (c x : Config) : (c.add x).key = c.key := rfl

@[simp] theorem key_addAs (c : Config) (k : String) (x : Config) : (c.addAs k x).key = c.key := rfl

@[simp] theorem key_addValue (c : Config) (k : String) (v : Text) :
    (c.addValue k v).key = c.key := rfl

@[simp] theorem key_set (c : Config) (k : String) (v : Text) : (c.set k v).key = c.key := rfl

@[simp] theorem key_addIf (p : Bool) (c x : Config) : (addIf p c x).key = c.key := by
  cases p <;> rfl

theorem children_addAll (c : Config) (xs : List Config) :
    (c.addAll xs).children = c.children ++ xs := by
  induction xs generalizing c with
  | nil => exact (List.append_nil _).symm
  | cons x xs ih =>
    calc (c.addAll (x :: xs)).children = (c.add x).children ++ xs := ih (c.add x)
      _ = c.children ++ x :: xs := by simp [add]

@[simp] theorem key_addAll (c : Config) (xs : List Config) : (c.addAll xs).key = c.key := by
  induction xs generalizing c with
  | nil => rfl
  | cons x xs ih => exact ih (c.add x)

@[simp] theorem isChild_named (n k : String) : (named n).isChild k = false := rfl

@[simp] theorem isChild_add (c x : Config) (k : String) :
    (c.add x).isChild k = (c.isChild k || decide (x.key = k)) := by
  simp [isChild, add]

@[simp] theorem isChild_addAs (c : Config) (j : String) (x : Config) (k : String) :
    (c.addAs j x).isChild k = (c.isChild k || decide (j = k)) :=
  isChild_add c (withKey j x) k

@[simp] theorem isChild_addValue (c : Config) (j : String) (v : Text) (k : String) :
    (c.addValue j v).isChild k = (c.isChild k || decide (j = k)) :=
  isChild_add c (leaf j v) k

theorem filter_remove (l : List Config) {j k : String} (h : j ≠ k) :
    ((l.filter fun x => x.key ≠ j).filter fun x => x.key = k) = l.filter fun x => x.key = k := by
  rw [List.filter_filter]
  refine List.filter_congr fun x _ => ?_
  by_cases hk : x.key = k
  · simp [hk, Ne.symm h]
  · simp [hk]

theorem childrenOf_remove_of_ne (c : Config) {j k : String} (h : j ≠ k) :
    (c.remove j).childrenOf k = c.childrenOf k := filter_remove c.children h

theorem childrenOf_remove (c : Config) (k : String) : (c.remove k).childrenOf k = [] := by
  unfold childrenOf remove
  rw [children_node, List.filter_filter, List.filter_eq_nil_iff]
  simp

theorem isChild_eq (c : Config) (k : String) : c.isChild k = !(c.childrenOf k).isEmpty := by
  rw [Bool.eq_iff_iff, Bool.not_eq_true', List.isEmpty_eq_false_iff_exists_mem]
  simp only [isChild, childrenOf, List.any_eq_true, List.mem_filter]

theorem child_eq (c : Config) (k : String) : c.child k = (c.childrenOf k).headD empty := by
  unfold child childrenOf
  rw [List.headD_eq_head?_getD, List.head?_filter]

@[simp] theorem isChild_set (c : Config) (j : String) (v : Text) (k : String) :
    (c.set j v).isChild k = (c.isChild k || decide (j = k)) := by
  rw [set, isChild_addValue]
  by_cases hj : j = k
  · simp [hj]
  · rw [isChild_eq, childrenOf_remove_of_ne c hj, ← isChild_eq]

@[simp] theorem isChild_addIf (p : Bool) (c x : Config) (k : String) :
    (addIf p c x).isChild k = (c.isChild k || (p && decide (x.key = k))) := by
  cases p <;> simp [addIf]

@[simp] theorem child_named (n k : String) : (named n).child k = empty := rfl

theorem child_of_not_isChild {c : Config} {k : String} (h : c.isChild k = false) :
    c.child k = empty := by
  have hnone : (c.children.find? fun x => x.key = k) = none := by
    rw [List.find?_eq_none]
    intro x hx hk
    exact Bool.false_ne_true (h.symm.trans (List.any_eq_true.2 ⟨x, hx, hk⟩))
  rw [child, hnone, Option.getD_none]

/-- A child is looked for among the earlier ones first. -/
theorem child_append {c d : Config} {xs : List Config} (h : d.children = c.children ++ xs)
    (k : String) :
    d.child k =
      if c.isChild k then c.child k else (xs.find? fun x => x.key = k).getD empty := by
  unfold child
  rw [h, List.find?_append]
  split_ifs with hc
  · obtain ⟨y, hy⟩ := Option.isSome_iff_exists.1 (List.find?_isSome.2 (List.any_eq_true.1 hc))
    rw [hy, Option.some_or]
  · have hnone : (c.children.find? fun x => x.key = k) = none := by
      rw [List.find?_eq_none]
      exact fun x hx hk => hc (List.any_eq_true.2 ⟨x, hx, hk⟩)
    rw [hnone, Option.none_or]

@[simp] theorem child_add (c x : Config) (k : String) :
    (c.add x).child k =
      if c.isChild k then c.child k else if x.key = k then x else empty := by
  rw [@child_append c (c.add x) [x] rfl]
  by_cases hk : x.key = k <;> simp [hk]

@[simp] theorem child_addAs (c : Config) (j : String) (x : Config) (k : String) :
    (c.addAs j x).child k =
      if c.isChild k then c.child k else if j = k then withKey j x else empty :=
  child_add c (withKey j x) k

@[simp] theorem child_addValue (c : Config) (j : String) (v : Text) (k : String) :
    (c.addValue j v).child k =
      if c.isChild k then c.child k else if j = k then leaf j v else empty :=
  child_add c (leaf j v) k

@[simp] theorem child_addIf (p : Bool) (c x : Config) (k : String) :
    (addIf p c x).child k =
      if c.isChild k then c.child k else if p = true ∧ x.key = k then x else empty := by
  cases p with
  | false =>
    cases hc : c.isChild k with
    | false => simp [addIf, child_of_not_isChild hc]
    | true => simp [addIf]
  | true => simp [addIf]

@[simp] theorem child_set (c : Config) (j : String) (v : Text) (k : String) :
    (c.set j v).child k = if j = k then leaf j v else c.child k := by
  rw [set, child_addValue]
  split_ifs with hc hj hj
  · rw [isChild_eq, hj, childrenOf_remove] at hc
    cases hc
  · rw [child_eq, childrenOf_remove_of_ne c hj, ← child_eq]
  · rfl
  · rw [isChild_eq, childrenOf_remove_of_ne c hj, ← isChild_eq, Bool.not_eq_true] at hc
    exact (child_of_not_isChild hc).symm

@[simp] theorem childrenOf_named (n k : String) : (named n).childrenOf k = [] := rfl

@[simp] theorem childrenOf_add (c x : Config) (k : String) :
    (c.add x).childrenOf k = c.childrenOf k ++ if x.key = k then [x] else [] := by
  by_cases hk : x.key = k <;> simp [childrenOf, add, hk]

@[simp] theorem childrenOf_addAs (c : Config) (j : String) (x : Config) (k : String) :
    (c.addAs j x).childrenOf k = c.childrenOf k ++ if j = k then [withKey j x] else [] :=
  childrenOf_add c (withKey j x) k

@[simp] theorem childrenOf_addValue (c : Config) (j : String) (v : Text) (k : String) :
    (c.addValue j v).childrenOf k = c.childrenOf k ++ if j = k then [leaf j v] else [] :=
  childrenOf_add c (leaf j v) k

@[simp] theorem childrenOf_addIf (p : Bool) (c x : Config) (k : String) :
    (addIf p c x).childrenOf k =
      c.childrenOf k ++ if p = true ∧ x.key = k then [x] else [] := by
  cases p <;> simp [addIf]

@[simp] theorem childrenOf_set (c : Config) (j : String) (v : Text) (k : String) :
    (c.set j v).childrenOf k = if j = k then [leaf j v] else c.childrenOf k := by
  rw [set, childrenOf_addValue]
  split_ifs with hj
  · rw [hj, childrenOf_remove]
    rfl
  · rw [childrenOf_remove_of_ne c hj, List.append_nil]

theorem childrenOf_addAll (c : Config) (xs : List Config) (k : String) :
    (c.addAll xs).childrenOf k = c.childrenOf k ++ xs.filter fun x => x.key = k := by
  rw [childrenOf, children_addAll, List.filter_append]
  rfl

@[simp] theorem childrenOf_addAll_map {α : Type} (c : Config) (l : List α) {f : α → Config}
    {k : String} (h : ∀ a, (f a).key = k) :
    (c.addAll (l.map f)).childrenOf k = c.childrenOf k ++ l.map f := by
  rw [childrenOf_addAll, List.filter_eq_self.2]
  intro x hx
  obtain ⟨a, -, rfl⟩ := List.mem_map.1 hx
  exact decide_eq_true (h a)

@[simp] theorem childrenOf_addAll_map_of_ne {α : Type} (c : Config) (l : List α) {f : α → Config}
    {k : String} (h : ∀ a, (f a).key ≠ k) :
    (c.addAll (l.map f)).childrenOf k = c.childrenOf k := by
  rw [childrenOf_addAll, List.filter_eq_nil_iff.2, List.append_nil]
  intro x hx hk
  obtain ⟨a, -, rfl⟩ := List.mem_map.1 hx
  exact h a (of_decide_eq_true hk)

@[simp] theorem child_addAll_map_of_ne {α : Type} (c : Config) (l : List α) {f : α → Config}
    {k : String} (h : ∀ a, (f a).key ≠ k) : (c.addAll (l.map f)).child k = c.child k := by
  rw [child_eq, childrenOf_addAll_map_of_ne c l h, ← child_eq]

@[simp] theorem isChild_addAll_map_of_ne {α : Type} (c : Config) (l : List α) {f : α → Config}
    {k : String} (h : ∀ a, (f a).key ≠ k) : (c.addAll (l.map f)).isChild k = c.isChild k := by
  rw [isChild_eq, childrenOf_addAll_map_of_ne c l h, ← isChild_eq]

end Config

end UdtKernel
