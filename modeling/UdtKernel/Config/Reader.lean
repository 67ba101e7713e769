import UdtKernel.Config.Json
import UdtKernel.Lib.Run

set_option autoImplicit false

/-! `CJsonReader`: a machine over the events of a document, with pointers into the tree that it
builds. -/

namespace UdtKernel.Config
open UdtKernel.Lib

/-- The way from a config to one below it: the number of the child at each level. -/
abbrev Path := List ℕ

def nodeAt : Path → Config → Option Config
  | [], c => some c
  | i :: p, c => c.children[i]?.bind (nodeAt p)

def modifyAt (f : Config → Config) : Path → Config → Config
  | [], c => f c
  | i :: p, c => node c.key c.value (c.children.modify i (modifyAt f p))

/-- An event of the parser. A scalar comes as the text that its handler makes of it, the end of an
    object or an array with the number of its members or items. -/
inductive Event where
  | scalar (aVal : Text)
  | key (str : String)
  | startObject
  | endObject (memberCount : ℕ)
  | startArray
  | endArray (elementCount : ℕ)
  deriving DecidableEq

/-- What ends the process: the top of an empty stack, a pointer to what is not there any more, or
    a `CHECK`. -/
inductive ReaderAbort where
  | emptyStack
  | movedNode
  | keyLength
  | emptyArrayKey
  | memberCount
  | elementCount
  deriving DecidableEq

/-- `_stack_t`. A pointer is the way to the config; `stamp` tells the state that the vector which
    holds the config was in when the pointer was taken. -/
structure StackEntry where
  conf : Path
  stamp : ℕ
  arrayKey : String
  currentArrayLength : ℕ
  numberOfArrayElements : ℕ
  deriving DecidableEq

/-- `CJsonReader`; `version p` counts the changes of the vector of children of the config at `p`,
    each of which may move them. -/
structure Reader where
  head : Config
  key : String
  stack : List StackEntry
  version : Path → ℕ

namespace Reader

def start (head : Config) : Reader := ⟨head, "", [], fun _ => 0⟩

variable (s : Reader)

def top : Except ReaderAbort StackEntry :=
  match s.stack with
  | [] => .error .emptyStack
  | e :: _ => .ok e

def setTop (e : StackEntry) : Reader := { s with stack := e :: s.stack.tail }

def pointee (e : StackEntry) : Except ReaderAbort Config :=
  if e.conf = [] ∨ e.stamp = s.version e.conf.dropLast then
    match nodeAt e.conf s.head with
    | some c => .ok c
    | none => .error .movedNode
  else .error .movedNode

def write (e : StackEntry) (f : Config → Config) : Except ReaderAbort Reader := do
  let _ ← s.pointee e
  .ok { s with
    head := modifyAt f e.conf s.head
    version := fun p => if p = e.conf then s.version p + 1 else s.version p }

def addLeaf (aVal : Text) : Except ReaderAbort Reader := do
  let e ← s.top
  if e.arrayKey ≠ "" then do
    let s ← s.write e (·.addValue e.arrayKey aVal)
    .ok (s.setTop { e with currentArrayLength := e.currentArrayLength + 1 })
  else s.write e (·.set s.key aVal)

/-- An entry for the last child of what `e` points to. -/
def pushBack (e : StackEntry) : Except ReaderAbort Reader := do
  let c ← s.pointee e
  .ok { s with stack :=
    ⟨e.conf ++ [c.children.length - 1], s.version e.conf, "", 0, 0⟩ :: s.stack }

def startObject : Except ReaderAbort Reader :=
  match s.stack with
  | [] => .ok { s with stack := [⟨[], 0, "", 0, 0⟩] }
  | e :: _ =>
    if e.arrayKey ≠ "" then do
      let s ← s.write e (·.add (named e.arrayKey))
      let e := { e with currentArrayLength := e.currentArrayLength + 1 }
      (s.setTop e).pushBack e
    else do
      let s ← s.write e (·.add (named s.key))
      s.pushBack e

end Reader

def utf8Length (t : Text) : ℕ := (t.map Char.utf8Size).sum

/-- `MLengthOf`: the characters before a `\0`, `aMax` at most. -/
def lengthOf (t : Text) (aMax : ℕ) : ℕ := min aMax (cString t).length

/-- The `CHECK` of `assign` for a key, whose length comes in bytes. -/
def keyFits (str : String) : Bool :=
  utf8Length str.toList ≤ lengthOf str.toList (utf8Length str.toList)

namespace Reader

variable (s : Reader)

def onKey (str : String) : Except ReaderAbort Reader :=
  if keyFits str then .ok { s with key := str } else .error .keyLength

def endObject (memberCount : ℕ) : Except ReaderAbort Reader :=
  match s.stack with
  | [] => .ok s
  | e :: stack => do
    -- the children that are not constant are asked for their number
    let s ← s.write e id
    let c ← s.pointee e
    if c.children.length = memberCount + e.numberOfArrayElements then .ok { s with stack := stack }
    else .error .memberCount

def startArray : Except ReaderAbort Reader := do
  let e ← s.top
  if s.key ≠ "" then .ok (s.setTop { e with arrayKey := s.key, currentArrayLength := 0 })
  else .error .emptyArrayKey

def endArray (elementCount : ℕ) : Except ReaderAbort Reader := do
  let e ← s.top
  if e.currentArrayLength = elementCount then
    .ok (s.setTop { e with
      arrayKey := ""
      numberOfArrayElements := e.numberOfArrayElements +
        if 0 < e.currentArrayLength then e.currentArrayLength - 1 else 0
      currentArrayLength := 0 })
  else .error .elementCount

def step (ev : Event) (s : Reader) : Except ReaderAbort Reader :=
  match ev with
  | .scalar aVal => s.addLeaf aVal
  | .key str => s.onKey str
  | .startObject => s.startObject
  | .endObject memberCount => s.endObject memberCount
  | .startArray => s.startArray
  | .endArray elementCount => s.endArray elementCount

end Reader

theorem nodeAt_append (p q : Path) (c : Config) :
    nodeAt (p ++ q) c = (nodeAt p c).bind (nodeAt q) := by
  induction p generalizing c with
  | nil => rfl
  | cons i p ih =>
    rw [List.cons_append, nodeAt, nodeAt, Option.bind_assoc]
    exact congrArg _ (funext ih)

theorem modifyAt_append (f : Config → Config) (p q : Path) :
    modifyAt f (p ++ q) = modifyAt (modifyAt f q) p := by
  induction p with
  | nil => rfl
  | cons i p ih =>
    funext c
    rw [List.cons_append, modifyAt, modifyAt, ih]

theorem nodeAt_modifyAt (f : Config → Config) (p : Path) (c : Config) :
    nodeAt p (modifyAt f p c) = (nodeAt p c).map f := by
  induction p generalizing c with
  | nil => rfl
  | cons i p ih =>
    rw [modifyAt, nodeAt, children_node, List.getElem?_modify_eq, nodeAt]
    cases c.children[i]? with
    | none => rfl
    | some d => exact ih d

theorem modifyAt_modifyAt (f g : Config → Config) (p : Path) (c : Config) :
    modifyAt g p (modifyAt f p c) = modifyAt (g ∘ f) p c := by
  induction p generalizing c with
  | nil => rfl
  | cons i p ih =>
    simp only [modifyAt, key_node, value_node, children_node, List.modify_modify_eq]
    exact congrArg (fun h => node c.key c.value (c.children.modify i h)) (funext ih)

theorem modifyAt_congr {f g : Config → Config} {p : Path} {c d : Config}
    (hd : nodeAt p c = some d) (h : f d = g d) : modifyAt f p c = modifyAt g p c := by
  induction p generalizing c with
  | nil =>
    obtain rfl := Option.some.inj hd
    exact h
  | cons i p ih =>
    rw [modifyAt, modifyAt]
    rw [nodeAt] at hd
    obtain ⟨x, hx, hxd⟩ := Option.bind_eq_some_iff.1 hd
    refine congrArg (node c.key c.value) (List.ext_getElem? fun j => ?_)
    by_cases hj : i = j
    · subst hj
      rw [List.getElem?_modify_eq, List.getElem?_modify_eq, hx]
      exact congrArg some (ih hxd)
    · rw [List.getElem?_modify_ne _ _ hj, List.getElem?_modify_ne _ _ hj]

/-- Every entry points to a child of what the one below it points to, in the vector as it was
    when the entry was pushed; the undermost one points to the whole tree. -/
def Linked (version : Path → ℕ) : List StackEntry → Prop
  | [] => True
  | [e] => e.conf = []
  | e :: e' :: stack =>
    (∃ i, e.conf = e'.conf ++ [i]) ∧ e.stamp = version e'.conf ∧ Linked version (e' :: stack)

namespace Reader

structure Pointing (s : Reader) : Prop where
  linked : Linked s.version s.stack
  top : ∀ e ∈ s.stack.head?, (nodeAt e.conf s.head).isSome

end Reader

section
variable {version version' : Path → ℕ} {e e' : StackEntry} {stack : List StackEntry}

theorem Linked.tail (h : Linked version (e :: stack)) : Linked version stack := by
  cases stack with
  | nil => trivial
  | cons e' stack => exact h.2.2

/-- Entries further down point to vectors further up in the tree. -/
theorem Linked.shorter (h : Linked version (e :: stack)) :
    ∀ x ∈ stack, x.conf.length < e.conf.length := by
  induction stack generalizing e with
  | nil => simp
  | cons e' stack ih =>
    obtain ⟨⟨i, hi⟩, -, hrest⟩ := h
    have hlength : e.conf.length = e'.conf.length + 1 := by simp [hi]
    intro x hx
    rcases List.mem_cons.1 hx with rfl | hx
    · omega
    · exact (ih hrest x hx).trans (by omega)

/-- Changes below the vectors that are pointed into do no harm. -/
theorem Linked.congr (h : Linked version stack)
    (heq : ∀ x ∈ stack.tail, version' x.conf = version x.conf) : Linked version' stack := by
  induction stack with
  | nil => trivial
  | cons e stack ih =>
    cases stack with
    | nil => exact h
    | cons e' stack =>
      refine ⟨h.1, h.2.1.trans (heq e' List.mem_cons_self).symm, ih h.2.2 fun x hx => ?_⟩
      exact heq x (List.mem_cons_of_mem e' hx)

/-- What an entry counts does not matter. -/
theorem Linked.setTop (h : Linked version (e :: stack)) (hconf : e'.conf = e.conf)
    (hstamp : e'.stamp = e.stamp) : Linked version (e' :: stack) := by
  cases stack with
  | nil => exact hconf.trans h
  | cons x stack => exact ⟨hconf ▸ h.1, hstamp ▸ h.2.1, h.2.2⟩

theorem Linked.fresh (h : Linked version (e :: stack)) :
    e.conf = [] ∨ e.stamp = version e.conf.dropLast := by
  cases stack with
  | nil => exact .inl h
  | cons e' stack =>
    obtain ⟨⟨i, hi⟩, hstamp, -⟩ := h
    exact .inr (by rw [hi, List.dropLast_concat]; exact hstamp)

end

namespace Reader

section
variable {s : Reader} {e : StackEntry} {stack : List StackEntry}

theorem pointee_eq (h : s.Pointing) (hs : s.stack = e :: stack) {c : Config}
    (hc : nodeAt e.conf s.head = some c) : s.pointee e = .ok c := by
  rw [pointee, if_pos (hs ▸ h.linked).fresh, hc]

theorem exists_pointee (h : s.Pointing) (hs : s.stack = e :: stack) :
    ∃ c, nodeAt e.conf s.head = some c :=
  Option.isSome_iff_exists.1 (h.top e (by rw [hs]; rfl))

def changed (s : Reader) (e : StackEntry) (f : Config → Config) : Reader :=
  { s with
    head := modifyAt f e.conf s.head
    version := fun p => if p = e.conf then s.version p + 1 else s.version p }

theorem write_eq (h : s.Pointing) (hs : s.stack = e :: stack) (f : Config → Config) :
    s.write e f = .ok (s.changed e f) := by
  obtain ⟨c, hc⟩ := exists_pointee h hs
  rw [write, pointee_eq h hs hc]
  rfl

theorem Pointing.changed (h : s.Pointing) (hs : s.stack = e :: stack) (f : Config → Config) :
    (s.changed e f).Pointing := by
  have hlinked := hs ▸ h.linked
  refine ⟨?_, ?_⟩
  · change Linked _ s.stack
    rw [hs]
    refine hlinked.congr fun x hx => if_neg fun heq => ?_
    have hlt := hlinked.shorter x hx
    rw [heq] at hlt
    exact lt_irrefl _ hlt
  · change ∀ x ∈ s.stack.head?, _
    rw [hs]
    intro x hx
    obtain rfl := Option.some.inj hx
    obtain ⟨c, hc⟩ := exists_pointee h hs
    change (nodeAt e.conf (modifyAt f e.conf s.head)).isSome
    rw [nodeAt_modifyAt, hc]
    rfl

theorem Pointing.setTop (h : s.Pointing) (hs : s.stack = e :: stack) {e' : StackEntry}
    (hconf : e'.conf = e.conf) (hstamp : e'.stamp = e.stamp) : (s.setTop e').Pointing := by
  refine ⟨?_, fun x hx => ?_⟩
  · change Linked s.version (e' :: s.stack.tail)
    rw [hs]
    exact Linked.setTop (hs ▸ h.linked) hconf hstamp
  · obtain rfl := Option.some.inj hx
    obtain ⟨c, hc⟩ := exists_pointee h hs
    change (nodeAt e'.conf s.head).isSome
    rw [hconf, hc]
    rfl

def pushed (s : Reader) (e : StackEntry) (c : Config) : Reader :=
  { s with stack := ⟨e.conf ++ [c.children.length - 1], s.version e.conf, "", 0, 0⟩ :: s.stack }

theorem pushBack_eq (h : s.Pointing) (hs : s.stack = e :: stack) {c : Config}
    (hc : nodeAt e.conf s.head = some c) : s.pushBack e = .ok (s.pushed e c) := by
  rw [pushBack, pointee_eq h hs hc]
  rfl

theorem Pointing.pushed (h : s.Pointing) (hs : s.stack = e :: stack) {c : Config}
    (hc : nodeAt e.conf s.head = some c) (hne : c.children ≠ []) : (s.pushed e c).Pointing := by
  refine ⟨?_, fun x hx => ?_⟩
  · change Linked s.version (_ :: s.stack)
    rw [hs]
    exact ⟨⟨_, rfl⟩, rfl, hs ▸ h.linked⟩
  · obtain rfl := Option.some.inj hx
    have hlt : c.children.length - 1 < c.children.length :=
      Nat.sub_lt (List.length_pos_iff.2 hne) Nat.zero_lt_one
    change (nodeAt (e.conf ++ [c.children.length - 1]) s.head).isSome
    rw [nodeAt_append, hc]
    simp [nodeAt, hlt]

/-- The key of what comes next to the top entry, and what the entry becomes by it. -/
def nextKey (s : Reader) (e : StackEntry) : String := if e.arrayKey ≠ "" then e.arrayKey else s.key

def counted (e : StackEntry) : StackEntry :=
  if e.arrayKey ≠ "" then { e with currentArrayLength := e.currentArrayLength + 1 } else e

theorem counted_conf (e : StackEntry) : (counted e).conf = e.conf := by
  unfold counted
  split_ifs <;> rfl

theorem counted_stamp (e : StackEntry) : (counted e).stamp = e.stamp := by
  unfold counted
  split_ifs <;> rfl

/-- The top entry is left as it is, but for what it counts, and `f` has changed what it points
    to. -/
structure Continues (s : Reader) (e : StackEntry) (stack : List StackEntry) (f : Config → Config)
    (t : Reader) : Prop where
  stack : t.stack = e :: stack
  head : t.head = modifyAt f e.conf s.head
  pointing : t.Pointing

theorem changed_setTop_continues (h : s.Pointing) (hs : s.stack = e :: stack)
    (f : Config → Config) {e' : StackEntry} (hconf : e'.conf = e.conf)
    (hstamp : e'.stamp = e.stamp) : Continues s e' stack f ((s.changed e f).setTop e') where
  stack := by
    change e' :: s.stack.tail = _
    rw [hs]
    rfl
  head := by
    rw [hconf]
    rfl
  pointing := (h.changed hs f).setTop (s := s.changed e f) hs hconf hstamp

theorem setTop_self {t : Reader} (ht : t.stack = e :: stack) : t.setTop e = t := by
  rw [setTop, ht]
  change { t with stack := e :: stack } = t
  rw [← ht]

theorem addLeaf_spec (h : s.Pointing) (hs : s.stack = e :: stack) (aVal : Text) :
    ∃ t, s.addLeaf aVal = .ok t ∧ t.key = s.key ∧ Continues s (counted e) stack
      (fun c => if e.arrayKey ≠ "" then c.addValue e.arrayKey aVal else c.set s.key aVal) t := by
  have htop : s.top = .ok e := by rw [top, hs]
  refine ⟨_, ?_, ?_, changed_setTop_continues h hs _ (counted_conf e) (counted_stamp e)⟩
  · unfold addLeaf
    rw [htop]
    by_cases harr : e.arrayKey ≠ ""
    · simp only [bind, Except.bind, if_pos harr, write_eq h hs, counted]
    · simp only [bind, Except.bind, if_neg harr, write_eq h hs, counted]
      rw [setTop_self (t := s.changed e _) hs]
  · rfl

theorem startObject_spec (h : s.Pointing) (hs : s.stack = e :: stack) {c : Config}
    (hc : nodeAt e.conf s.head = some c) :
    ∃ t v, s.startObject = .ok t ∧ t.key = s.key ∧ t.Pointing ∧
      t.stack = ⟨e.conf ++ [c.children.length], v, "", 0, 0⟩ :: counted e :: stack ∧
      t.head = modifyAt (·.add (named (s.nextKey e))) e.conf s.head := by
  let f : Config → Config := (·.add (named (s.nextKey e)))
  let u := (s.changed e f).setTop (counted e)
  have hu : Continues s (counted e) stack f u :=
    changed_setTop_continues h hs f (counted_conf e) (counted_stamp e)
  have hnode : nodeAt (counted e).conf u.head = some (f c) := by
    rw [hu.head, nodeAt_modifyAt, counted_conf, hc]
    rfl
  have hlength : (f c).children.length - 1 = c.children.length := by
    change (c.children ++ [_]).length - 1 = _
    rw [List.length_append]
    rfl
  have hne : (f c).children ≠ [] := List.append_ne_nil_of_right_ne_nil _ (List.cons_ne_nil _ _)
  have hpush : u.pushBack (counted e) = .ok (u.pushed (counted e) (f c)) :=
    pushBack_eq hu.pointing hu.stack hnode
  refine ⟨u.pushed (counted e) (f c), u.version (counted e).conf, ?_, rfl,
    hu.pointing.pushed hu.stack hnode hne, ?_, hu.head.trans ?_⟩
  · rw [← hpush, startObject, hs]
    by_cases harr : e.arrayKey ≠ ""
    · simp only [bind, Except.bind, if_pos harr, u, f, nextKey, counted, write_eq h hs]
    · simp only [bind, Except.bind, if_neg harr, u, f, nextKey, counted, write_eq h hs]
      rw [setTop_self (t := s.changed e _) hs]
  · change _ :: u.stack = _
    rw [hu.stack, hlength, counted_conf]
  · rw [counted_conf]

theorem modifyAt_id (p : Path) (c : Config) : modifyAt id p c = c := by
  induction p generalizing c with
  | nil => rfl
  | cons i p ih =>
    have hid : modifyAt id p = id := funext ih
    rw [modifyAt, hid, List.modify_id]
    cases c
    rfl

theorem endObject_spec (h : s.Pointing) (hs : s.stack = e :: stack) {c : Config}
    (hc : nodeAt e.conf s.head = some c) (memberCount : ℕ) :
    if c.children.length = memberCount + e.numberOfArrayElements then
      ∃ t, s.endObject memberCount = .ok t ∧ t.stack = stack ∧ t.head = s.head ∧ t.Pointing
    else s.endObject memberCount = .error .memberCount := by
  have hcont := h.changed hs id
  have hhead : (s.changed e id).head = s.head := modifyAt_id _ _
  have hpointee : (s.changed e id).pointee e = .ok c :=
    pointee_eq hcont hs (by rw [hhead]; exact hc)
  unfold endObject
  rw [hs]
  simp only [bind, Except.bind, write_eq h hs, hpointee]
  split_ifs
  · refine ⟨_, rfl, rfl, hhead, ?_, fun x hx => ?_⟩
    · have hlinked := hcont.linked
      change Linked _ s.stack at hlinked
      rw [hs] at hlinked
      exact hlinked.tail
    · -- what the next entry points to is on the way to the top one
      change (nodeAt x.conf (s.changed e id).head).isSome
      rw [hhead]
      have hlinked := hs ▸ h.linked
      cases stack with
      | nil => cases hx
      | cons y stack =>
        obtain rfl := Option.some.inj hx
        obtain ⟨⟨i, hi⟩, -⟩ := hlinked
        rw [hi, nodeAt_append] at hc
        exact Option.isSome_of_isSome_bind (Option.isSome_iff_exists.2 ⟨c, hc⟩)
  · rfl

theorem startArray_eq (hs : s.stack = e :: stack) : s.startArray =
    if s.key ≠ "" then .ok (s.setTop { e with arrayKey := s.key, currentArrayLength := 0 })
    else .error .emptyArrayKey := by
  rw [startArray, top, hs]
  rfl

theorem endArray_eq (hs : s.stack = e :: stack) (elementCount : ℕ) : s.endArray elementCount =
    if e.currentArrayLength = elementCount then
      .ok (s.setTop { e with
        arrayKey := ""
        numberOfArrayElements := e.numberOfArrayElements + (e.currentArrayLength - 1)
        currentArrayLength := 0 })
    else .error .elementCount := by
  have hextra : (if 0 < e.currentArrayLength then e.currentArrayLength - 1 else 0) =
      e.currentArrayLength - 1 := by
    split_ifs <;> omega
  rw [endArray, top, hs]
  simp only [bind, Except.bind, hextra]

theorem startObject_empty (hs : s.stack = []) :
    s.startObject = .ok { s with stack := [⟨[], 0, "", 0, 0⟩] } := by rw [startObject, hs]

theorem pointing_head (s : Reader) : ({ s with stack := [⟨[], 0, "", 0, 0⟩] } : Reader).Pointing :=
  ⟨rfl, fun x hx => by
    obtain rfl := Option.some.inj hx
    rfl⟩

end

/-- No event makes a pointer lead to a config that was moved. -/
theorem Pointing.step {s : Reader} (h : s.Pointing) (ev : Event) :
    Outcome (· ≠ ReaderAbort.movedNode) Pointing (step ev s) := by
  cases hs : s.stack with
  | nil =>
    have htop : s.top = .error .emptyStack := by rw [Reader.top, hs]
    cases ev with
    | scalar aVal =>
      simp only [Reader.step, addLeaf, htop]
      exact fun he => nomatch he
    | key str =>
      simp only [Reader.step, onKey]
      split_ifs
      · exact ⟨h.linked, h.top⟩
      · exact fun he => nomatch he
    | startObject =>
      simp only [Reader.step, startObject_empty hs]
      exact pointing_head s
    | endObject n =>
      simp only [Reader.step, endObject, hs]
      exact h
    | startArray =>
      simp only [Reader.step, startArray, htop]
      exact fun he => nomatch he
    | endArray n =>
      simp only [Reader.step, endArray, htop]
      exact fun he => nomatch he
  | cons e stack =>
    obtain ⟨c, hc⟩ := exists_pointee h hs
    cases ev with
    | scalar aVal =>
      obtain ⟨t, ht, -, hcont⟩ := addLeaf_spec h hs aVal
      simp only [Reader.step, ht]
      exact hcont.pointing
    | key str =>
      simp only [Reader.step, onKey]
      split_ifs
      · exact ⟨h.linked, h.top⟩
      · exact fun he => nomatch he
    | startObject =>
      obtain ⟨t, v, ht, -, hpointing, -⟩ := startObject_spec h hs hc
      simp only [Reader.step, ht]
      exact hpointing
    | endObject n =>
      have hend := endObject_spec h hs hc n
      simp only [Reader.step]
      split_ifs at hend
      · obtain ⟨t, ht, -, -, hpointing⟩ := hend
        rw [ht]
        exact hpointing
      · rw [hend]
        exact fun he => nomatch he
    | startArray =>
      simp only [Reader.step, startArray_eq hs]
      split_ifs
      · exact h.setTop hs rfl rfl
      · exact fun he => nomatch he
    | endArray n =>
      simp only [Reader.step, endArray_eq hs]
      split_ifs
      · exact h.setTop hs rfl rfl
      · exact fun he => nomatch he

theorem start_pointing (head : Config) : (start head).Pointing := ⟨trivial, fun _ hx => nomatch hx⟩

/-- Whatever the events are, no pointer of the stack ever leads to a config that was moved. -/
theorem runAll_pointing (head : Config) (evs : List Event) :
    Outcome (· ≠ ReaderAbort.movedNode) Pointing (runAll Reader.step evs (start head)) := by
  unfold runAll
  exact Outcome.foldlM (start_pointing head) fun s hs ev _ => hs.step ev

end Reader

end UdtKernel.Config
