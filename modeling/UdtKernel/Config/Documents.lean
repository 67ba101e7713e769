import UdtKernel.Config.Reader

set_option autoImplicit false

/-! The machine on the events of a document does what the recursion does on the document. -/

namespace UdtKernel

/-- Something that holds of a value when it holds of its parts holds of every value. -/
theorem Json.induction_parts {P : Json → Prop} (hstr : ∀ s, P (.str s))
    (hobj : ∀ ms : List (String × Json), (∀ m ∈ ms, P m.2) → P (.obj ms))
    (harr : ∀ items : List Json, (∀ j ∈ items, P j) → P (.arr items)) : ∀ j, P j
  | .str s => hstr s
  | .obj ms => hobj ms fun m hm =>
    have hlt : sizeOf m < sizeOf ms := List.sizeOf_lt_of_mem hm
    have hsnd : sizeOf m.2 < sizeOf m := by
      cases m
      simp only [Prod.mk.sizeOf_spec]
      omega
    induction_parts hstr hobj harr m.2
  | .arr items => harr items fun j hj =>
    have hlt : sizeOf j < sizeOf items := List.sizeOf_lt_of_mem hj
    induction_parts hstr hobj harr j
termination_by j => sizeOf j
decreasing_by all_goals simp only [Json.obj.sizeOf_spec, Json.arr.sizeOf_spec]; omega

namespace Config
open UdtKernel.Lib

def isArr : Json → Bool
  | .arr _ => true
  | _ => false

mutual

/-- What the parser tells of a value; the text of a scalar ends at the first `\0`. -/
def eventsOf : Json → List Event
  | .str s => [.scalar (cString s)]
  | .obj ms => .startObject :: (memberEvents ms ++ [.endObject ms.length])
  | .arr items => .startArray :: (itemEvents items ++ [.endArray items.length])

def memberEvents : List (String × Json) → List Event
  | [] => []
  | (k, j) :: ms => .key k :: (eventsOf j ++ memberEvents ms)

def itemEvents : List Json → List Event
  | [] => []
  | j :: l => eventsOf j ++ itemEvents l

end

mutual

/-- Every key in a value passes the `CHECK` on its length. -/
def keysFit : Json → Bool
  | .str _ => true
  | .obj ms => membersFit ms
  | .arr items => itemsFit items

def membersFit : List (String × Json) → Bool
  | [] => true
  | (k, j) :: ms => keyFits k && (keysFit j && membersFit ms)

def itemsFit : List Json → Bool
  | [] => true
  | j :: l => keysFit j && itemsFit l

end

/-- `CJsonReader` at an item. -/
def readItem (c : Config) (k : String) : Json → Except Abort Config
  | .str s => .ok (c.addValue k (cString s))
  | .obj ms => do return c.add (← endObject ms (← readMembers (named k) ms))
  | .arr _ => .error .countIsWrong

theorem readItems_cons (c : Config) (k : String) (j : Json) (l : List Json) :
    readItems c k (j :: l) = (readItem c k j >>= fun d => readItems d k l) := by
  cases j with
  | str s => rw [readItems]; rfl
  | obj ms =>
    rw [readItems, readItem]
    cases readMembers (named k) ms with
    | error e => rfl
    | ok d =>
      simp only [bind, Except.bind]
      cases endObject ms d <;> rfl
  | arr items => rw [readItems]; rfl

/-- An array in an array is never read. -/
theorem readItems_of_isArr {l : List Json} (h : ∃ j ∈ l, isArr j) (c : Config) (k : String) :
    ¬∃ d, readItems c k l = .ok d := by
  induction l generalizing c with
  | nil => simp at h
  | cons j l ih =>
    rintro ⟨d, hd⟩
    rw [readItems_cons] at hd
    obtain ⟨u, hu, hrest⟩ := eq_ok_of_bind hd
    obtain ⟨x, hx, harr⟩ := h
    rcases List.mem_cons.1 hx with rfl | hx
    · cases x with
      | arr items => cases hu
      | str s => cases harr
      | obj ms => cases harr
    · exact ih ⟨x, hx, harr⟩ u ⟨d, hrest⟩

/-- A run of the machine ends well where the keys fit and the recursion does, and then in a state
    for what the recursion comes to. -/
def Agrees (fits : Bool) (big : Except Abort Config) (Q : Config → Reader → Prop) :
    Except ReaderAbort Reader → Prop
  | .ok t => fits = true ∧ ∃ d, big = .ok d ∧ Q d t
  | .error _ => ¬(fits = true ∧ ∃ d, big = .ok d)

theorem Agrees.bind {p q : Bool} {x : Except Abort Config} {f : Config → Except Abort Config}
    {r : Except ReaderAbort Reader} {g : Reader → Except ReaderAbort Reader}
    {Q Q' : Config → Reader → Prop} (h : Agrees p x Q r)
    (hf : ∀ d t, Q d t → Agrees q (f d) Q' (g t)) : Agrees (p && q) (x >>= f) Q' (r >>= g) := by
  cases r with
  | error e =>
    rintro ⟨hfits, d, hd⟩
    obtain ⟨u, hu, -⟩ := eq_ok_of_bind hd
    exact h ⟨(Bool.and_eq_true_iff.1 hfits).1, u, hu⟩
  | ok t =>
    obtain ⟨hp, d, rfl, hQ⟩ := h
    have hrest := hf d t hQ
    change Agrees (p && q) (f d) Q' (g t)
    cases hg : g t with
    | error e =>
      rw [hg] at hrest
      exact fun ⟨hfits, hd⟩ => hrest ⟨(Bool.and_eq_true_iff.1 hfits).2, hd⟩
    | ok u =>
      rw [hg] at hrest
      exact ⟨Bool.and_eq_true_iff.2 ⟨hp, hrest.1⟩, hrest.2⟩

theorem Agrees.outcome {p : Bool} {x : Except Abort Config} {r : Except ReaderAbort Reader}
    {Q : Config → Reader → Prop} (h : Agrees p x Q r) :
    Outcome (fun _ => True) (fun t => ∃ d, Q d t) r := by
  cases r with
  | error e => trivial
  | ok t =>
    obtain ⟨-, d, -, hd⟩ := h
    exact ⟨d, hd⟩

/-- The top entry is `e` and points to `c`, in a tree that is `base` everywhere else. -/
structure Stands (base : Config) (e : StackEntry) (stack : List StackEntry) (c : Config)
    (s : Reader) : Prop where
  pointing : s.Pointing
  stack : s.stack = e :: stack
  head : s.head = modifyAt (fun _ => c) e.conf base
  node : nodeAt e.conf s.head = some c

section
variable {base : Config} {e e' : StackEntry} {stack : List StackEntry} {c : Config} {s t : Reader}

theorem Stands.continues (h : Stands base e stack c s) {f : Config → Config}
    (ht : Reader.Continues s e' stack f t) (hconf : e'.conf = e.conf) :
    Stands base e' stack (f c) t where
  pointing := ht.pointing
  stack := ht.stack
  head := by
    rw [ht.head, h.head, hconf, modifyAt_modifyAt]
    rfl
  node := by rw [ht.head, hconf, nodeAt_modifyAt, h.node]; rfl

theorem Stands.withKey (h : Stands base e stack c s) (k : String) :
    Stands base e stack c { s with key := k } :=
  ⟨⟨h.pointing.linked, h.pointing.top⟩, h.stack, h.head, h.node⟩

theorem Stands.setTop (h : Stands base e stack c s) (hconf : e'.conf = e.conf)
    (hstamp : e'.stamp = e.stamp) : Stands base e' stack c (s.setTop e') where
  pointing := h.pointing.setTop h.stack hconf hstamp
  stack := by
    change e' :: s.stack.tail = _
    rw [h.stack]
    rfl
  head := by rw [hconf]; exact h.head
  node := by rw [hconf]; exact h.node

theorem modifyAt_last (c x d : Config) :
    modifyAt (fun _ => d) [c.children.length] (c.add x) = c.add d := by
  have hmodify : (c.children ++ [x]).modify c.children.length (fun _ => d) = c.children ++ [d] := by
    rw [List.modify_eq_set_getElem?]
    simp
  exact congrArg (node c.key c.value) hmodify

end

/-- How the machine comes to the next value: as an item of the array that is open, or as the
    member behind the last key. -/
def readNext (c : Config) (e : StackEntry) (k : String) (j : Json) : Except Abort Config :=
  if isArr j = false ∧ e.arrayKey ≠ "" then readItem c e.arrayKey j else readMember c k j

def afterValue (k : String) (j : Json) (e : StackEntry) : StackEntry :=
  if isArr j then { e with
    arrayKey := ""
    currentArrayLength := 0
    numberOfArrayElements := e.numberOfArrayElements + arrayExtra (k, j) }
  else Reader.counted e

def ReadsAlike (j : Json) : Prop :=
  ∀ base e stack c s, Stands base e stack c s →
    Agrees (keysFit j) (readNext c e s.key j) (Stands base (afterValue s.key j e) stack)
      (runAll Reader.step (eventsOf j) s)

/-- An entry with no open array counts the items of its arrays only. -/
theorem afterValue_eq {e : StackEntry} (hkey : e.arrayKey = "") (hcur : e.currentArrayLength = 0)
    (k : String) (j : Json) : afterValue k j e =
      { e with numberOfArrayElements := e.numberOfArrayElements + arrayExtra (k, j) } := by
  obtain ⟨conf, stamp, arrayKey, currentArrayLength, numberOfArrayElements⟩ := e
  cases hkey
  cases hcur
  cases j <;> rfl

theorem members_agree {ms : List (String × Json)} (hms : ∀ m ∈ ms, ReadsAlike m.2) {base : Config}
    {e : StackEntry} {stack : List StackEntry} {c : Config} {s : Reader}
    (h : Stands base e stack c s) (hkey : e.arrayKey = "") (hcur : e.currentArrayLength = 0) :
    Agrees (membersFit ms) (readMembers c ms) (Stands base { e with
      numberOfArrayElements := e.numberOfArrayElements + (ms.map arrayExtra).sum } stack)
      (runAll Reader.step (memberEvents ms) s) := by
  induction ms generalizing e c s with
  | nil => exact ⟨rfl, c, by rw [readMembers], h⟩
  | cons m ms ih =>
    obtain ⟨k, j⟩ := m
    rw [memberEvents, runAll_cons, membersFit, readMembers]
    by_cases hfits : keyFits k = true
    · have hstep : Reader.step (.key k) s = .ok { s with key := k } := if_pos hfits
      have hnext : readNext c e k j = readMember c k j := if_neg fun hne => hne.2 hkey
      have hvalue := hms (k, j) List.mem_cons_self base e stack c _ (h.withKey k)
      rw [hstep, hfits, Bool.true_and]
      change Agrees _ _ _ (runAll Reader.step (eventsOf j ++ memberEvents ms) { s with key := k })
      rw [runAll_append]
      rw [hnext, afterValue_eq hkey hcur] at hvalue
      refine hvalue.bind fun d t ht => ?_
      have hrest := ih (fun m hm => hms m (List.mem_cons_of_mem _ hm)) ht hkey hcur
      rw [List.map_cons, List.sum_cons, ← Nat.add_assoc]
      exact hrest
    · have hstep : Reader.step (.key k) s = .error .keyLength := if_neg hfits
      rw [hstep]
      rintro ⟨hall, -⟩
      exact hfits (Bool.and_eq_true_iff.1 hall).1

theorem items_agree {l : List Json} (hl : ∀ j ∈ l, ReadsAlike j) (harr : ∀ j ∈ l, isArr j = false)
    {base : Config} {e : StackEntry} {stack : List StackEntry} {c : Config} {s : Reader}
    (h : Stands base e stack c s) (hkey : e.arrayKey ≠ "") :
    Agrees (itemsFit l) (readItems c e.arrayKey l) (Stands base { e with
      currentArrayLength := e.currentArrayLength + l.length } stack)
      (runAll Reader.step (itemEvents l) s) := by
  induction l generalizing e c s with
  | nil => exact ⟨rfl, c, by rw [readItems], h⟩
  | cons j l ih =>
    have hj := harr j List.mem_cons_self
    have hnext : readNext c e s.key j = readItem c e.arrayKey j := if_pos ⟨hj, hkey⟩
    have hafter : afterValue s.key j e =
        { e with currentArrayLength := e.currentArrayLength + 1 } := by
      rw [afterValue, hj, Reader.counted, if_pos hkey]
      rfl
    have hvalue := hl j List.mem_cons_self base e stack c s h
    rw [hnext, hafter] at hvalue
    rw [itemEvents, runAll_append, itemsFit, readItems_cons]
    refine hvalue.bind fun d t ht => ?_
    have hrest := ih (fun x hx => hl x (List.mem_cons_of_mem _ hx))
      (fun x hx => harr x (List.mem_cons_of_mem _ hx)) ht hkey
    rw [List.length_cons, Nat.add_comm l.length, ← Nat.add_assoc]
    exact hrest

/-- An array among the items closes the array that they are in. -/
theorem items_close {l : List Json} (hl : ∀ j ∈ l, ReadsAlike j) {base : Config} {e : StackEntry}
    {stack : List StackEntry} {c : Config} {s : Reader} (h : Stands base e stack c s)
    (hclosed : e.arrayKey = "" ∧ e.currentArrayLength = 0 ∨ ∃ j ∈ l, isArr j) :
    Outcome (fun _ => True) (fun t => ∃ e' d, Stands base e' stack d t ∧
      e'.currentArrayLength = 0) (runAll Reader.step (itemEvents l) s) := by
  induction l generalizing e c s with
  | nil =>
    obtain ⟨-, hcur⟩ | ⟨j, hj, -⟩ := hclosed
    · exact ⟨e, c, h, hcur⟩
    · cases hj
  | cons j l ih =>
    rw [itemEvents, runAll_append]
    refine (hl j List.mem_cons_self base e stack c s h).outcome.bind fun t ⟨d, ht⟩ => ?_
    refine ih (fun x hx => hl x (List.mem_cons_of_mem _ hx)) ht ?_
    by_cases hj : isArr j
    · rw [afterValue, if_pos hj]
      exact .inl ⟨rfl, rfl⟩
    · rcases hclosed with ⟨hkey, hcur⟩ | ⟨x, hx, harr⟩
      · have hcounted : Reader.counted e = e := if_neg (not_not_intro hkey)
        rw [afterValue, if_neg hj, hcounted]
        exact .inl ⟨hkey, hcur⟩
      · rcases List.mem_cons.1 hx with rfl | hx
        · exact absurd harr hj
        · exact .inr ⟨x, hx, harr⟩

theorem object_agrees {ms : List (String × Json)} (hms : ∀ m ∈ ms, ReadsAlike m.2) :
    ReadsAlike (.obj ms) := by
  intro base e stack c s h
  obtain ⟨u, v, hstart, -, hpointing, hstack, hhead⟩ :=
    Reader.startObject_spec h.pointing h.stack h.node
  have hnext : readNext c e s.key (.obj ms) = (readMembers (named (s.nextKey e)) ms >>=
      fun d => endObject ms d >>= fun d => .ok (c.add d)) := by
    rw [readNext, Reader.nextKey]
    by_cases hkey : e.arrayKey ≠ ""
    · rw [if_pos ⟨rfl, hkey⟩, if_pos hkey]
      rfl
    · rw [if_neg fun hne => hkey hne.2, if_neg hkey, readMember]
      rfl
  have hu : Stands u.head ⟨e.conf ++ [c.children.length], v, "", 0, 0⟩ (Reader.counted e :: stack)
      (named (s.nextKey e)) u := by
    have hnode : nodeAt (e.conf ++ [c.children.length]) u.head = some (named (s.nextKey e)) := by
      rw [hhead, nodeAt_append, nodeAt_modifyAt, h.node]
      simp [nodeAt, add]
    have hsame := modifyAt_congr (f := fun _ => named (s.nextKey e)) (g := id) hnode rfl
    exact ⟨hpointing, hstack, (hsame.trans (Reader.modifyAt_id _ _)).symm, hnode⟩
  have hstep : Reader.step .startObject s = .ok u := hstart
  rw [eventsOf, runAll_cons, hstep]
  change Agrees _ _ _ (runAll Reader.step (memberEvents ms ++ [.endObject ms.length]) u)
  rw [runAll_append, hnext, keysFit, ← Bool.and_true (membersFit ms)]
  refine (members_agree hms hu rfl rfl).bind fun d t ht => ?_
  have hend := Reader.endObject_spec ht.pointing ht.stack ht.node ms.length
  rw [Nat.zero_add] at hend
  rw [runAll_cons, endObject]
  split_ifs at hend ⊢ with hcount
  · obtain ⟨w, hw, hwstack, hwhead, hwpointing⟩ := hend
    have hstep : Reader.step (.endObject ms.length) t = .ok w := hw
    have hafter : afterValue s.key (.obj ms) e = Reader.counted e := rfl
    rw [hstep, hafter]
    refine ⟨rfl, c.add d, rfl, hwpointing, hwstack, ?_, ?_⟩
    · rw [hwhead, ht.head, hhead, h.head, Reader.counted_conf, modifyAt_append, modifyAt_modifyAt,
        modifyAt_modifyAt]
      exact congrArg (fun f => modifyAt f e.conf base) (funext fun _ => modifyAt_last c _ d)
    · rw [hwhead, ht.head, hhead, Reader.counted_conf, modifyAt_append, modifyAt_modifyAt,
        nodeAt_modifyAt, h.node]
      exact congrArg some (modifyAt_last c _ d)
  · have hstep : Reader.step (.endObject ms.length) t = .error .memberCount := hend
    rw [hstep]
    rintro ⟨-, x, hx⟩
    cases hx

theorem array_agrees {items : List Json} (hitems : ∀ j ∈ items, ReadsAlike j) :
    ReadsAlike (.arr items) := by
  intro base e stack c s h
  have hnext : readNext c e s.key (.arr items) = readMember c s.key (.arr items) :=
    if_neg fun hne => Bool.noConfusion hne.1
  have hstart : Reader.step .startArray s = _ := Reader.startArray_eq h.stack
  rw [eventsOf, runAll_cons, hnext, readMember, hstart]
  by_cases hkey : s.key = ""
  · rw [if_neg (not_not_intro hkey), if_pos hkey]
    rintro ⟨-, x, hx⟩
    cases hx
  rw [if_pos hkey, if_neg hkey]
  let e' : StackEntry := { e with arrayKey := s.key, currentArrayLength := 0 }
  have hopen : Stands base e' stack c (s.setTop e') := h.setTop rfl rfl
  change Agrees _ _ _ (runAll Reader.step (itemEvents items ++ [.endArray items.length])
    (s.setTop e'))
  rw [runAll_append, keysFit]
  by_cases harr : ∃ j ∈ items, isArr j
  · -- the count is lost with the first array among the items
    have hread := readItems_of_isArr harr c s.key
    have hclose := items_close hitems hopen (.inr harr)
    cases hrun : runAll Reader.step (itemEvents items) (s.setTop e') with
    | error x => exact fun hd => hread hd.2
    | ok t =>
      rw [hrun] at hclose
      obtain ⟨e'', d, ht, hcur⟩ := hclose
      have hne : e''.currentArrayLength ≠ items.length := by
        obtain ⟨j, hj, -⟩ := harr
        rw [hcur]
        exact (List.length_pos_of_mem hj).ne
      have hstep : Reader.step (.endArray items.length) t = .error .elementCount :=
        (Reader.endArray_eq ht.stack _).trans (if_neg hne)
      change Agrees _ _ _ (runAll Reader.step [.endArray items.length] t)
      rw [runAll_cons, hstep]
      exact fun hd => hread hd.2
  · have hscalar : ∀ j ∈ items, isArr j = false := fun j hj =>
      Bool.eq_false_iff.2 fun hj' => harr ⟨j, hj, hj'⟩
    rw [← Bool.and_true (itemsFit items), ← bind_pure (readItems c s.key items)]
    refine (items_agree hitems hscalar hopen hkey).bind fun d t ht => ?_
    have hcur : 0 + items.length = items.length := Nat.zero_add _
    have hstep := Reader.endArray_eq ht.stack items.length
    rw [if_pos hcur] at hstep
    have hend : Reader.step (.endArray items.length) t = _ := hstep
    rw [runAll_cons, hend]
    refine ⟨rfl, d, rfl, ?_⟩
    have hclosed : Stands base (afterValue s.key (.arr items) e) stack d _ := ht.setTop rfl rfl
    have hextra : afterValue s.key (.arr items) e = { e with
        arrayKey := ""
        currentArrayLength := 0
        numberOfArrayElements := e.numberOfArrayElements + (0 + items.length - 1) } := by
      rw [hcur]
      rfl
    rw [hextra] at hclosed ⊢
    exact hclosed

theorem scalar_agrees (aVal : Text) : ReadsAlike (.str aVal) := by
  intro base e stack c s h
  obtain ⟨t, ht, -, hcont⟩ := Reader.addLeaf_spec h.pointing h.stack (cString aVal)
  have hstep : Reader.step (.scalar (cString aVal)) s = .ok t := ht
  rw [eventsOf, runAll_cons, hstep]
  refine ⟨rfl, _, ?_, h.continues hcont (Reader.counted_conf e)⟩
  rw [readNext]
  by_cases hkey : e.arrayKey ≠ ""
  · rw [if_pos ⟨rfl, hkey⟩, if_pos hkey]
    rfl
  · rw [if_neg fun hne => hkey hne.2, if_neg hkey, readMember]

/-- The machine comes to the next value like the recursion, wherever it stands. -/
theorem readsAlike (j : Json) : ReadsAlike j :=
  Json.induction_parts scalar_agrees (fun _ => object_agrees) (fun _ => array_agrees) j

/-- `MFromJSON` of a config that has no children yet. -/
def readDocument (c : Config) : Json → Except Abort Config
  | .obj ms => do endObject ms (← readMembers c ms)
  | _ => .error .readOutside

theorem fromJson_eq (j : Json) : fromJson j = readDocument empty j := by
  cases j <;> rfl

/-- The machine on a document ends as the recursion does, with the tree that the recursion comes
    to. -/
theorem document_agrees (head : Config) (j : Json) :
    Agrees (keysFit j) (readDocument head j) (fun d t => t.head = d)
      (runAll Reader.step (eventsOf j) (Reader.start head)) := by
  cases j with
  | str aVal =>
    rintro ⟨-, x, hx⟩
    cases hx
  | arr items =>
    rw [eventsOf, runAll_cons]
    rintro ⟨-, x, hx⟩
    cases hx
  | obj ms =>
    let s : Reader := { Reader.start head with stack := [⟨[], 0, "", 0, 0⟩] }
    have hs : Stands head ⟨[], 0, "", 0, 0⟩ [] head s := ⟨Reader.pointing_head _, rfl, rfl, rfl⟩
    have hstep : Reader.step .startObject (Reader.start head) = .ok s := rfl
    rw [eventsOf, runAll_cons, hstep]
    change Agrees _ _ _ (runAll Reader.step (memberEvents ms ++ [.endObject ms.length]) s)
    rw [runAll_append, keysFit, ← Bool.and_true (membersFit ms)]
    refine (members_agree (fun m _ => readsAlike m.2) hs rfl rfl).bind fun d t ht => ?_
    have hend := Reader.endObject_spec ht.pointing ht.stack ht.node ms.length
    rw [Nat.zero_add] at hend
    rw [runAll_cons, endObject]
    split_ifs at hend ⊢ with hcount
    · obtain ⟨w, hw, -, hwhead, -⟩ := hend
      have hstep : Reader.step (.endObject ms.length) t = .ok w := hw
      rw [hstep]
      exact ⟨rfl, d, rfl, hwhead.trans ht.head⟩
    · have hstep : Reader.step (.endObject ms.length) t = .error .memberCount := hend
      rw [hstep]
      rintro ⟨-, x, hx⟩
      cases hx

end Config

end UdtKernel
