import UdtKernel.Config.Documents

set_option autoImplicit false

/-! The documents that `CJsonReader` survives. -/

namespace UdtKernel.Config
open UdtKernel.Lib

/-- What the value of a member must be beside the members before it: a scalar takes what was read
    of its key away, and an array adds a child for each item, but at least one. -/
def fitsBehind (before : List String) (k : String) : Json → Bool
  | .str _ => k ∉ before
  | .obj _ => true
  | .arr items => k ≠ "" && !items.isEmpty

mutual

/-- No value in the object counts other children than it adds, and every key fits. -/
def readable : Json → Bool
  | .str _ => true
  | .obj ms => readableMembers [] ms
  | .arr items => readableItems items

def readableMembers (before : List String) : List (String × Json) → Bool
  | [] => true
  | (k, j) :: ms =>
    keyFits k && (fitsBehind before k j && (readable j && readableMembers (k :: before) ms))

def readableItems : List Json → Bool
  | [] => true
  | j :: l => !isArr j && (readable j && readableItems l)

end

def readableDocument : Json → Bool
  | .obj ms => readableMembers [] ms
  | _ => false

section
variable {c d : Config} {k : String}

theorem endObject_ok {ms : List (String × Json)} (h : endObject ms c = .ok d) :
    d = c ∧ c.children.length = ms.length + (ms.map arrayExtra).sum := by
  rw [endObject] at h
  split_ifs at h with hcount
  exact ⟨(Except.ok.inj h).symm, hcount⟩

theorem readItem_adds {j : Json} (h : readItem c k j = .ok d) : ∃ x, d = c.add x := by
  cases j with
  | str s => exact ⟨_, (Except.ok.inj h).symm⟩
  | arr items => cases h
  | obj ms =>
    obtain ⟨u, -, h⟩ := eq_ok_of_bind h
    obtain ⟨v, -, h⟩ := eq_ok_of_bind h
    exact ⟨v, (Except.ok.inj h).symm⟩

theorem readItems_root {l : List Json} (h : readItems c k l = .ok d) :
    d.key = c.key ∧ d.value = c.value := by
  induction l generalizing c with
  | nil =>
    rw [readItems] at h
    rw [Except.ok.inj h]
    exact ⟨rfl, rfl⟩
  | cons j l ih =>
    rw [readItems_cons] at h
    obtain ⟨u, hu, h⟩ := eq_ok_of_bind h
    obtain ⟨x, rfl⟩ := readItem_adds hu
    obtain ⟨hkey, hvalue⟩ := ih h
    exact ⟨hkey, hvalue⟩

theorem readMember_root {j : Json} (h : readMember c k j = .ok d) :
    d.key = c.key ∧ d.value = c.value := by
  cases j with
  | str s =>
    rw [readMember] at h
    rw [← Except.ok.inj h]
    exact ⟨rfl, rfl⟩
  | obj ms =>
    rw [readMember] at h
    obtain ⟨x, rfl⟩ := readItem_adds (j := .obj ms) h
    exact ⟨rfl, rfl⟩
  | arr items =>
    rw [readMember] at h
    split_ifs at h
    exact readItems_root h

/-- The key and the value of a config stay while its members are read. -/
theorem readMembers_root {ms : List (String × Json)} (h : readMembers c ms = .ok d) :
    d.key = c.key ∧ d.value = c.value := by
  induction ms generalizing c with
  | nil =>
    rw [readMembers] at h
    rw [Except.ok.inj h]
    exact ⟨rfl, rfl⟩
  | cons m ms ih =>
    rw [readMembers] at h
    obtain ⟨u, hu, h⟩ := eq_ok_of_bind h
    obtain ⟨hkey, hvalue⟩ := readMember_root hu
    exact ⟨(ih h).1.trans hkey, (ih h).2.trans hvalue⟩

/-- What is read of an object has its key, and no value. -/
theorem root_of_readObject {ms : List (String × Json)}
    (h : (readMembers (named k) ms >>= endObject ms) = .ok d) : d.key = k ∧ d.value = [] := by
  obtain ⟨u, hu, h⟩ := eq_ok_of_bind h
  rw [(endObject_ok h).1]
  exact readMembers_root hu

theorem readItem_ok {j : Json} (h : readItem c k j = .ok d) : ∃ x, x.key = k ∧ d = c.add x := by
  cases j with
  | str s => exact ⟨_, key_leaf k _, (Except.ok.inj h).symm⟩
  | arr items => cases h
  | obj ms =>
    obtain ⟨u, hu, h⟩ := eq_ok_of_bind h
    obtain ⟨v, hv, h⟩ := eq_ok_of_bind h
    have hobject : (readMembers (named k) ms >>= endObject ms) = .ok v := by
      rw [hu]
      exact hv
    exact ⟨v, (root_of_readObject hobject).1, (Except.ok.inj h).symm⟩

theorem readItems_ok {l : List Json} (h : readItems c k l = .ok d) :
    ∃ xs : List Config, d = c.addAll xs ∧ xs.length = l.length ∧ ∀ x ∈ xs, x.key = k := by
  induction l generalizing c with
  | nil =>
    rw [readItems] at h
    exact ⟨[], (Except.ok.inj h).symm, rfl, List.forall_mem_nil _⟩
  | cons j l ih =>
    rw [readItems_cons] at h
    obtain ⟨u, hu, h⟩ := eq_ok_of_bind h
    obtain ⟨x, hx, rfl⟩ := readItem_ok hu
    obtain ⟨xs, rfl, hlength, hkeys⟩ := ih h
    exact ⟨x :: xs, rfl, congrArg (· + 1) hlength, List.forall_mem_cons.2 ⟨hx, hkeys⟩⟩

theorem set_length_le (c : Config) (k : String) (v : Text) :
    (c.set k v).children.length ≤ c.children.length + 1 := by
  change (c.children.filter _ ++ [_]).length ≤ _
  rw [List.length_append, List.length_singleton]
  exact Nat.add_le_add_right (List.length_filter_le _ _) 1

/-- A scalar that replaces nothing adds a child. -/
theorem set_length_eq_iff (c : Config) (k : String) (v : Text) :
    (c.set k v).children.length = c.children.length + 1 ↔ c.isChild k = false := by
  change (c.children.filter _ ++ [_]).length = _ ↔ _
  rw [List.length_append, List.length_singleton, Nat.add_right_cancel_iff,
    List.length_filter_eq_length_iff, isChild, List.any_eq_false]
  simp only [decide_eq_true_eq, ne_eq]

theorem length_addAll (c : Config) (xs : List Config) :
    (c.addAll xs).children.length = c.children.length + xs.length := by
  rw [children_addAll, List.length_append]

theorem isChild_addAll {xs : List Config} (hxs : ∀ x ∈ xs, x.key = k) (hne : xs ≠ [])
    (c : Config) (j : String) : (c.addAll xs).isChild j = (c.isChild j || decide (k = j)) := by
  rw [isChild, children_addAll, List.any_append, ← isChild]
  refine congrArg (c.isChild j || ·) ?_
  by_cases hj : k = j
  · obtain ⟨x, hx⟩ := List.exists_mem_of_ne_nil xs hne
    rw [decide_eq_true hj]
    exact List.any_eq_true.2 ⟨x, hx, decide_eq_true ((hxs x hx).trans hj)⟩
  · rw [decide_eq_false hj, List.any_eq_false]
    exact fun x hx hx' => hj ((hxs x hx).symm.trans (of_decide_eq_true hx'))

/-- A member adds a child, an array one for each item, or it adds less than it should. -/
theorem member_count {j : Json} (h : readMember c k j = .ok d) :
    d.children.length ≤ c.children.length + (1 + arrayExtra (k, j)) ∧
      ∀ before : List String, (k ∈ before ↔ c.isChild k) →
        (d.children.length = c.children.length + (1 + arrayExtra (k, j)) ↔
          fitsBehind before k j) ∧
        (fitsBehind before k j → ∀ i, d.isChild i = (c.isChild i || decide (k = i))) := by
  cases j with
  | str s =>
    rw [readMember] at h
    obtain rfl := Except.ok.inj h
    refine ⟨set_length_le c k _, fun before hbefore => ⟨?_, fun _ => isChild_set c k _⟩⟩
    refine (set_length_eq_iff c k _).trans ?_
    rw [fitsBehind, decide_eq_true_eq, hbefore, Bool.not_eq_true]
  | obj ms =>
    rw [readMember] at h
    obtain ⟨x, hx, rfl⟩ := readItem_ok (j := .obj ms) h
    have hlength : (c.add x).children.length = c.children.length + 1 := length_addAll c [x]
    refine ⟨hlength.le, fun before _ => ⟨iff_of_true hlength rfl, fun _ i => ?_⟩⟩
    rw [isChild_add, hx]
  | arr items =>
    rw [readMember] at h
    split_ifs at h with hk
    obtain ⟨xs, rfl, hxs, hkeys⟩ := readItems_ok h
    have hextra : arrayExtra (k, .arr items) = items.length - 1 := rfl
    rw [length_addAll, hxs, hextra]
    have hfits : ∀ before, fitsBehind before k (.arr items) = true ↔ items ≠ [] := by
      intro before
      simp [fitsBehind, hk]
    have hpos := List.length_pos_iff (l := items)
    refine ⟨by omega, fun before _ => ⟨?_, fun hne => isChild_addAll hkeys ?_ c⟩⟩
    · rw [hfits, ← hpos]
      omega
    · exact List.length_pos_iff.1 (hxs ▸ hpos.2 ((hfits before).1 hne))

theorem members_count {ms : List (String × Json)} (h : readMembers c ms = .ok d) :
    d.children.length ≤ c.children.length + (ms.length + (ms.map arrayExtra).sum) := by
  induction ms generalizing c with
  | nil =>
    rw [readMembers] at h
    rw [Except.ok.inj h]
    exact Nat.le_refl _
  | cons m ms ih =>
    obtain ⟨k, j⟩ := m
    rw [readMembers] at h
    obtain ⟨u, hu, h⟩ := eq_ok_of_bind h
    have hfirst := (member_count hu).1
    have hrest := ih h
    rw [List.length_cons, List.map_cons, List.sum_cons]
    omega

/-- The members are read and counted rightly where they are readable. -/
theorem members_readable {ms : List (String × Json)}
    (hms : ∀ m ∈ ms, ∀ c : Config, (keysFit m.2 ∧ ∃ d, readMember c m.1 m.2 = .ok d) ↔
      readable m.2 ∧ (isArr m.2 → m.1 ≠ ""))
    {before : List String} (hbefore : ∀ k, k ∈ before ↔ c.isChild k) :
    (membersFit ms ∧ ∃ d, readMembers c ms = .ok d ∧
      d.children.length = c.children.length + (ms.length + (ms.map arrayExtra).sum)) ↔
      readableMembers before ms := by
  induction ms generalizing c before with
  | nil => simp [membersFit, readMembers, readableMembers]
  | cons m ms ih =>
    obtain ⟨k, j⟩ := m
    have hfirst : (keysFit j ∧ ∃ d, readMember c k j = .ok d) ↔ readable j ∧ (isArr j → k ≠ "") :=
      hms (k, j) List.mem_cons_self c
    have hkey : fitsBehind before k j → (isArr j → k ≠ "") := by
      cases j <;> simp +contextual [fitsBehind, isArr]
    have hnext : ∀ u : Config, (∀ i, u.isChild i = (c.isChild i || decide (k = i))) →
        ∀ i, i ∈ k :: before ↔ u.isChild i := by
      intro u hu i
      rw [hu, List.mem_cons, hbefore, Bool.or_eq_true, decide_eq_true_eq, or_comm, @eq_comm _ i]
    simp only [membersFit, readMembers, readableMembers, Bool.and_eq_true, List.length_cons,
      List.map_cons, List.sum_cons]
    constructor
    · rintro ⟨⟨hfits, hj, hrest⟩, d, hd, hcount⟩
      obtain ⟨u, hu, hd⟩ := eq_ok_of_bind hd
      obtain ⟨hle, hiff⟩ := member_count hu
      obtain ⟨heq, hchild⟩ := hiff before (hbefore k)
      have hle' := members_count hd
      -- what one member lacks no other makes up for
      have hbehind := heq.1 (by omega)
      refine ⟨hfits, hbehind, (hfirst.1 ⟨hj, u, hu⟩).1, ?_⟩
      exact (ih (fun m hm => hms m (List.mem_cons_of_mem _ hm)) (hnext u (hchild hbehind))).1
        ⟨hrest, d, hd, by have := heq.2 hbehind; omega⟩
    · rintro ⟨hfits, hbehind, hj, hrest⟩
      obtain ⟨hj, u, hu⟩ := hfirst.2 ⟨hj, hkey hbehind⟩
      obtain ⟨heq, hchild⟩ := (member_count hu).2 before (hbefore k)
      obtain ⟨hall, d, hd, hcount⟩ := (ih (fun m hm => hms m (List.mem_cons_of_mem _ hm))
        (hnext u (hchild hbehind))).2 hrest
      have hlength := heq.2 hbehind
      exact ⟨⟨hfits, hj, hall⟩, d, by rw [hu]; exact hd, by omega⟩

/-- An object is read where its members are readable. -/
theorem object_readable {ms : List (String × Json)}
    (hms : ∀ m ∈ ms, ∀ c : Config, (keysFit m.2 ∧ ∃ d, readMember c m.1 m.2 = .ok d) ↔
      readable m.2 ∧ (isArr m.2 → m.1 ≠ "")) (hc : c.children = []) :
    (membersFit ms ∧ ∃ d, (readMembers c ms >>= endObject ms) = .ok d) ↔
      readableMembers [] ms := by
  have hbefore : ∀ k, k ∈ ([] : List String) ↔ c.isChild k := by simp [isChild, hc]
  rw [← members_readable hms hbefore, and_congr_right_iff]
  intro _
  constructor
  · rintro ⟨d, hd⟩
    obtain ⟨u, hu, hend⟩ := eq_ok_of_bind hd
    refine ⟨u, hu, ?_⟩
    rw [(endObject_ok hend).2, hc, List.length_nil, Nat.zero_add]
  · rintro ⟨d, hd, hcount⟩
    refine ⟨d, ?_⟩
    rw [hc, List.length_nil, Nat.zero_add] at hcount
    rw [hd]
    exact if_pos hcount

/-- What is no array is read as an item where it is read as a member. -/
theorem readItem_iff {j : Json} (h : isArr j = false) :
    (∃ d, readItem c k j = .ok d) ↔ ∃ d, readMember c k j = .ok d := by
  cases j with
  | str s =>
    rw [readMember]
    exact iff_of_true ⟨_, rfl⟩ ⟨_, rfl⟩
  | obj ms =>
    rw [readMember]
    rfl
  | arr items => cases h

theorem items_readable {l : List Json}
    (hl : ∀ j ∈ l, ∀ c : Config, (keysFit j ∧ ∃ d, readMember c k j = .ok d) ↔
      readable j ∧ (isArr j → k ≠ "")) :
    (itemsFit l ∧ ∃ d, readItems c k l = .ok d) ↔ readableItems l := by
  induction l generalizing c with
  | nil => simp [itemsFit, readItems, readableItems]
  | cons j l ih =>
    have hrest : ∀ c : Config, (itemsFit l ∧ ∃ d, readItems c k l = .ok d) ↔ readableItems l :=
      fun c => ih fun j hj => hl j (List.mem_cons_of_mem _ hj)
    simp only [itemsFit, readableItems, Bool.and_eq_true, Bool.not_eq_true']
    cases harr : isArr j with
    | true =>
      refine iff_of_false ?_ fun h => Bool.noConfusion h.1
      rintro ⟨-, hd⟩
      exact readItems_of_isArr ⟨j, List.mem_cons_self, harr⟩ c k hd
    | false =>
      have hfirst := hl j List.mem_cons_self c
      rw [harr, ← readItem_iff harr] at hfirst
      have hfirst := hfirst.trans (and_iff_left fun h => Bool.noConfusion h)
      rw [readItems_cons, eq_self_iff_true, true_and, ← hfirst]
      constructor
      · rintro ⟨⟨hfits, hall⟩, d, hd⟩
        obtain ⟨u, hu, hd⟩ := eq_ok_of_bind hd
        exact ⟨⟨hfits, u, hu⟩, (hrest u).1 ⟨hall, d, hd⟩⟩
      · rintro ⟨⟨hfits, u, hu⟩, hall⟩
        obtain ⟨hall, d, hd⟩ := (hrest u).2 hall
        exact ⟨⟨hfits, hall⟩, d, by rw [hu]; exact hd⟩

end

/-- A value is read behind a key where it is readable, and an array where the key is not empty. -/
theorem value_readable (j : Json) : ∀ (c : Config) (k : String),
    (keysFit j ∧ ∃ d, readMember c k j = .ok d) ↔ readable j ∧ (isArr j → k ≠ "") := by
  induction j using Json.induction_parts with
  | hstr s =>
    intro c k
    rw [readMember]
    exact iff_of_true ⟨rfl, _, rfl⟩ ⟨rfl, fun h => Bool.noConfusion h⟩
  | hobj ms ih =>
    intro c k
    have hobject := object_readable (fun m hm c => ih m hm c m.1) (children_named k)
    have hnot : isArr (.obj ms) → k ≠ "" := fun h => Bool.noConfusion h
    rw [keysFit, readable, ← hobject, and_iff_left hnot, readMember]
    refine and_congr_right fun _ => ⟨?_, ?_⟩
    · rintro ⟨d, hd⟩
      obtain ⟨u, hu, hd⟩ := eq_ok_of_bind hd
      obtain ⟨v, hv, -⟩ := eq_ok_of_bind hd
      exact ⟨v, by rw [hu]; exact hv⟩
    · rintro ⟨d, hd⟩
      obtain ⟨u, hu, hd⟩ := eq_ok_of_bind hd
      refine ⟨c.add d, ?_⟩
      rw [hu]
      change (endObject ms u >>= _) = _
      rw [hd]
      rfl
  | harr items ih =>
    intro c k
    rw [keysFit, readable, readMember]
    by_cases hk : k = ""
    · rw [if_pos hk]
      refine iff_of_false ?_ fun h => h.2 rfl hk
      rintro ⟨-, d, hd⟩
      cases hd
    · rw [if_neg hk, items_readable fun j hj c => ih j hj c k]
      exact (and_iff_left fun _ => hk).symm

/-- A document is read into a config without children where it is readable. -/
theorem document_readable {head : Config} (hhead : head.children = []) (j : Json) :
    (keysFit j ∧ ∃ d, readDocument head j = .ok d) ↔ readableDocument j := by
  cases j with
  | obj ms => exact object_readable (fun m _ c => value_readable m.2 c m.1) hhead
  | str s =>
    refine iff_of_false ?_ Bool.false_ne_true
    rintro ⟨-, d, hd⟩
    cases hd
  | arr items =>
    refine iff_of_false ?_ Bool.false_ne_true
    rintro ⟨-, d, hd⟩
    cases hd

/-- The reader comes to the end of the events, and no pointer on its stack ever leads to a config
    that was moved. -/
def Survives (head : Config) (evs : List Event) : Prop :=
  (∃ t, runAll Reader.step evs (Reader.start head) = .ok t) ∧
    ∀ before, before <+: evs → ∀ t,
      runAll Reader.step before (Reader.start head) = .ok t → t.Pointing

/-- A legal document is survived where it is an object of which every key fits, every array is
    neither empty nor an array's item, and no scalar comes behind a key that was there before. -/
theorem survives_iff_readable (key : String) (value : Text) (j : Json) :
    Survives (node key value []) (eventsOf j) ↔ readableDocument j := by
  have hagrees := document_agrees (node key value []) j
  have hpointing : ∀ before, before <+: eventsOf j → ∀ t,
      runAll Reader.step before (Reader.start (node key value [])) = .ok t → t.Pointing := by
    intro before _ t ht
    have hrun := Reader.runAll_pointing (node key value []) before
    rw [ht] at hrun
    exact hrun
  rw [Survives, and_iff_left hpointing, ← document_readable (children_node key value []) j]
  cases hrun : runAll Reader.step (eventsOf j) (Reader.start (node key value [])) with
  | ok t =>
    rw [hrun] at hagrees
    obtain ⟨hfits, d, hd, -⟩ := hagrees
    exact iff_of_true ⟨t, rfl⟩ ⟨hfits, d, hd⟩
  | error x =>
    rw [hrun] at hagrees
    exact iff_of_false (fun ⟨t, ht⟩ => nomatch ht) hagrees

/-- An empty array behind a key is a legal document. -/
theorem not_survives_emptyArray :
    ¬∀ (key : String) (value : Text) (j : Json),
      Survives (node key value []) (eventsOf j) := by
  intro h
  obtain ⟨⟨t, ht⟩, -⟩ := h "" [] (.obj [("a", .arr [])])
  have hrun : runAll Reader.step (eventsOf (.obj [("a", .arr [])])) (Reader.start (node "" [] [])) =
      .error .memberCount := by
    rfl
  rw [hrun] at ht
  cases ht

end UdtKernel.Config
