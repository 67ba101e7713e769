import Mathlib.Data.List.Dedup
import Mathlib.Data.List.TakeWhile
import UdtKernel.Config.Tree

set_option autoImplicit false

/-! How a config becomes a JSON value, and a JSON value a config. -/

namespace UdtKernel

/-- The JSON values that `MToJSON` writes; the numbers of a message are texts. -/
inductive Json where
  | str (s : Text)
  | obj (members : List (String × Json))
  | arr (items : List Json)

namespace Config

/-- `c_str` ends at the first `\0`. -/
def cString (t : Text) : Text := t.takeWhile (· ≠ '\x00')

/-- The keys that come more than once, as the keys of a `std::map`. -/
def repeatedKeys (l : List String) : List String :=
  ((l.filter fun k => 1 < l.count k).dedup).mergeSort fun j k => j ≤ k

/-- The members of `write_json_impl`: those of one key come as they are, then the others as
    arrays. -/
def members (l : List (String × Json)) : List (String × Json) :=
  let keys := l.map Prod.fst
  (l.filter fun p => keys.count p.1 ≤ 1) ++
    (repeatedKeys keys).map fun k => (k, .arr ((l.filter fun p => p.1 = k).map Prod.snd))

mutual

/-- `write_json_impl` of a config, behind its key. -/
def toJson : Config → Json
  | .node _ value children =>
    if value ≠ [] ∧ children = [] then .str (cString value)
    else .obj (members (toMembers children))

def toMembers : List Config → List (String × Json)
  | [] => []
  | .node key value children :: l => (key, toJson (.node key value children)) :: toMembers l

end

def document (c : Config) : Json := .obj [(c.key, c.toJson)]

/-- How many more children than members there are to be, for an array that is a member. -/
def arrayExtra : String × Json → ℕ
  | (_, .arr items) => items.length - 1
  | _ => 0

def endObject (ms : List (String × Json)) (c : Config) : Except Abort Config :=
  if c.children.length = ms.length + (ms.map arrayExtra).sum then .ok c else .error .countIsWrong

mutual

/-- `CJsonReader` at a value behind a key. -/
def readMember (c : Config) (k : String) : Json → Except Abort Config
  | .str s => .ok (c.set k (cString s))
  | .obj ms => do return c.add (← endObject ms (← readMembers (named k) ms))
  | .arr items => if k = "" then .error .arrayWithoutKey else readItems c k items

/-- `CJsonReader` at the members of an object. -/
def readMembers (c : Config) : List (String × Json) → Except Abort Config
  | [] => .ok c
  | (k, j) :: ms => do readMembers (← readMember c k j) ms

/-- `CJsonReader` at the items of an array; an array in an array ends with a count that is wrong. -/
def readItems (c : Config) (k : String) : List Json → Except Abort Config
  | [] => .ok c
  | .str s :: l => readItems (c.addValue k (cString s)) k l
  | .obj ms :: l => do readItems (c.add (← endObject ms (← readMembers (named k) ms))) k l
  | .arr _ :: _ => .error .countIsWrong

end

/-- `MFromJSON`, where the text is an object. -/
def fromJson : Json → Except Abort Config
  | .obj ms => do endObject ms (← readMembers empty ms)
  | _ => .error .readOutside

def keys (l : List Config) : List String := l.map key

/-- The order of the children behind a document: those of one key, and then the others. -/
def order (l : List Config) : List Config :=
  (l.filter fun x => (keys l).count x.key ≤ 1) ++
    (repeatedKeys (keys l)).flatMap fun k => l.filter fun x => x.key = k

mutual

def regroup : Config → Config
  | .node key value children =>
    .node key (if children = [] then cString value else []) (order (regroupAll children))

def regroupAll : List Config → List Config
  | [] => []
  | x :: l => regroup x :: regroupAll l

end

theorem mem_repeatedKeys {k : String} {l : List String} :
    k ∈ repeatedKeys l ↔ 1 < l.count k := by
  unfold repeatedKeys
  rw [List.mem_mergeSort, List.mem_dedup, List.mem_filter, decide_eq_true_eq, and_iff_right_iff_imp]
  exact fun h => List.count_pos_iff.1 (Nat.lt_trans Nat.zero_lt_one h)

theorem nodup_repeatedKeys (l : List String) : (repeatedKeys l).Nodup :=
  (List.mergeSort_perm _ _).nodup_iff.2 (List.nodup_dedup _)

theorem flatMap_ite_eq {α : Type} {l : List String} (hl : l.Nodup) (k : String) (ys : List α) :
    (l.flatMap fun j => if j = k then ys else []) = if k ∈ l then ys else [] := by
  induction l with
  | nil => rfl
  | cons j l ih =>
    obtain ⟨hj, hl⟩ := List.nodup_cons.1 hl
    rw [List.flatMap_cons, ih hl]
    by_cases hjk : j = k
    · subst hjk
      simp [hj]
    · simp [hjk, Ne.symm hjk]

/-- The children of a key stay together, in their order. -/
theorem filter_order (l : List Config) (k : String) :
    ((order l).filter fun x => x.key = k) = l.filter fun x => x.key = k := by
  unfold order
  have hgroup : ∀ j, ((l.filter fun x => x.key = j).filter fun x => x.key = k) =
      if j = k then l.filter fun x => x.key = k else [] := by
    intro j
    by_cases hjk : j = k
    · subst hjk
      simp
    · rw [if_neg hjk, List.filter_filter, List.filter_eq_nil_iff]
      intro x _ hx
      simp only [Bool.and_eq_true, decide_eq_true_eq] at hx
      exact hjk (hx.2.symm.trans hx.1)
  rw [List.filter_append, List.filter_flatMap]
  simp only [hgroup]
  rw [flatMap_ite_eq (nodup_repeatedKeys _), List.filter_filter]
  by_cases hk : 1 < (keys l).count k
  · rw [if_pos (mem_repeatedKeys.2 hk), List.filter_eq_nil_iff.2, List.nil_append]
    intro x _ hx
    simp only [Bool.and_eq_true, decide_eq_true_eq] at hx
    rw [hx.1] at hx
    exact Nat.not_le.2 hk hx.2
  · rw [if_neg (mt mem_repeatedKeys.1 hk), List.append_nil]
    refine List.filter_congr fun x _ => ?_
    by_cases hx : x.key = k
    · simpa [hx] using Nat.not_lt.1 hk
    · simp [hx]

theorem regroupAll_eq (l : List Config) : regroupAll l = l.map regroup := by
  induction l with
  | nil => rfl
  | cons x l ih => rw [regroupAll, ih, List.map_cons]

@[simp] theorem key_regroup (c : Config) : c.regroup.key = c.key := by
  cases c
  rw [regroup]
  rfl

theorem childrenOf_regroup (c : Config) (k : String) :
    c.regroup.childrenOf k = (c.childrenOf k).map regroup := by
  cases c with
  | node key value children =>
    rw [regroup, childrenOf, children_node, filter_order, regroupAll_eq, List.filter_map]
    simp only [Function.comp_def, key_regroup]
    rfl

@[simp] theorem order_nil : order [] = [] := by
  simp [order, keys, repeatedKeys]

/-- A config without children keeps its value up to a `\x00`. -/
theorem regroup_leaf (k : String) (v : Text) : (leaf k v).regroup = leaf k (cString v) := by
  rw [leaf, regroup, regroupAll, order_nil, if_pos rfl, leaf]

theorem regroup_empty : empty.regroup = empty := regroup_leaf "" []

theorem child_regroup (c : Config) (k : String) : c.regroup.child k = (c.child k).regroup := by
  rw [child_eq, child_eq, childrenOf_regroup]
  cases c.childrenOf k with
  | nil => exact regroup_empty.symm
  | cons x l => rfl

theorem toMembers_eq (l : List Config) : toMembers l = l.map fun x => (x.key, x.toJson) := by
  induction l with
  | nil => rfl
  | cons x l ih =>
    cases x
    rw [toMembers, ih, List.map_cons]
    rfl

theorem cString_cString (t : Text) : cString (cString t) = cString t := List.takeWhile_idem

/-- Something that holds of a config when it holds of its children holds of every config. -/
theorem induction_children {P : Config → Prop}
    (h : ∀ key value children, (∀ x ∈ children, P x) → P (node key value children)) :
    ∀ c, P c
  | node key value children => h key value children fun x hx =>
    have : sizeOf x < sizeOf children := List.sizeOf_lt_of_mem hx
    induction_children h x
termination_by c => sizeOf c

inductive HasKeys : Config → Prop where
  | node {key : String} {value : Text} {children : List Config} (hkey : key ≠ "")
      (hchildren : ∀ x ∈ children, HasKeys x) : HasKeys (.node key value children)

/-- What is written of a config is read behind its key. -/
def ReadsBack (x : Config) : Prop :=
  (∀ c : Config, c.isChild x.key = false → readMember c x.key x.toJson = .ok (c.add x.regroup)) ∧
    ∀ (c : Config) (l : List Json),
      readItems c x.key (x.toJson :: l) = readItems (c.add x.regroup) x.key l

theorem arrayExtra_toJson (k : String) (x : Config) : arrayExtra (k, x.toJson) = 0 := by
  cases x
  rw [toJson]
  split_ifs <;> rfl

theorem set_eq_addValue {c : Config} {k : String} (h : c.isChild k = false) (v : Text) :
    c.set k v = c.addValue k v := by
  have hremove : c.remove k = c := by
    obtain ⟨key, value, children⟩ := c
    rw [remove, children_node, List.filter_eq_self.2]
    · rfl
    · intro x hx
      rw [isChild, children_node, List.any_eq_false] at h
      exact decide_eq_true fun hk => h x hx (decide_eq_true hk)
  rw [set, hremove]

theorem readMembers_append (c : Config) (ms ns : List (String × Json)) :
    readMembers c (ms ++ ns) = (do readMembers (← readMembers c ms) ns) := by
  induction ms generalizing c with
  | nil => simp [readMembers, bind, Except.bind]
  | cons m ms ih =>
    obtain ⟨k, j⟩ := m
    rw [List.cons_append, readMembers, readMembers]
    cases hm : readMember c k j with
    | error e => rfl
    | ok d => exact ih d

/-- Configs of different keys are read one after another. -/
theorem readMembers_distinct {c : Config} {l : List Config} (hl : ∀ x ∈ l, ReadsBack x)
    (hnodup : (keys l).Nodup) (hc : ∀ x ∈ l, c.isChild x.key = false) :
    readMembers c (l.map fun x => (x.key, x.toJson)) = .ok (c.addAll (l.map regroup)) := by
  induction l generalizing c with
  | nil => rw [List.map_nil, readMembers, List.map_nil]; rfl
  | cons x l ih =>
    obtain ⟨hx, hnodup⟩ := List.nodup_cons.1 hnodup
    rw [List.map_cons, readMembers, (hl x List.mem_cons_self).1 c (hc x List.mem_cons_self)]
    refine ih (fun y hy => hl y (List.mem_cons_of_mem x hy)) hnodup fun y hy => ?_
    rw [isChild_add, hc y (List.mem_cons_of_mem x hy), key_regroup, Bool.false_or,
      decide_eq_false_iff_not]
    exact fun hxy => hx (hxy ▸ List.mem_map_of_mem hy)

theorem readItems_toJson {c : Config} {k : String} {l : List Config} (hl : ∀ x ∈ l, ReadsBack x)
    (hk : ∀ x ∈ l, x.key = k) :
    readItems c k (l.map toJson) = .ok (c.addAll (l.map regroup)) := by
  induction l generalizing c with
  | nil => rw [List.map_nil, readItems, List.map_nil]; rfl
  | cons x l ih =>
    have hx := (hl x List.mem_cons_self).2 c (l.map toJson)
    rw [hk x List.mem_cons_self] at hx
    rw [List.map_cons, hx]
    exact ih (fun y hy => hl y (List.mem_cons_of_mem x hy)) fun y hy =>
      hk y (List.mem_cons_of_mem x hy)

/-- The arrays of a document are read one after another. -/
theorem readMembers_arrays {c : Config} {l : List Config} (hl : ∀ x ∈ l, ReadsBack x)
    {ks : List String} (hks : ∀ k ∈ ks, k ≠ "") :
    readMembers c (ks.map fun k => (k, .arr ((l.filter fun x => x.key = k).map toJson))) =
      .ok (c.addAll ((ks.flatMap fun k => l.filter fun x => x.key = k).map regroup)) := by
  induction ks generalizing c with
  | nil => rw [List.map_nil, readMembers]; rfl
  | cons k ks ih =>
    have hread : readMember c k (.arr ((l.filter fun x => x.key = k).map toJson)) =
        .ok (c.addAll ((l.filter fun x => x.key = k).map regroup)) := by
      rw [readMember, if_neg (hks k List.mem_cons_self)]
      exact readItems_toJson (fun x hx => hl x (List.mem_of_mem_filter hx)) fun x hx =>
        of_decide_eq_true (List.mem_filter.1 hx).2
    rw [List.map_cons, readMembers, hread]
    simp only [bind, Except.bind]
    rw [ih fun j hj => hks j (List.mem_cons_of_mem k hj), List.flatMap_cons, List.map_append]
    simp only [addAll, List.foldl_append]

theorem members_toMembers (l : List Config) :
    members (toMembers l) =
      ((l.filter fun x => (keys l).count x.key ≤ 1).map fun x => (x.key, x.toJson)) ++
        (repeatedKeys (keys l)).map fun k =>
          (k, .arr ((l.filter fun x => x.key = k).map toJson)) := by
  have hkeys : (l.map fun x => (x.key, x.toJson)).map Prod.fst = keys l := by
    rw [List.map_map]
    rfl
  unfold members
  rw [toMembers_eq, hkeys]
  simp only [List.filter_map, List.map_map]
  rfl

theorem nodup_keys_filter (l : List Config) :
    (keys (l.filter fun x => (keys l).count x.key ≤ 1)).Nodup := by
  rw [List.nodup_iff_count_le_one]
  intro k
  by_cases hk : k ∈ keys (l.filter fun x => (keys l).count x.key ≤ 1)
  · obtain ⟨x, hx, rfl⟩ := List.mem_map.1 hk
    have hcount := of_decide_eq_true (List.mem_filter.1 hx).2
    exact Nat.le_trans ((List.filter_sublist.map key).count_le x.key) hcount
  · rw [List.count_eq_zero_of_not_mem hk]
    exact Nat.zero_le 1

theorem order_map_regroup (l : List Config) : order (l.map regroup) = (order l).map regroup := by
  have hkeys : keys (l.map regroup) = keys l := by
    simp [keys, Function.comp_def]
  unfold order
  rw [hkeys, List.map_append, List.map_flatMap]
  simp only [List.filter_map, Function.comp_def, key_regroup]

/-- The children of a config are read in the order of the document. -/
theorem readMembers_members {c : Config} {l : List Config} (hc : c.children = [])
    (hl : ∀ x ∈ l, ReadsBack x ∧ x.key ≠ "") :
    readMembers c (members (toMembers l)) = .ok (c.addAll (order (regroupAll l))) := by
  have hchild : ∀ k, c.isChild k = false := fun k => by rw [isChild, hc]; rfl
  have hks : ∀ k ∈ repeatedKeys (keys l), k ≠ "" := by
    intro k hk
    have hmem : k ∈ keys l :=
      List.count_pos_iff.1 (Nat.lt_trans Nat.zero_lt_one (mem_repeatedKeys.1 hk))
    obtain ⟨x, hx, rfl⟩ := List.mem_map.1 hmem
    exact (hl x hx).2
  rw [members_toMembers, readMembers_append,
    readMembers_distinct (fun x hx => (hl x (List.mem_of_mem_filter hx)).1) (nodup_keys_filter l)
      fun x _ => hchild x.key]
  simp only [bind, Except.bind]
  rw [readMembers_arrays (fun x hx => (hl x hx).1) hks, regroupAll_eq, order_map_regroup, order,
    List.map_append]
  simp only [addAll, List.foldl_append]

/-- The members account for the children. -/
theorem length_order (l : List Config) :
    (order l).length =
      (members (toMembers l)).length + ((members (toMembers l)).map arrayExtra).sum := by
  rw [members_toMembers, order]
  simp only [List.length_append, List.map_append, List.sum_append, List.length_map, List.map_map]
  have hdistinct : ∀ xs : List Config,
      (xs.map (arrayExtra ∘ fun x => (x.key, x.toJson))).sum = 0 := by
    intro xs
    induction xs with
    | nil => rfl
    | cons x xs ih =>
      rw [List.map_cons, List.sum_cons, ih, Function.comp_apply, arrayExtra_toJson]
  have harrays : ∀ ks : List String, (∀ k ∈ ks, 1 < (keys l).count k) →
      (ks.flatMap fun k => l.filter fun x => x.key = k).length = ks.length +
        (ks.map (arrayExtra ∘ fun k => (k, .arr ((l.filter fun x => x.key = k).map toJson)))).sum
      := by
    intro ks hks
    induction ks with
    | nil => rfl
    | cons k ks ih =>
      have hk := hks k List.mem_cons_self
      have hlength : (l.filter fun x => x.key = k).length = (keys l).count k := by
        rw [keys, List.count_eq_length_filter, List.filter_map, List.length_map]
        rfl
      rw [List.flatMap_cons, List.length_append, ih fun j hj => hks j (List.mem_cons_of_mem k hj)]
      simp only [List.map_cons, List.sum_cons, Function.comp_apply, arrayExtra, List.length_map,
        List.length_cons, hlength]
      omega
  rw [hdistinct, harrays _ fun k hk => mem_repeatedKeys.1 hk]
  omega

theorem children_named (k : String) : (named k).children = [] := rfl

theorem value_addAll (c : Config) (xs : List Config) : (c.addAll xs).value = c.value := by
  induction xs generalizing c with
  | nil => rfl
  | cons x xs ih => exact ih (c.add x)

theorem named_addAll (k : String) (xs : List Config) : (named k).addAll xs = node k [] xs := by
  have hchildren := children_addAll (named k) xs
  have hkey := key_addAll (named k) xs
  have hvalue := value_addAll (named k) xs
  generalize (named k).addAll xs = c at hchildren hkey hvalue
  cases c
  cases hchildren
  cases hkey
  cases hvalue
  rfl

/-- An object that is written is read, with a count that is right. -/
theorem readObject {key : String} {value : Text} {l : List Config}
    (hl : ∀ x ∈ l, ReadsBack x ∧ x.key ≠ "") (hvalue : value = [] ∨ l ≠ []) :
    ∃ d, readMembers (named key) (members (toMembers l)) = .ok d ∧
      endObject (members (toMembers l)) d = .ok (node key value l).regroup := by
  have hregroup : (node key value l).regroup = node key [] (order (regroupAll l)) := by
    rw [regroup]
    split_ifs with hnil
    · rw [hvalue.resolve_right (not_not_intro hnil)]
      rfl
    · rfl
  have hlength : (order (regroupAll l)).length = (order l).length := by
    rw [regroupAll_eq, order_map_regroup, List.length_map]
  refine ⟨_, readMembers_members (children_named key) hl, ?_⟩
  rw [named_addAll, hregroup, endObject, if_pos]
  rw [children_node, hlength, length_order]

/-- A config whose configs all have keys is read as it is written. -/
theorem readsBack {x : Config} (h : HasKeys x) : ReadsBack x := by
  induction x using induction_children with
  | h key value children ih =>
    obtain ⟨hkey, hchildren⟩ := h
    have hl : ∀ x ∈ children, ReadsBack x ∧ x.key ≠ "" := by
      intro x hx
      refine ⟨ih x hx (hchildren x hx), ?_⟩
      cases hchildren x hx with
      | node hkey _ => exact hkey
    by_cases hleaf : value ≠ [] ∧ children = []
    · have hjson : (node key value children).toJson = .str (cString value) := by
        rw [toJson, if_pos hleaf]
      have hregroup : (node key value children).regroup = leaf key (cString value) := by
        rw [hleaf.2]
        exact regroup_leaf key value
      rw [ReadsBack, hjson, hregroup]
      refine ⟨fun c hc => ?_, fun c l => ?_⟩
      · rw [readMember, cString_cString, set_eq_addValue hc]
        rfl
      · rw [readItems, cString_cString]
        rfl
    · have hvalue : value = [] ∨ children ≠ [] := (not_and_or.1 hleaf).imp_left not_not.1
      have hjson : (node key value children).toJson = .obj (members (toMembers children)) := by
        rw [toJson, if_neg hleaf]
      obtain ⟨d, hread, hend⟩ := @readObject key value children hl hvalue
      rw [ReadsBack, hjson]
      refine ⟨fun c _ => ?_, fun c l => ?_⟩
      · rw [readMember, key_node, hread]
        simp only [bind, Except.bind, hend]
        rfl
      · rw [readItems, key_node, hread]
        simp only [bind, Except.bind, hend]

/-- What is read of the document of a config. -/
theorem fromJson_document {x : Config} (h : HasKeys x) :
    fromJson x.document = .ok (empty.add x.regroup) := by
  have hread : readMembers empty [(x.key, x.toJson)] = .ok (empty.add x.regroup) := by
    rw [readMembers, (readsBack h).1 empty rfl]
    rfl
  rw [document, fromJson, hread]
  simp only [bind, Except.bind]
  rw [endObject, if_pos]
  simp [arrayExtra_toJson, add, empty]

end Config

end UdtKernel
