import UdtKernel.Config.Survive

set_option autoImplicit false

/-! A config that is written as a JSON text and read again. -/

namespace UdtKernel.Config
open UdtKernel.Lib

/-- A key as `Key(c_str)` takes it. -/
def cKey (k : String) : String := String.ofList (cString k.toList)

mutual

def cKeys : Json → Json
  | .str s => .str s
  | .obj ms => .obj (cMembers ms)
  | .arr items => .arr (cItems items)

def cMembers : List (String × Json) → List (String × Json)
  | [] => []
  | (k, j) :: ms => (cKey k, cKeys j) :: cMembers ms

def cItems : List Json → List Json
  | [] => []
  | j :: l => cKeys j :: cItems l

end

/-- `write_json_to`; the members of a config without a key are those of the document. -/
def written (x : Config) : Json :=
  if x.key = "" then cKeys (.obj (members (toMembers x.children))) else cKeys x.document

/-- The same tree, but for the order of children with different keys. -/
inductive Same : Config → Config → Prop where
  | node {key : String} {value : Text} {l l' : List Config}
    (h : ∀ k, List.Forall₂ Same (l.filter fun x => x.key = k) (l'.filter fun x => x.key = k)) :
    Same (.node key value l) (.node key value l')

/-- The document of a config is read to its end, and as the same tree. -/
def RoundTrips (x : Config) : Prop :=
  ∃ t, runAll Reader.step (eventsOf (written x)) (Reader.start empty) = .ok t ∧
    if x.key = "" then Same x t.head else ∃ y, t.head = empty.add y ∧ Same x y

/-- Every key in a config is read as it was written, every value is written whole, and no config
    has a value beside its children. -/
inductive Plain : Config → Prop where
  | node {key : String} {value : Text} {children : List Config} (hkey : keyFits key)
    (hvalue : '\x00' ∉ value) (honly : value = [] ∨ children = [])
    (hchildren : ∀ x ∈ children, Plain x) : Plain (.node key value children)

theorem cString_eq_self {t : Text} : cString t = t ↔ '\x00' ∉ t := by
  rw [cString, List.takeWhile_eq_self_iff]
  constructor
  · exact fun h hmem => of_decide_eq_true (h _ hmem) rfl
  · exact fun h c hc => decide_eq_true fun heq => h (heq ▸ hc)

theorem length_le_utf8Length (t : Text) : t.length ≤ utf8Length t := by
  induction t with
  | nil => exact Nat.zero_le _
  | cons c t ih =>
    have hc := Char.utf8Size_pos c
    rw [utf8Length, List.map_cons, List.sum_cons, List.length_cons]
    change t.length + 1 ≤ c.utf8Size + utf8Length t
    omega

/-- A key that fits is written whole. -/
theorem cKey_eq_self {k : String} (h : keyFits k) : cKey k = k := by
  have hfits := of_decide_eq_true h
  have hbytes := length_le_utf8Length k.toList
  have hle : k.toList.length ≤ (cString k.toList).length :=
    hbytes.trans (hfits.trans (Nat.min_le_right _ _))
  have hfront : cString k.toList <+: k.toList := List.takeWhile_prefix _
  rw [cKey, hfront.eq_of_length_le hle, String.ofList_toList]

theorem cMembers_eq_self {ms : List (String × Json)}
    (hms : ∀ m ∈ ms, keysFit m.2 → cKeys m.2 = m.2) (h : membersFit ms) : cMembers ms = ms := by
  induction ms with
  | nil => rw [cMembers]
  | cons m ms ih =>
    obtain ⟨k, j⟩ := m
    rw [membersFit, Bool.and_eq_true, Bool.and_eq_true] at h
    rw [cMembers, cKey_eq_self h.1, hms (k, j) List.mem_cons_self h.2.1,
      ih (fun m hm => hms m (List.mem_cons_of_mem _ hm)) h.2.2]

theorem cItems_eq_self {l : List Json} (hl : ∀ j ∈ l, keysFit j → cKeys j = j) (h : itemsFit l) :
    cItems l = l := by
  induction l with
  | nil => rw [cItems]
  | cons j l ih =>
    rw [itemsFit, Bool.and_eq_true] at h
    rw [cItems, hl j List.mem_cons_self h.1,
      ih (fun j hj => hl j (List.mem_cons_of_mem _ hj)) h.2]

/-- Keys that fit are all written whole. -/
theorem cKeys_eq_self {j : Json} (h : keysFit j) : cKeys j = j := by
  induction j using Json.induction_parts with
  | hstr s => rw [cKeys]
  | hobj ms ih =>
    rw [keysFit] at h
    rw [cKeys, cMembers_eq_self (fun m hm => ih m hm) h]
  | harr items ih =>
    rw [keysFit] at h
    rw [cKeys, cItems_eq_self (fun j hj => ih j hj) h]

theorem membersFit_iff (ms : List (String × Json)) :
    membersFit ms ↔ ∀ m ∈ ms, keyFits m.1 ∧ keysFit m.2 := by
  induction ms with
  | nil => simp [membersFit]
  | cons m ms ih =>
    obtain ⟨k, j⟩ := m
    rw [membersFit, Bool.and_eq_true, Bool.and_eq_true, ih, List.forall_mem_cons, and_assoc]

theorem itemsFit_iff (l : List Json) : itemsFit l ↔ ∀ j ∈ l, keysFit j := by
  induction l with
  | nil => simp [itemsFit]
  | cons j l ih => rw [itemsFit, Bool.and_eq_true, ih, List.forall_mem_cons]

theorem membersFit_members {l : List Config} (h : ∀ x ∈ l, keyFits x.key ∧ keysFit x.toJson) :
    membersFit (members (toMembers l)) := by
  rw [membersFit_iff, members_toMembers]
  intro m hm
  rcases List.mem_append.1 hm with hm | hm
  · obtain ⟨x, hx, rfl⟩ := List.mem_map.1 hm
    exact h x (List.mem_of_mem_filter hx)
  · obtain ⟨k, hk, rfl⟩ := List.mem_map.1 hm
    have hpos : 0 < (keys l).count k := Nat.zero_lt_of_lt (mem_repeatedKeys.1 hk)
    obtain ⟨x, hx, rfl⟩ := List.mem_map.1 (List.count_pos_iff.1 hpos)
    refine ⟨(h x hx).1, ?_⟩
    rw [keysFit, itemsFit_iff]
    intro j hj
    obtain ⟨y, hy, rfl⟩ := List.mem_map.1 hj
    exact (h y (List.mem_of_mem_filter hy)).2

theorem Plain.keyFits {x : Config} (h : Plain x) : keyFits x.key := by
  cases h
  assumption

/-- The keys of what is written of a plain config fit. -/
theorem Plain.keysFit {x : Config} (h : Plain x) : keysFit x.toJson := by
  induction x using induction_children with
  | h key value children ih =>
    cases h with
    | node hkey hvalue honly hchildren =>
      rw [toJson]
      split_ifs
      · rfl
      · exact membersFit_members fun x hx => ⟨(hchildren x hx).keyFits, ih x hx (hchildren x hx)⟩

theorem plain_leaf {k : String} (hk : keyFits k) (v : Text) : Plain (leaf k (cString v)) :=
  .node hk (cString_eq_self.1 (cString_cString v)) (.inr rfl) fun _ hx => nomatch hx

def PlainlyRead (j : Json) : Prop :=
  ∀ (c : Config) (k : String) (d : Config), keyFits k → keysFit j → (∀ y ∈ c.children, Plain y) →
    readMember c k j = .ok d ∨ readItem c k j = .ok d → ∀ y ∈ d.children, Plain y

section
variable {c d x : Config} {k : String}

theorem plain_of_mem_add (hc : ∀ y ∈ c.children, Plain y) (hx : Plain x) :
    ∀ y ∈ (c.add x).children, Plain y := by
  intro y hy
  rcases List.mem_append.1 hy with hy | hy
  · exact hc y hy
  · rw [List.mem_singleton.1 hy]
    exact hx

theorem readMembers_plain {ms : List (String × Json)} (hms : ∀ m ∈ ms, PlainlyRead m.2)
    (hfits : membersFit ms) (hc : ∀ y ∈ c.children, Plain y) (h : readMembers c ms = .ok d) :
    ∀ y ∈ d.children, Plain y := by
  induction ms generalizing c with
  | nil =>
    rw [readMembers] at h
    rw [← Except.ok.inj h]
    exact hc
  | cons m ms ih =>
    obtain ⟨k, j⟩ := m
    rw [membersFit, Bool.and_eq_true, Bool.and_eq_true] at hfits
    rw [readMembers] at h
    obtain ⟨u, hu, h⟩ := eq_ok_of_bind h
    have hplain := hms (k, j) List.mem_cons_self c k u hfits.1 hfits.2.1 hc (.inl hu)
    exact ih (fun m hm => hms m (List.mem_cons_of_mem _ hm)) hfits.2.2 hplain h

theorem readItems_plain {l : List Json} (hl : ∀ j ∈ l, PlainlyRead j) (hk : keyFits k)
    (hfits : itemsFit l) (hc : ∀ y ∈ c.children, Plain y) (h : readItems c k l = .ok d) :
    ∀ y ∈ d.children, Plain y := by
  induction l generalizing c with
  | nil =>
    rw [readItems] at h
    rw [← Except.ok.inj h]
    exact hc
  | cons j l ih =>
    rw [itemsFit, Bool.and_eq_true] at hfits
    rw [readItems_cons] at h
    obtain ⟨u, hu, h⟩ := eq_ok_of_bind h
    have hplain := hl j List.mem_cons_self c k u hk hfits.1 hc (.inr hu)
    exact ih (fun j hj => hl j (List.mem_cons_of_mem _ hj)) hfits.2 hplain h

/-- An object becomes a config without a value. -/
theorem readObject_plain {ms : List (String × Json)} (hms : ∀ m ∈ ms, PlainlyRead m.2)
    (hk : keyFits k) (hfits : membersFit ms)
    (h : (readMembers (named k) ms >>= endObject ms) = .ok x) : Plain x := by
  obtain ⟨hkey, hvalue⟩ := root_of_readObject h
  obtain ⟨u, hu, hend⟩ := eq_ok_of_bind h
  obtain rfl := (endObject_ok hend).1
  have hnone : ∀ y ∈ (named k).children, Plain y := by
    rw [children_named]
    exact fun _ hy => nomatch hy
  have hchildren := readMembers_plain hms hfits hnone hu
  obtain ⟨key, value, children⟩ := x
  rw [key_node] at hkey
  rw [value_node] at hvalue
  exact .node (hkey ▸ hk) (hvalue ▸ List.not_mem_nil) (.inl hvalue) hchildren

end

theorem plainlyRead (j : Json) : PlainlyRead j := by
  induction j using Json.induction_parts with
  | hstr s =>
    rintro c k d hk - hc (h | h)
    · rw [readMember] at h
      rw [← Except.ok.inj h]
      refine plain_of_mem_add (fun y hy => hc y ?_) (plain_leaf hk s)
      exact List.mem_of_mem_filter hy
    · rw [← Except.ok.inj h]
      exact plain_of_mem_add hc (plain_leaf hk s)
  | hobj ms ih =>
    intro c k d hk hfits hc h
    have hadd : readItem c k (.obj ms) = .ok d := by
      rw [readMember] at h
      exact h.elim id id
    obtain ⟨u, hu, hadd⟩ := eq_ok_of_bind hadd
    obtain ⟨x, hx, hadd⟩ := eq_ok_of_bind hadd
    have hobject : (readMembers (named k) ms >>= endObject ms) = .ok x := by
      rw [hu]
      exact hx
    rw [← Except.ok.inj hadd]
    rw [keysFit] at hfits
    exact plain_of_mem_add hc (readObject_plain ih hk hfits hobject)
  | harr items ih =>
    rintro c k d hk hfits hc (h | h)
    · rw [readMember] at h
      split_ifs at h
      rw [keysFit] at hfits
      exact readItems_plain ih hk hfits hc h
    · cases h

theorem exists_of_forall₂ {α β : Type} {R : α → β → Prop} {l : List α} {l' : List β}
    (h : List.Forall₂ R l l') {x : α} (hx : x ∈ l) : ∃ y ∈ l', R x y := by
  induction h with
  | nil => cases hx
  | cons hab hrest ih =>
    rcases List.mem_cons.1 hx with rfl | hx
    · exact ⟨_, List.mem_cons_self, hab⟩
    · obtain ⟨y, hy, hxy⟩ := ih hx
      exact ⟨y, List.mem_cons_of_mem _ hy, hxy⟩

/-- A tree that is the same as a plain one is plain. -/
theorem Plain.of_same {x y : Config} (h : Same x y) (hy : Plain y) : Plain x := by
  induction x using induction_children generalizing y with
  | h key value l ih =>
    cases h with
    | node hsame =>
      cases hy with
      | node hkey hvalue honly hchildren =>
        refine .node hkey hvalue (honly.imp_right fun hnil => ?_) fun x hx => ?_
        · refine List.eq_nil_iff_forall_not_mem.2 fun x hx => ?_
          have hlength := (hsame x.key).length_eq
          rw [hnil, List.filter_nil, List.length_nil, List.length_eq_zero_iff] at hlength
          exact List.filter_eq_nil_iff.1 hlength x hx (decide_eq_true rfl)
        · have hmem : x ∈ l.filter fun z => z.key = x.key :=
            List.mem_filter.2 ⟨hx, decide_eq_true rfl⟩
          obtain ⟨y, hy, hxy⟩ := exists_of_forall₂ (hsame x.key) hmem
          exact ih x hx hxy (hchildren y (List.mem_of_mem_filter hy))

/-- A plain config is written and read as the same tree. -/
theorem same_regroup {x : Config} (h : Plain x) : Same x x.regroup := by
  induction x using induction_children with
  | h key value l ih =>
    cases h with
    | node hkey hvalue honly hchildren =>
      have hread : (if l = [] then cString value else []) = value := by
        split_ifs with hnil
        · exact cString_eq_self.2 hvalue
        · exact (honly.resolve_right hnil).symm
      rw [regroup, hread]
      refine .node fun k => ?_
      rw [filter_order, regroupAll_eq, List.filter_map]
      simp only [Function.comp_def, key_regroup]
      rw [List.forall₂_map_right_iff, List.forall₂_same]
      exact fun x hx => ih x (List.mem_of_mem_filter hx) (hchildren x (List.mem_of_mem_filter hx))

theorem Same.root {x y : Config} (h : Same x y) : x.key = y.key ∧ x.value = y.value := by
  cases h
  exact ⟨rfl, rfl⟩

theorem Plain.children {x : Config} (h : Plain x) : ∀ y ∈ x.children, Plain y := by
  cases h
  assumption

/-- What is read of a document is plain. -/
theorem readDocument_plain {j : Json} {d : Config} (hfits : keysFit j)
    (h : readDocument empty j = .ok d) : d.value = [] ∧ Plain d := by
  cases j with
  | str s => cases h
  | arr items => cases h
  | obj ms =>
    have hobject : (readMembers (named "") ms >>= endObject ms) = .ok d := h
    rw [keysFit] at hfits
    exact ⟨(root_of_readObject hobject).2,
      readObject_plain (fun m _ => plainlyRead m.2) rfl hfits hobject⟩

/-- A plain config is written with its keys as they are. -/
theorem written_eq {x : Config} (h : Plain x) : keysFit (written x) ∧
    written x = if x.key = "" then .obj (members (toMembers x.children)) else x.document := by
  obtain ⟨key, value, children⟩ := x
  have hbehind : keysFit (node key value children).document := by
    rw [document, Config.keysFit, membersFit, membersFit, Bool.and_true, Bool.and_eq_true]
    exact ⟨h.keyFits, h.keysFit⟩
  have hinside : Config.keysFit (.obj (members (toMembers children))) := by
    cases h with
    | node _ _ _ hchildren =>
      exact membersFit_members fun x hx => ⟨(hchildren x hx).keyFits, (hchildren x hx).keysFit⟩
  rw [written, children_node]
  split_ifs
  · rw [cKeys_eq_self hinside]
    exact ⟨hinside, rfl⟩
  · rw [cKeys_eq_self hbehind]
    exact ⟨hbehind, rfl⟩

/-- What the recursion reads of a config that is written. -/
theorem readDocument_written {x : Config} (h : ∀ y ∈ x.children, HasKeys y) (hplain : Plain x)
    (hvalue : x.key = "" → x.value = []) : readDocument empty (written x) =
      .ok (if x.key = "" then x.regroup else empty.add x.regroup) := by
  obtain ⟨key, value, children⟩ := x
  rw [(written_eq hplain).2]
  by_cases hkey : key = ""
  · subst hkey
    have hl : ∀ x ∈ children, ReadsBack x ∧ x.key ≠ "" := by
      intro x hx
      refine ⟨readsBack (h x hx), ?_⟩
      cases h x hx with
      | node hkey _ => exact hkey
    obtain ⟨d, hread, hend⟩ := readObject hl (.inl (hvalue rfl))
    rw [key_node, if_pos rfl, if_pos rfl, children_node]
    change (readMembers (named "") _ >>= endObject _) = _
    rw [hread]
    exact hend
  · rw [key_node, if_neg hkey, if_neg hkey, ← fromJson_eq]
    exact fromJson_document (.node hkey h)

/-- The way through a text is there and back where the config is plain, and has no value without a
    key. -/
theorem roundTrips_iff {x : Config} (h : ∀ y ∈ x.children, HasKeys y) :
    RoundTrips x ↔ Plain x ∧ (x.key = "" → x.value = []) := by
  have hagrees := document_agrees empty (written x)
  constructor
  · rintro ⟨t, ht, hsame⟩
    rw [ht] at hagrees
    obtain ⟨hfits, d, hd, rfl⟩ := hagrees
    obtain ⟨hvalue, hplain⟩ := readDocument_plain hfits hd
    split_ifs at hsame with hempty
    · exact ⟨.of_same hsame hplain, fun _ => hsame.root.2.trans hvalue⟩
    · obtain ⟨y, hy, hxy⟩ := hsame
      have hmem : y ∈ t.head.children := by
        rw [hy]
        exact List.mem_singleton_self y
      exact ⟨.of_same hxy (hplain.children y hmem), fun hkey => absurd hkey hempty⟩
  · rintro ⟨hplain, hvalue⟩
    have hread := readDocument_written h hplain hvalue
    cases hrun : runAll Reader.step (eventsOf (written x)) (Reader.start empty) with
    | error e =>
      rw [hrun] at hagrees
      exact absurd ⟨(written_eq hplain).1, _, hread⟩ hagrees
    | ok t =>
      rw [hrun] at hagrees
      obtain ⟨-, d, hd, rfl⟩ := hagrees
      rw [hread] at hd
      refine ⟨t, hrun, ?_⟩
      rw [← Except.ok.inj hd]
      split_ifs
      · exact same_regroup hplain
      · exact ⟨x.regroup, rfl, same_regroup hplain⟩

theorem roundTrips_group :
    RoundTrips (node "a" [] [leaf "b" ['1'], leaf "c" [], leaf "b" ['2']]) := by
  have hkeys : ∀ y ∈ [leaf "b" ['1'], leaf "c" [], leaf "b" ['2']], HasKeys y ∧ Plain y := by
    simp only [List.forall_mem_cons]
    have hleaf : ∀ k v, k ≠ "" → keyFits k → cString v = v →
        HasKeys (leaf k v) ∧ Plain (leaf k v) :=
      fun k v hk hfits hv => ⟨.node hk (fun _ hx => nomatch hx), hv ▸ plain_leaf hfits v⟩
    exact ⟨hleaf _ _ (by decide) rfl rfl, hleaf _ _ (by decide) rfl rfl,
      hleaf _ _ (by decide) rfl rfl, fun _ hx => nomatch hx⟩
  have hiff := roundTrips_iff (x := node "a" [] [leaf "b" ['1'], leaf "c" [], leaf "b" ['2']])
    fun y hy => (hkeys y hy).1
  refine hiff.2 ⟨?_, fun _ => rfl⟩
  exact .node rfl List.not_mem_nil (.inl rfl) fun y hy => (hkeys y hy).2

/-- A key outside ASCII fails the `CHECK` on its length. -/
theorem not_roundTrips_accent :
    ¬∀ x : Config, (∀ y ∈ x.children, HasKeys y) → RoundTrips x := by
  intro h
  obtain ⟨t, ht, -⟩ := h (node "\u00e9" ['v'] []) fun _ hy => nomatch hy
  have hrun : runAll Reader.step (eventsOf (written (node "\u00e9" ['v'] [])))
      (Reader.start empty) = .error .keyLength := rfl
  rw [hrun] at ht
  cases ht

end UdtKernel.Config
