import UdtKernel.Address.Compared

set_option autoImplicit false

/-! What the comparison of the texts of two names says of their components. -/

namespace UdtKernel.Address.Compared
open UdtKernel.Lib

def joined (group : List Text) : Text := [groupSeparator].intercalate group

/-- A name of a program in its parts, each of which may be missing. -/
structure Named where
  name : Text
  group : List Text
  plainName : nameSeparator ∉ name
  parts : Parts groupSeparator group
  plain : ∀ c ∈ group, nameSeparator ∉ c

def Named.text (p : Named) : Text := register p.name (joined p.group)

def Named.bare (name : Text) (h : nameSeparator ∉ name) : Named where
  name := name
  group := []
  plainName := h
  parts := fun _ hc => absurd hc List.not_mem_nil
  plain := fun _ hc => absurd hc List.not_mem_nil

def Named.regroup (p q : Named) : Named := { q with name := p.name, plainName := p.plainName }

/-- A program conforms to a required name: the name is that of the program or missing, and the
group is around that of the program. -/
def Meets (p r : Named) : Prop := (r.name = [] ∨ r.name = p.name) ∧ r.group <+: p.group

instance (p r : Named) : Decidable (Meets p r) := inferInstanceAs (Decidable (_ ∧ _))

structure Conforms (d : ℕ) (p r : Named) : Prop where
  nonzero : d ≠ 0 ↔ Meets p r
  value : Meets p r → d =
    if r.group = [] ∧ ¬ (r.name = p.name ∧ r.group = p.group) then unsignedMax
    else 1 + (p.group.length - r.group.length)

def Conforming (p r : Named) : Prop :=
  (∃ d, doesIdConformTo p.text r.text false = .ok d ∧ Conforms d p r) ∧
    ∃ d, doesIdConformTo p.text r.text true = .ok d ∧ Conforms d (p.regroup r) (r.regroup p)

/-- A name without a group that begins with the required group, of a program that has none. -/
def Misread (p r : Named) : Prop :=
  r.name = [] ∧ p.group = [] ∧ r.group ≠ [] ∧ ∃ rest, p.name = joined r.group ++ rest ∧
    (rest = [] ∨ rest.head? = some groupSeparator) ∧ ¬ 2 ^ 32 ∣ rest.count groupSeparator + 1

def Countable (p r : Named) : Prop :=
  Meets p r → r.group ≠ [] → 1 + (p.group.length - r.group.length) < 2 ^ 32

namespace Named

variable (p r : Named)

theorem plainJoined : nameSeparator ∉ joined p.group := fun h => by
  obtain ⟨c, hc, hmem⟩ := mem_intercalate h
  rcases hmem with hmem | hmem
  · exact p.plain c hc hmem
  · exact separators_ne (List.mem_singleton.1 hmem)

theorem joined_eq_nil_iff : joined p.group = [] ↔ p.group = [] := p.parts.intercalate_eq_nil_iff

theorem text_of_nil (h : p.group = []) : p.text = p.name := by
  unfold text register
  rw [if_pos (p.joined_eq_nil_iff.2 h)]

theorem text_of_ne_nil (h : p.group ≠ []) : p.text = p.name ++ nameSeparator :: joined p.group := by
  unfold text register
  rw [if_neg (fun hnil => h (p.joined_eq_nil_iff.1 hnil))]

theorem mem_text : nameSeparator ∈ p.text ↔ p.group ≠ [] := by
  by_cases h : p.group = []
  · rw [p.text_of_nil h]
    exact ⟨fun hmem => absurd hmem p.plainName, fun hne => absurd h hne⟩
  · rw [p.text_of_ne_nil h]
    simp [h]

theorem getName_text : getName p.text = p.name := by
  by_cases h : p.group = []
  · rw [p.text_of_nil h, getName_of_not_mem p.plainName]
  · rw [p.text_of_ne_nil h, getName_append p.plainName]

theorem isName_text : Address.isName p.text = true ↔ p.name ≠ [] := by
  have hplain := p.plainName
  unfold Address.isName
  by_cases h : p.group = []
  · rw [p.text_of_nil h]
    cases hname : p.name with
    | nil => simp
    | cons c l =>
      rw [hname, List.mem_cons, not_or] at hplain
      simp [Ne.symm hplain.1]
  · rw [p.text_of_ne_nil h]
    cases hname : p.name with
    | nil => simp
    | cons c l =>
      rw [hname, List.mem_cons, not_or] at hplain
      simp [Ne.symm hplain.1]

theorem getAddressText_text : getAddressText p.text = .ok (joined p.group) := by
  unfold getAddressText
  by_cases h : p.group = []
  · rw [if_neg (fun hmem => p.mem_text.1 hmem h), p.joined_eq_nil_iff.2 h]
    rfl
  · have hne : joined p.group ≠ [] := fun hnil => h (p.joined_eq_nil_iff.1 hnil)
    have hat := p.plainJoined
    obtain ⟨c, l, hj⟩ := List.exists_cons_of_ne_nil hne
    have hlen : p.text.length - 1 < p.text.length := by
      rw [p.text_of_ne_nil h, List.length_append, List.length_cons]
      omega
    rw [if_pos (p.mem_text.2 h), charAt_ok hlen]
    change (if p.text[p.text.length - 1] = nameSeparator then _ else _) = _
    have hlast : p.text[p.text.length - 1] ≠ nameSeparator := fun heq => by
      have hget : p.text.getLast? = some nameSeparator := by
        rw [List.getLast?_eq_getElem?, List.getElem?_eq_getElem hlen, heq]
      rw [p.text_of_ne_nil h, List.getLast?_append_of_ne_nil _ (List.cons_ne_nil _ _), hj,
        List.getLast?_cons_cons, ← hj] at hget
      exact hat (List.mem_of_getLast? hget)
    rw [if_neg hlast, p.text_of_ne_nil h, List.idxOf_append_of_notMem p.plainName,
      List.idxOf_cons_self, Nat.add_zero, ← List.drop_drop, List.drop_left]
    rfl

theorem programName_text :
    programName (getName r.text) (joined p.group) = (r.regroup p).text := by
  unfold programName
  rw [getName_text, getName_of_not_mem r.plainName]
  rfl

end Named

/-- Inverting the test exchanges the groups. -/
theorem doesIdConformTo_invert (p r : Named) : doesIdConformTo p.text r.text true =
    doesIdConformTo (p.regroup r).text (r.regroup p).text false := by
  have hname : Address.isName (r.regroup p).text = Address.isName r.text := by
    rw [Bool.eq_iff_iff, Named.isName_text, Named.isName_text]
    rfl
  unfold doesIdConformTo
  rw [isName_eq, isName_eq, hname, p.getAddressText_text, r.getAddressText_text]
  cases Address.isName r.text with
  | true =>
    change compare (programName _ _) (programName _ _) = compare _ _
    rw [p.programName_text, r.programName_text]
  | false =>
    change (do isSubGroupOf (programName _ _) (← getAddressText (programName _ _))) = _
    rw [p.programName_text, r.programName_text]
    rfl

def Bound (rest : Text) : Prop := rest = [] ∨ rest.head? = some groupSeparator

def reach (p r : Named) : ℕ :=
  if Meets p r then
    if r.group = [] ∧ ¬ (r.name = p.name ∧ r.group = p.group) then unsignedMax
    else 1 + (p.group.length - r.group.length)
  else 0

theorem conforms_iff (d : ℕ) (p r : Named) : Conforms d p r ↔ d = reach p r := by
  have hpos : Meets p r → reach p r ≠ 0 := fun h => by
    unfold reach
    rw [if_pos h]
    split_ifs
    · decide
    · omega
  constructor
  · intro h
    by_cases hmeets : Meets p r
    · rw [h.value hmeets, reach, if_pos hmeets]
    · rw [reach, if_neg hmeets]
      by_contra hd
      exact hmeets (h.nonzero.1 hd)
  · rintro rfl
    refine ⟨⟨fun hd => ?_, hpos⟩, fun h => by rw [reach, if_pos h]⟩
    by_contra hmeets
    exact hd (if_neg hmeets)

theorem reach_mod_iff (p r : Named) : reach p r % 2 ^ 32 = reach p r ↔ Countable p r := by
  unfold reach Countable
  by_cases hmeets : Meets p r
  · rw [if_pos hmeets]
    by_cases hg : r.group = []
    · have hcount : Meets p r → r.group ≠ [] →
          1 + (p.group.length - r.group.length) < 2 ^ 32 := fun _ hne => absurd hg hne
      refine ⟨fun _ => hcount, fun _ => ?_⟩
      split_ifs with hexact
      · exact unsignedMax_mod
      · have heq : r.group = p.group := by
          by_contra hne
          exact hexact ⟨hg, fun h => hne h.2⟩
        have hzero : p.group.length - r.group.length = 0 := by rw [heq, Nat.sub_self]
        omega
    · rw [if_neg (fun h => hg h.1)]
      constructor
      · intro heq _ _
        rw [← heq]
        exact Nat.mod_lt _ (by decide)
      · exact fun h => Nat.mod_eq_of_lt (h hmeets hg)
  · rw [if_neg hmeets]
    exact ⟨fun _ h => absurd h hmeets, fun _ => rfl⟩

theorem not_meets_of_group {p r : Named} (hp : p.group = []) (hg : r.group ≠ []) :
    ¬ Meets p r := by
  intro h
  have hle := h.2.length_le
  rw [hp, List.length_nil] at hle
  exact hg (List.length_eq_zero_iff.1 (Nat.le_zero.1 hle))

/-- A group around another one is the beginning of its text, with a level for each other
component. -/
theorem joined_iff (p r : Named) (hg : r.group ≠ []) (n : ℕ) :
    (∃ rest, Bound rest ∧ joined p.group = joined r.group ++ rest ∧
      rest.count groupSeparator = n) ↔ ∃ k, p.group = r.group ++ k ∧ k.length = n := by
  constructor
  · rintro ⟨rest, hrest, heq, rfl⟩
    obtain ⟨k, hk, hcount⟩ := p.parts.exists_append r.parts hg heq hrest
    exact ⟨k, hk, hcount.symm⟩
  · rintro ⟨k, hk, rfl⟩
    have hparts := p.parts
    rw [hk] at hparts
    obtain ⟨rest, heq, hrest, hcount⟩ := hparts.exists_rest hg
    refine ⟨rest, hrest, ?_, hcount⟩
    unfold joined
    rw [hk, heq]

theorem isSubGroupOf_cases {aWhat aWith : Text} (hwith : aWith ≠ []) (group : Text)
    (hgroup : (if nameSeparator ∈ aWhat then (aWhat.dropWhile (· ≠ nameSeparator)).drop 1
      else aWhat) = group) :
    (∃ rest, Bound rest ∧ group = aWith ++ rest ∧
      Address.isSubGroupOf aWhat aWith = groupLevel rest) ∨
    (Address.isSubGroupOf aWhat aWith = 0 ∧ ∀ rest, Bound rest → group ≠ aWith ++ rest) := by
  have hpos : 0 < aWith.length := List.length_pos_iff.2 hwith
  unfold Address.isSubGroupOf
  rw [hgroup, if_neg hwith]
  dsimp only
  by_cases hsmall : aWhat = [] ∨ group.length < aWith.length
  · right
    rw [if_pos hsmall]
    refine ⟨rfl, fun rest _ heq => ?_⟩
    have hlen := congrArg List.length heq
    rw [List.length_append] at hlen
    rcases hsmall with rfl | hsmall
    · rw [if_neg List.not_mem_nil] at hgroup
      rw [← hgroup, List.length_nil] at hlen
      omega
    · omega
  · rw [if_neg hsmall]
    by_cases htake : group.take aWith.length = aWith ∧ Bound (group.drop aWith.length)
    · left
      have hsplit := List.take_append_drop aWith.length group
      rw [htake.1] at hsplit
      exact ⟨group.drop aWith.length, htake.2, hsplit.symm, if_pos htake⟩
    · right
      refine ⟨if_neg htake, ?_⟩
      rintro rest hrest rfl
      rw [List.take_left, List.drop_left] at htake
      exact htake ⟨rfl, hrest⟩

theorem meets_iff_of_name {p r : Named} (hname : r.name ≠ []) :
    Meets p r ↔ r.name = p.name ∧ r.group <+: p.group :=
  and_congr_left fun _ => or_iff_right hname

/-- A required name without a group is compared up to the end of the name. -/
theorem compare_bare {p r : Named} (hname : r.name ≠ []) (hnil : p.text ≠ [])
    (hg : r.group = []) : Address.compare p.text r.name = reach p r := by
  have hmeets := meets_iff_of_name (p := p) hname
  unfold Address.compare
  rw [if_neg (not_or.2 ⟨hname, hnil⟩)]
  by_cases heq : r.name = p.name
  · have hreach : reach p r = if p.group = [] then 1 else unsignedMax := by
      have hin : Meets p r := hmeets.2 ⟨heq, by rw [hg]; exact List.nil_prefix⟩
      rw [reach, if_pos hin]
      by_cases hp : p.group = []
      · rw [if_neg (fun h => h.2 ⟨heq, hg.trans hp.symm⟩), if_pos hp, hp, hg]
        rfl
      · rw [if_pos ⟨hg, fun h => hp (h.2.symm.trans hg)⟩, if_neg hp]
    rw [hreach]
    by_cases hp : p.group = []
    · have hbegin : r.name.isPrefixOf r.name = true :=
        List.isPrefixOf_iff_prefix.2 (List.prefix_refl _)
      rw [p.text_of_nil hp, ← heq, if_pos hbegin, List.drop_length, if_pos hp]
    · have hbegin : r.name.isPrefixOf (r.name ++ nameSeparator :: joined p.group) = true :=
        List.isPrefixOf_iff_prefix.2 (List.prefix_append _ _)
      rw [p.text_of_ne_nil hp, ← heq, if_pos hbegin, List.drop_left, if_neg hp]
      exact if_pos rfl
  · rw [reach, if_neg (fun h => heq (hmeets.1 h).1)]
    split_ifs with hbegin
    · obtain ⟨rest, hrest⟩ := List.isPrefixOf_iff_prefix.1 hbegin
      have hgetName := p.getName_text
      rw [← hrest, List.drop_left]
      rw [← hrest] at hgetName
      cases rest with
      | nil =>
        rw [List.append_nil, getName_of_not_mem r.plainName] at hgetName
        exact absurd hgetName heq
      | cons c rest =>
        have hc : c ≠ nameSeparator := by
          rintro rfl
          rw [getName_append r.plainName] at hgetName
          exact heq hgetName
        dsimp only
        rw [if_neg hc, if_neg (fun h => r.plainName h.1)]
    · rfl

/-- The group of a program that meets a required one begins with it, up to a bound. -/
theorem joined_of_meets {p r : Named} (hg : r.group ≠ []) (h : Meets p r) :
    ∃ rest, Bound rest ∧ joined p.group = joined r.group ++ rest := by
  obtain ⟨k, hk⟩ := h.2
  obtain ⟨rest, hbound, heq, -⟩ := (joined_iff p r hg _).2 ⟨k, hk.symm, rfl⟩
  exact ⟨rest, hbound, heq⟩

/-- A required name with a group is compared up to the end of the group. -/
theorem compare_grouped {p r : Named} (hname : r.name ≠ []) (hnil : p.text ≠ [])
    (hg : r.group ≠ []) : Address.compare p.text r.text = reach p r := by
  have hmeets := meets_iff_of_name (p := p) hname
  have hrtext := r.text_of_ne_nil hg
  have hmem := r.mem_text.2 hg
  have hne : r.text ≠ [] := List.ne_nil_of_mem hmem
  unfold Address.compare
  rw [if_neg (not_or.2 ⟨hne, hnil⟩)]
  by_cases hbegin : r.text.isPrefixOf p.text = true
  · rw [if_pos hbegin]
    obtain ⟨rest, hrest⟩ := List.isPrefixOf_iff_prefix.1 hbegin
    rw [← hrest, List.drop_left]
    have hp : p.group ≠ [] := p.mem_text.1 (hrest ▸ List.mem_append_left rest hmem)
    rw [hrtext, p.text_of_ne_nil hp, List.append_assoc, List.cons_append] at hrest
    have heq : r.name = p.name := by
      have hgetName := congrArg getName hrest
      rwa [getName_append r.plainName, getName_append p.plainName] at hgetName
    rw [heq] at hrest
    have hjoined : joined p.group = joined r.group ++ rest :=
      (List.cons.inj (List.append_cancel_left hrest)).2.symm
    by_cases hbound : Bound rest
    · obtain ⟨k, hk, hlen⟩ := (joined_iff p r hg _).1 ⟨rest, hbound, hjoined, rfl⟩
      have hin : Meets p r := hmeets.2 ⟨heq, hk ▸ List.prefix_append _ _⟩
      rw [reach, if_pos hin, if_neg (fun h => hg h.1), hk, List.length_append,
        Nat.add_sub_cancel_left, hlen]
      cases rest with
      | nil => rfl
      | cons c rest =>
        obtain rfl : c = groupSeparator :=
          Option.some.inj (hbound.resolve_left (List.cons_ne_nil c rest))
        dsimp only
        rw [if_neg separators_ne.symm, if_pos ⟨hmem, rfl⟩, groupLevel, Nat.add_comm]
    · have hout : ¬ Meets p r := fun h => by
        obtain ⟨rest', hbound', heq'⟩ := joined_of_meets hg h
        rw [hjoined] at heq'
        exact hbound (List.append_cancel_left heq' ▸ hbound')
      rw [reach, if_neg hout]
      cases rest with
      | nil => exact absurd (Or.inl rfl) hbound
      | cons c rest =>
        have hc : c ≠ nameSeparator := by
          rintro rfl
          have hat := p.plainJoined
          rw [hjoined] at hat
          exact hat (List.mem_append_right _ List.mem_cons_self)
        dsimp only
        rw [if_neg hc, if_neg (fun h => hbound (Or.inr (congrArg some h.2)))]
  · have hout : ¬ Meets p r := fun h => by
      obtain ⟨rest, -, hjoined⟩ := joined_of_meets hg h
      have hp : p.group ≠ [] := fun hnil => not_meets_of_group hnil hg h
      refine hbegin (List.isPrefixOf_iff_prefix.2 ⟨rest, ?_⟩)
      rw [hrtext, p.text_of_ne_nil hp, hjoined, (hmeets.1 h).1, List.append_assoc,
        List.cons_append]
    rw [if_neg hbegin, reach, if_neg hout]

/-- A required name with a name is compared by its whole text. -/
theorem compare_text {p r : Named} (hname : r.name ≠ []) :
    Address.compare p.text r.text = reach p r := by
  by_cases hnil : p.text = []
  · have hout : ¬ Meets p r := fun h => by
      obtain ⟨heq, -⟩ := (meets_iff_of_name hname).1 h
      rw [heq, ← p.getName_text, hnil] at hname
      exact hname rfl
    rw [reach, if_neg hout]
    exact if_pos (Or.inr hnil)
  · by_cases hg : r.group = []
    · rw [r.text_of_nil hg]
      exact compare_bare hname hnil hg
    · exact compare_grouped hname hnil hg

/-- A program without a group whose name begins with the required one, with the rest behind it. -/
def Taken (p r : Named) (rest : Text) : Prop :=
  r.name = [] ∧ p.group = [] ∧ r.group ≠ [] ∧ p.name = joined r.group ++ rest ∧ Bound rest

/-- A required group is looked for in the group of a program, or in its name when it has none. -/
theorem isSubGroupOf_text {p r : Named} (hname : r.name = []) :
    (∃ rest, Taken p r rest ∧
      Address.isSubGroupOf p.text (joined r.group) = groupLevel rest) ∨
    ((∀ rest, ¬ Taken p r rest) ∧
      Address.isSubGroupOf p.text (joined r.group) = reach p r) := by
  by_cases hg : r.group = []
  · refine Or.inr ⟨fun rest h => h.2.2.1 hg, ?_⟩
    have hin : Meets p r := ⟨Or.inl hname, by rw [hg]; exact List.nil_prefix⟩
    have hnil : p.text = [] ↔ r.name = p.name ∧ r.group = p.group := by
      constructor
      · intro h
        have hp : p.group = [] := by
          by_contra hp
          have hmem := p.mem_text.2 hp
          rw [h] at hmem
          exact List.not_mem_nil hmem
        rw [p.text_of_nil hp] at h
        exact ⟨hname.trans h.symm, hg.trans hp.symm⟩
      · rintro ⟨h, h'⟩
        rw [p.text_of_nil (h'.symm.trans hg), ← h, hname]
    rw [r.joined_eq_nil_iff.2 hg, reach, if_pos hin]
    change (if p.text = [] then 1 else unsignedMax) = _
    by_cases hexact : p.text = []
    · have hlen := congrArg List.length (hnil.1 hexact).2
      rw [if_pos hexact, if_neg (fun h => h.2 (hnil.1 hexact)), hlen, Nat.sub_self]
    · rw [if_neg hexact, if_pos ⟨hg, fun h => hexact (hnil.2 h)⟩]
  have hjoined := r.joined_eq_nil_iff.not.2 hg
  by_cases hp : p.group = []
  · have hout := not_meets_of_group hp hg
    have htext := p.text_of_nil hp
    have hcases := isSubGroupOf_cases hjoined p.text
      (if_neg (fun h => p.mem_text.1 h hp))
    rcases hcases with ⟨rest, hbound, heq, hlevel⟩ | ⟨hzero, hnone⟩
    · exact Or.inl ⟨rest, ⟨hname, hp, hg, htext ▸ heq, hbound⟩, hlevel⟩
    · refine Or.inr ⟨fun rest h => hnone rest h.2.2.2.2 (htext.trans h.2.2.2.1), ?_⟩
      rw [hzero, reach, if_neg hout]
  · have hgroup : (if nameSeparator ∈ p.text then
        (p.text.dropWhile (· ≠ nameSeparator)).drop 1 else p.text) = joined p.group := by
      rw [← drop_groupPos, if_pos (p.mem_text.2 hp), p.text_of_ne_nil hp,
        List.idxOf_append_of_notMem p.plainName, List.idxOf_cons_self, Nat.add_zero,
        ← List.drop_drop, List.drop_left]
      rfl
    refine Or.inr ⟨fun rest h => hp h.2.1, ?_⟩
    rcases isSubGroupOf_cases hjoined _ hgroup with ⟨rest, hbound, heq, hlevel⟩ | ⟨hzero, hnone⟩
    · obtain ⟨k, hk, hlen⟩ := (joined_iff p r hg _).1 ⟨rest, hbound, heq, rfl⟩
      have hin : Meets p r := ⟨Or.inl hname, hk ▸ List.prefix_append _ _⟩
      rw [hlevel, reach, if_pos hin, if_neg (fun h => hg h.1), hk, List.length_append,
        Nat.add_sub_cancel_left, hlen, groupLevel, Nat.add_comm]
    · have hout : ¬ Meets p r := fun h => by
        obtain ⟨rest, hbound, heq⟩ := joined_of_meets hg h
        exact hnone rest hbound heq
      rw [hzero, reach, if_neg hout]

/-- The depth of the texts is that of the parts unless the name is taken for a group. -/
theorem doesIdConformTo_text (p r : Named) :
    (∃ rest, Taken p r rest ∧
      doesIdConformTo p.text r.text false = .ok (groupLevel rest % 2 ^ 32)) ∨
    ((∀ rest, ¬ Taken p r rest) ∧
      doesIdConformTo p.text r.text false = .ok (reach p r % 2 ^ 32)) := by
  unfold doesIdConformTo
  rw [isName_eq, r.getAddressText_text]
  by_cases hname : r.name = []
  · have hnot : Address.isName r.text = false := by
      rw [← Bool.not_eq_true, r.isName_text, not_not]
      exact hname
    rw [hnot]
    change (∃ rest, _ ∧ isSubGroupOf p.text (joined r.group) = _) ∨
      (_ ∧ isSubGroupOf p.text (joined r.group) = _)
    rw [isSubGroupOf_eq]
    rcases isSubGroupOf_text (p := p) hname with ⟨rest, htaken, heq⟩ | ⟨hnone, heq⟩
    · exact Or.inl ⟨rest, htaken, by rw [heq]⟩
    · exact Or.inr ⟨hnone, by rw [heq]⟩
  · rw [r.isName_text.2 hname]
    refine Or.inr ⟨fun rest h => hname h.1, ?_⟩
    change compare p.text r.text = _
    rw [compare_eq, compare_text hname]

theorem conforms_text_iff (p r : Named) :
    (∃ d, doesIdConformTo p.text r.text false = .ok d ∧ Conforms d p r) ↔
      ¬ Misread p r ∧ Countable p r := by
  rcases doesIdConformTo_text p r with ⟨rest, htaken, heq⟩ | ⟨hnone, heq⟩
  · obtain ⟨hname, hp, hg, hrest, hbound⟩ := htaken
    have hout := not_meets_of_group hp hg
    have hmisread : Misread p r ↔ ¬ 2 ^ 32 ∣ rest.count groupSeparator + 1 := by
      constructor
      · rintro ⟨-, -, -, rest', hrest', -, hlevel⟩
        rw [hrest] at hrest'
        rwa [List.append_cancel_left hrest']
      · exact fun hlevel => ⟨hname, hp, hg, rest, hrest, hbound, hlevel⟩
    rw [hmisread, not_not, Nat.dvd_iff_mod_eq_zero]
    constructor
    · rintro ⟨d, hd, hconforms⟩
      rw [heq] at hd
      cases hd
      rw [conforms_iff, reach, if_neg hout] at hconforms
      exact ⟨hconforms, fun h => absurd h hout⟩
    · rintro ⟨hlevel, -⟩
      refine ⟨_, heq, (conforms_iff _ p r).2 ?_⟩
      rw [reach, if_neg hout]
      exact hlevel
  · have hmisread : ¬ Misread p r := fun ⟨hname, hp, hg, rest, hrest, hbound, _⟩ =>
      hnone rest ⟨hname, hp, hg, hrest, hbound⟩
    rw [← reach_mod_iff]
    constructor
    · rintro ⟨d, hd, hconforms⟩
      rw [heq] at hd
      cases hd
      exact ⟨hmisread, (conforms_iff _ p r).1 hconforms⟩
    · rintro ⟨-, hlevel⟩
      exact ⟨_, heq, (conforms_iff _ p r).2 hlevel⟩

/-- A name that a program's name check accepts has parts. -/
theorem exists_named {t : Text} (ht : isProgramNameValid t = true) :
    ∃ p : Named, p.text = t := by
  rcases (isProgramNameValid_iff t).1 ht with rfl | ⟨-, hname, -⟩ | ⟨n, g, hn, hg, rfl⟩
  · exact ⟨Named.bare [] List.not_mem_nil, rfl⟩
  · exact ⟨Named.bare t hname, rfl⟩
  · obtain ⟨cs, hne, hparts, hplain, rfl⟩ := hg
    exact ⟨⟨n, cs, hn, hparts, hplain⟩, Named.text_of_ne_nil ⟨n, cs, hn, hparts, hplain⟩ hne⟩

/-- The texts conform as their parts do but for a name that is taken for a group, and a level that
is no number of 32 bits. -/
theorem conforming_iff (p r : Named) : Conforming p r ↔
    (¬ Misread p r ∧ Countable p r) ∧
      (¬ Misread (p.regroup r) (r.regroup p) ∧ Countable (p.regroup r) (r.regroup p)) := by
  unfold Conforming
  rw [doesIdConformTo_invert, conforms_text_iff, conforms_text_iff]

/-- The name `q` of a program without a group is found in the group `q`. -/
theorem conforming_false_of_name : ¬ Conforming (Named.bare ['q'] (by decide))
    ⟨[], [['q']], by decide, by simp [Parts, groupSeparator], by simp [nameSeparator]⟩ := by
  rintro ⟨⟨d, hd, hconforms⟩, -⟩
  have hdepth : doesIdConformTo ['q'] ['@', 'q'] false = .ok 1 := by decide +kernel
  cases hdepth.symm.trans hd
  have hmeets := hconforms.nonzero.1 Nat.one_ne_zero
  exact absurd hmeets.2 (by decide)

end UdtKernel.Address.Compared
