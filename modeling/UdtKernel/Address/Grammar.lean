import UdtKernel.Config.Demands
import UdtKernel.Lib.Joined

set_option autoImplicit false

/-! Which texts are names of programs and groups, and how they are taken apart and put together:
`CProgramName` and `CProgramGroup`. -/

namespace UdtKernel.Address
open UdtKernel.Lib

/-- `aName.find(_double) != npos`. -/
def hasDouble : Text → Bool
  | c :: d :: l => (c = groupSeparator && d = groupSeparator) || hasDouble (d :: l)
  | _ => false

def isProgramGroupValid (aName : Text) : Bool :=
  if aName = [] then true
  else if aName.head? = some groupSeparator ∨ aName.getLast? = some groupSeparator ∨
      aName.getLast? = some nameSeparator ∨ aName = [nameSeparator] ∨
      aName.take 2 = [nameSeparator, groupSeparator] then false
  else !hasDouble aName && nameSeparator ∉ aName

/-- The loop of `MGetPath` from some position on. -/
def pathFrom (rest : Text) : List Text :=
  if _hmem : groupSeparator ∈ rest then
    rest.takeWhile (· ≠ groupSeparator) ::
      pathFrom ((rest.dropWhile (· ≠ groupSeparator)).drop 1)
  else [rest]
termination_by rest.length
decreasing_by
  have hle := (List.dropWhile_suffix (l := rest) (· ≠ groupSeparator)).length_le
  have hpos := List.length_pos_of_mem _hmem
  rw [List.length_drop]
  omega

def getPath (address : Text) : List Text := if address = [] then [] else pathFrom address

def addPath (address aName : Text) : Text :=
  if address = [] then aName
  else if aName ≠ [] then address ++ groupSeparator :: aName
  else address

/-- `CProgramGroup::MSet` of some groups. -/
def setPath (aGroups : List Text) : Text := aGroups.foldl addPath []

/-- A name: no separator of a group, and no point at its end. -/
def IsName (n : Text) : Prop :=
  n ≠ [] ∧ nameSeparator ∉ n ∧ n.getLast? ≠ some groupSeparator

/-- A group: components with points between them. -/
def IsGroup (g : Text) : Prop :=
  ∃ cs : List Text, cs ≠ [] ∧ Parts groupSeparator cs ∧ (∀ c ∈ cs, nameSeparator ∉ c) ∧
    g = [groupSeparator].intercalate cs

/-- The name of a program: nothing, a name, or a group behind a name or nothing. -/
def IsProgramName (t : Text) : Prop :=
  t = [] ∨ IsName t ∨
    ∃ n g, (n = [] ∨ IsName n) ∧ IsGroup g ∧ t = n ++ nameSeparator :: g

/-- What is accepted is what the grammar says, and is put together again as it was. -/
structure Grammatical (t : Text) : Prop where
  name : isProgramNameValid t = true ↔ IsProgramName t
  group : isProgramGroupValid t = true ↔ t = [] ∨ IsGroup t
  rebuilt : isProgramNameValid t = true → ∃ g, getAddressText t = .ok g ∧
    programName (getName t) g = t ∧ setPath (getPath g) = g
  regrouped : isProgramGroupValid t = true → setPath (getPath t) = t

/-- Whether some text is a group, or the rest of one behind a component or a point. -/
def dotted : Bool → Text → Bool
  | afterPoint, [] => !afterPoint
  | afterPoint, c :: l =>
    if c = groupSeparator then !afterPoint && dotted true l
    else c ≠ nameSeparator && dotted false l

theorem separators_ne : nameSeparator ≠ groupSeparator := by
  decide

theorem pathFrom_eq (rest : Text) : pathFrom rest = rest.splitOn groupSeparator := by
  fun_induction pathFrom rest with
  | case1 rest hmem ih =>
    rw [ih]
    have hsplit := List.takeWhile_append_dropWhile (p := (· ≠ groupSeparator)) (l := rest)
    have hnot : groupSeparator ∉ rest.takeWhile (· ≠ groupSeparator) := fun h => by
      have himp := List.mem_takeWhile_imp h
      simp at himp
    cases hdrop : rest.dropWhile (· ≠ groupSeparator) with
    | nil =>
      rw [hdrop, List.append_nil] at hsplit
      rw [← hsplit] at hmem
      exact absurd hmem hnot
    | cons c tail =>
      have hc : c = groupSeparator := by
        have hhead := List.head?_dropWhile_not (· ≠ groupSeparator) rest
        rw [hdrop] at hhead
        simpa using hhead
      rw [hdrop, hc] at hsplit
      conv_rhs => rw [← hsplit]
      rw [List.splitOn_append_cons_self_of_not_mem hnot]
      rfl
  | case2 rest hmem => rw [List.splitOn_eq_singleton hmem]

theorem dotted_iff (b : Bool) (g : Text) : dotted b g = true ↔
    ∃ c cs, g.splitOn groupSeparator = c :: cs ∧ (b = true → c ≠ []) ∧ (∀ d ∈ cs, d ≠ []) ∧
      nameSeparator ∉ c ∧ ∀ d ∈ cs, nameSeparator ∉ d := by
  induction g generalizing b with
  | nil =>
    rw [List.splitOn_nil]
    constructor
    · intro h
      refine ⟨[], [], rfl, ?_, ?_, List.not_mem_nil, ?_⟩
      · rintro rfl
        cases h
      · rintro d ⟨⟩
      · rintro d ⟨⟩
    · rintro ⟨c, cs, heq, hc, -⟩
      cases heq
      cases b with
      | true => exact absurd rfl (hc rfl)
      | false => rfl
  | cons x l ih =>
    rw [dotted, List.splitOn_cons_eq_if_modifyHead]
    obtain ⟨c', cs', hsplit⟩ := List.exists_cons_of_ne_nil (List.splitOn_ne_nil groupSeparator l)
    by_cases hx : x = groupSeparator
    · rw [if_pos hx, if_pos (beq_iff_eq.2 hx), Bool.and_eq_true, ih, hsplit]
      constructor
      · rintro ⟨hb, c, cs, heq, hc, hcs, hname, hnames⟩
        cases heq
        refine ⟨[], c' :: cs', rfl, ?_, ?_, List.not_mem_nil, ?_⟩
        · rintro rfl
          cases hb
        · intro d hd
          rcases List.mem_cons.1 hd with rfl | hd
          · exact hc rfl
          · exact hcs d hd
        · intro d hd
          rcases List.mem_cons.1 hd with rfl | hd
          · exact hname
          · exact hnames d hd
      · rintro ⟨c, cs, heq, hc, hcs, hname, hnames⟩
        cases heq
        refine ⟨?_, c', cs', rfl, fun _ => hcs c' List.mem_cons_self,
          fun d hd => hcs d (List.mem_cons_of_mem _ hd), hnames c' List.mem_cons_self,
          fun d hd => hnames d (List.mem_cons_of_mem _ hd)⟩
        cases b with
        | true => exact absurd rfl (hc rfl)
        | false => rfl
    · rw [if_neg hx, if_neg (by rwa [beq_iff_eq]), Bool.and_eq_true, ih, hsplit, decide_eq_true_eq]
      constructor
      · rintro ⟨hne, c, cs, heq, -, hcs, hname, hnames⟩
        cases heq
        refine ⟨x :: c', cs', rfl, fun _ => List.cons_ne_nil _ _, hcs, ?_, hnames⟩
        rw [List.mem_cons, not_or]
        exact ⟨hne.symm, hname⟩
      · rintro ⟨c, cs, heq, -, hcs, hname, hnames⟩
        cases heq
        rw [List.mem_cons, not_or] at hname
        refine ⟨Ne.symm hname.1, c', cs', rfl, ?_, hcs, hname.2, hnames⟩
        rintro ⟨⟩

/-- The parts of a group are its components. -/
theorem isGroup_iff (g : Text) : IsGroup g ↔ dotted true g = true := by
  rw [dotted_iff]
  constructor
  · rintro ⟨cs, hne, hparts, hnames, rfl⟩
    have hsplit := List.splitOn_intercalate groupSeparator (fun c hc => (hparts c hc).2) hne
    obtain ⟨c, cs, rfl⟩ := List.exists_cons_of_ne_nil hne
    exact ⟨c, cs, hsplit, fun _ => (hparts c List.mem_cons_self).1,
      fun d hd => (hparts d (List.mem_cons_of_mem c hd)).1, hnames c List.mem_cons_self,
      fun d hd => hnames d (List.mem_cons_of_mem c hd)⟩
  · rintro ⟨c, cs, hsplit, hc, hcs, hname, hnames⟩
    have hg := @List.intercalate_splitOn _ g _ _ groupSeparator
    rw [hsplit] at hg
    refine ⟨c :: cs, List.cons_ne_nil c cs, fun d hd => ⟨?_, ?_⟩, fun d hd => ?_, hg.symm⟩
    · rcases List.mem_cons.1 hd with rfl | hd
      · exact hc rfl
      · exact hcs d hd
    · rw [← hsplit] at hd
      exact not_mem_splitOn hd
    · rcases List.mem_cons.1 hd with rfl | hd
      · exact hname
      · exact hnames d hd

/-- The checks of a group are those of the text from one end to the other. -/
theorem dotted_eq (b : Bool) (g : Text) : dotted b g = true ↔
    (b = true → g.head? ≠ some groupSeparator) ∧ (b = true → g ≠ []) ∧
      g.getLast? ≠ some groupSeparator ∧ hasDouble g = false ∧ nameSeparator ∉ g := by
  induction g generalizing b with
  | nil =>
    cases b <;> simp [dotted, hasDouble]
  | cons c l ih =>
    rw [dotted]
    cases l with
    | nil =>
      by_cases hc : c = groupSeparator
      · simp [hc, dotted]
      · simp [hc, dotted, hasDouble, @eq_comm _ c nameSeparator]
    | cons d l =>
      have hdouble : hasDouble (c :: d :: l) = false ↔
          ¬ (c = groupSeparator ∧ d = groupSeparator) ∧ hasDouble (d :: l) = false := by
        simp [hasDouble]
      rw [List.getLast?_cons_cons, hdouble, List.mem_cons (b := c), not_or]
      by_cases hc : c = groupSeparator
      · rw [if_pos hc, Bool.and_eq_true, ih]
        subst hc
        have hne := separators_ne
        cases b
        · simp
          tauto
        · simp
      · rw [if_neg hc, Bool.and_eq_true, ih, decide_eq_true_eq]
        have hsymm : c ≠ nameSeparator ↔ nameSeparator ≠ c := ne_comm
        cases b <;> simp [hc] <;> tauto

theorem isProgramGroupValid_iff (g : Text) :
    isProgramGroupValid g = true ↔ g = [] ∨ dotted true g = true := by
  rw [dotted_eq]
  unfold isProgramGroupValid
  split_ifs with hnil hends
  · exact ⟨fun _ => Or.inl hnil, fun _ => rfl⟩
  · refine ⟨fun h => ?_, ?_⟩
    · cases h
    rintro (h | ⟨hhead, -, hlast, -, hname⟩)
    · exact absurd h hnil
    · exfalso
      rcases hends with h | h | h | h | h
      · exact hhead rfl h
      · exact hlast h
      · exact hname (List.mem_of_getLast? h)
      · rw [h] at hname
        exact hname List.mem_cons_self
      · have hmem : nameSeparator ∈ g.take 2 := by
          rw [h]
          exact List.mem_cons_self
        exact hname (List.mem_of_mem_take hmem)
  · simp only [not_or] at hends
    rw [Bool.and_eq_true, Bool.not_eq_true', decide_eq_true_eq]
    constructor
    · rintro ⟨hdouble, hname⟩
      exact Or.inr ⟨fun _ => hends.1, fun _ => hnil, hends.2.1, hdouble, hname⟩
    · rintro (h | ⟨-, -, -, hdouble, hname⟩)
      · exact absurd h hnil
      · exact ⟨hdouble, hname⟩

/-- Behind the separator of the name the loop of the check is that of a group. -/
theorem isNameLoopValid_group (b : Bool) (l : Text) :
    (isNameLoopValid true b l = true ∧ l.getLast? ≠ some groupSeparator ∧ (l = [] → b = false)) ↔
      dotted b l = true := by
  induction l generalizing b with
  | nil => cases b <;> simp [isNameLoopValid, dotted]
  | cons c l ih =>
    rw [isNameLoopValid, dotted]
    by_cases hname : c = nameSeparator
    · have hc : c ≠ groupSeparator := hname ▸ separators_ne
      rw [if_pos hname, if_neg hc, decide_eq_false (not_not.2 hname)]
      simp
    · rw [if_neg hname]
      by_cases hc : c = groupSeparator
      · rw [if_pos hc, if_pos hc, if_pos rfl, Bool.and_eq_true, Bool.and_eq_true, ← ih]
        subst hc
        cases l <;> simp [and_assoc]
      · rw [if_neg hc, if_neg hc, decide_eq_true hname, Bool.true_and, ← ih]
        cases l <;> simp [hc]

/-- Before the separator of the name the loop of the check passes everything. -/
theorem isNameLoopValid_name {n : Text} (hn : nameSeparator ∉ n) (rest : Text) :
    isNameLoopValid false false (n ++ rest) = isNameLoopValid false false rest := by
  induction n with
  | nil => rfl
  | cons c n ih =>
    rw [List.mem_cons, not_or] at hn
    rw [List.cons_append, isNameLoopValid, if_neg (Ne.symm hn.1), ih hn.2]
    by_cases hc : c = groupSeparator
    · rw [if_pos hc, if_neg Bool.false_ne_true]
    · rw [if_neg hc]

theorem isProgramNameValid_of_not_mem {t : Text} (hne : t ≠ []) (hname : nameSeparator ∉ t) :
    isProgramNameValid t = true ↔ t.getLast? ≠ some groupSeparator := by
  have hloop := isNameLoopValid_name hname []
  rw [List.append_nil] at hloop
  have hlast : t.getLast? ≠ some nameSeparator := fun h => hname (List.mem_of_getLast? h)
  have htake : t.take 2 ≠ [nameSeparator, groupSeparator] := fun h => by
    have hmem : nameSeparator ∈ t.take 2 := by
      rw [h]
      exact List.mem_cons_self
    exact hname (List.mem_of_mem_take hmem)
  unfold isProgramNameValid
  rw [if_neg hne, hloop]
  simp only [hlast, htake, or_false]
  split_ifs with h
  · simp [h]
  · exact ⟨fun _ => h, fun _ => rfl⟩

theorem dotted_true_cons (d : Char) (l : Text) :
    dotted true (d :: l) = true ↔ d ≠ groupSeparator ∧ dotted false (d :: l) = true := by
  unfold dotted
  by_cases hd : d = groupSeparator
  · simp [hd]
  · simp [hd]

/-- Behind its first separator a name is a group, whatever stands before. -/
theorem isProgramNameValid_append {n : Text} (hn : nameSeparator ∉ n) (g : Text) :
    isProgramNameValid (n ++ nameSeparator :: g) = true ↔ dotted true g = true := by
  have hne : n ++ nameSeparator :: g ≠ [] := by simp
  unfold isProgramNameValid
  rw [if_neg hne, isNameLoopValid_name hn, isNameLoopValid, if_pos rfl,
    List.getLast?_append_of_ne_nil n (List.cons_ne_nil nameSeparator g)]
  cases g with
  | nil => simp [dotted]
  | cons d l =>
    rw [List.getLast?_cons_cons, dotted_true_cons]
    constructor
    · intro h
      split_ifs at h with hends
      simp only [not_or] at hends
      simp only [Bool.not_false, Bool.true_and, Bool.and_eq_true, decide_eq_true_eq,
        List.head?_cons, ne_eq, Option.some.injEq] at h
      refine ⟨h.1, (isNameLoopValid_group false (d :: l)).1 ⟨h.2, hends.1, fun _ => rfl⟩⟩
    · rintro ⟨hd, hdotted⟩
      obtain ⟨hloop, -, -⟩ := (isNameLoopValid_group false (d :: l)).2 hdotted
      obtain ⟨-, -, hlast, -, hname⟩ := (dotted_eq false (d :: l)).1 hdotted
      rw [if_neg, hloop]
      · simpa using hd
      · rintro (h | h | h)
        · exact hlast h
        · exact hname (List.mem_of_getLast? h)
        · cases n with
          | nil =>
            simp only [List.nil_append, List.take_succ_cons, List.take_zero, List.cons.injEq,
              true_and, and_true] at h
            exact hd h
          | cons c n =>
            rw [List.cons_append, List.take_succ_cons] at h
            exact hn ((List.cons.inj h).1 ▸ List.mem_cons_self)

/-- Components that are added one after the other. -/
theorem foldl_addPath {cs : List Text} (hcs : ∀ c ∈ cs, c ≠ []) {address : Text}
    (haddress : address ≠ []) :
    cs.foldl addPath address = [groupSeparator].intercalate (address :: cs) := by
  induction cs generalizing address with
  | nil => rw [List.intercalate_singleton]; rfl
  | cons c cs ih =>
    have hc := hcs c List.mem_cons_self
    have hadd : addPath address c = address ++ groupSeparator :: c := by
      unfold addPath
      rw [if_neg haddress, if_pos hc]
    rw [List.foldl_cons, hadd, ih (fun d hd => hcs d (List.mem_cons_of_mem c hd)) (by simp)]
    cases cs with
    | nil => simp
    | cons d cs => simp

theorem setPath_getPath {g : Text} (hg : IsGroup g) : setPath (getPath g) = g := by
  obtain ⟨cs, hne, hparts, -, rfl⟩ := hg
  obtain ⟨c, cs, rfl⟩ := List.exists_cons_of_ne_nil hne
  have hc := (hparts c List.mem_cons_self).1
  unfold getPath setPath
  rw [if_neg (fun h => hne (hparts.intercalate_eq_nil_iff.1 h)), pathFrom_eq,
    List.splitOn_intercalate groupSeparator (fun d hd => (hparts d hd).2) hne, List.foldl_cons]
  have hadd : addPath [] c = c := if_pos rfl
  rw [hadd]
  exact foldl_addPath (fun d hd => (hparts d (List.mem_cons_of_mem c hd)).1) hc

theorem getName_append {n : Text} (hn : nameSeparator ∉ n) (g : Text) :
    getName (n ++ nameSeparator :: g) = n := by
  unfold getName
  have hall : ∀ c ∈ n, decide (c ≠ nameSeparator) = true := fun c hc =>
    decide_eq_true fun h => hn (h ▸ hc)
  rw [List.takeWhile_append_of_pos hall, List.takeWhile_cons, if_neg (by simp), List.append_nil]

theorem getName_of_not_mem {n : Text} (hn : nameSeparator ∉ n) : getName n = n := by
  unfold getName
  exact List.takeWhile_eq_self_iff.2 fun c hc => decide_eq_true fun h => hn (h ▸ hc)

theorem getAddressText_append {n g : Text} (hn : nameSeparator ∉ n) (hg : nameSeparator ∉ g)
    (hne : g ≠ []) : getAddressText (n ++ nameSeparator :: g) = .ok g := by
  obtain ⟨c, l, rfl⟩ := List.exists_cons_of_ne_nil hne
  have hall : ∀ d ∈ n, decide (d ≠ nameSeparator) = true := fun d hd =>
    decide_eq_true fun h => hn (h ▸ hd)
  unfold getAddressText
  rw [if_pos (by simp), if_neg, List.dropWhile_append_of_pos hall, List.dropWhile_cons,
    if_neg (by simp)]
  · rfl
  · rw [List.getLast?_append_of_ne_nil n (List.cons_ne_nil _ _), List.getLast?_cons_cons]
    exact fun h => hg (List.mem_of_getLast? h)

/-- A name is accepted just when it is empty, a name without a point at its end, or a group behind
any text without the separator. -/
theorem isProgramNameValid_iff (t : Text) : isProgramNameValid t = true ↔
    t = [] ∨ IsName t ∨ ∃ n g, nameSeparator ∉ n ∧ IsGroup g ∧ t = n ++ nameSeparator :: g := by
  by_cases hmem : nameSeparator ∈ t
  · obtain ⟨n, g, rfl, hn⟩ := List.eq_append_cons_of_mem hmem
    rw [isProgramNameValid_append hn, ← isGroup_iff]
    constructor
    · exact fun hg => Or.inr (Or.inr ⟨n, g, hn, hg, rfl⟩)
    · rintro (h | h | ⟨n', g', hn', hg', heq⟩)
      · simp at h
      · exact absurd hmem h.2.1
      · have hname := congrArg getName heq
        rw [getName_append hn, getName_append hn'] at hname
        subst hname
        cases List.append_cancel_left heq
        exact hg'
  · by_cases hnil : t = []
    · subst hnil
      exact ⟨fun _ => Or.inl rfl, fun _ => rfl⟩
    · rw [isProgramNameValid_of_not_mem hnil hmem]
      constructor
      · exact fun h => Or.inr (Or.inl ⟨hnil, hmem, h⟩)
      · rintro (h | h | ⟨n, g, -, -, rfl⟩)
        · exact absurd h hnil
        · exact h.2.2
        · exact absurd (by simp) hmem

/-- A group is not empty and has no separator of a name. -/
theorem IsGroup.plain {g : Text} (hg : IsGroup g) : g ≠ [] ∧ nameSeparator ∉ g := by
  obtain ⟨-, hne, -, -, hname⟩ := (dotted_eq true g).1 ((isGroup_iff g).1 hg)
  exact ⟨hne rfl, hname⟩

/-- An accepted name is put together again from its name and its group. -/
theorem rebuilt {t : Text} (ht : isProgramNameValid t = true) : ∃ g, getAddressText t = .ok g ∧
    programName (getName t) g = t ∧ setPath (getPath g) = g := by
  have hempty : setPath (getPath []) = [] := rfl
  rcases (isProgramNameValid_iff t).1 ht with rfl | ⟨hne, hname, -⟩ | ⟨n, g, hn, hg, rfl⟩
  · exact ⟨[], rfl, rfl, hempty⟩
  · refine ⟨[], if_neg hname, ?_, hempty⟩
    unfold programName register
    rw [if_pos rfl, getName_of_not_mem hname, getName_of_not_mem hname]
  · obtain ⟨hne, hat⟩ := hg.plain
    refine ⟨g, getAddressText_append hn hat hne, ?_, setPath_getPath hg⟩
    unfold programName register
    rw [if_neg hne, getName_append hn, getName_of_not_mem hn]

/-- The grammar is that of the checks but for a name with a point before the separator. -/
theorem grammatical_iff (t : Text) : Grammatical t ↔
    ¬ ∃ n g, nameSeparator ∉ n ∧ n.getLast? = some groupSeparator ∧ IsGroup g ∧
      t = n ++ nameSeparator :: g := by
  have hgroup : isProgramGroupValid t = true ↔ t = [] ∨ IsGroup t := by
    rw [isProgramGroupValid_iff, isGroup_iff]
  constructor
  · rintro h ⟨n, g, hn, hlast, hg, rfl⟩
    have hvalid : isProgramNameValid (n ++ nameSeparator :: g) = true :=
      (isProgramNameValid_iff _).2 (Or.inr (Or.inr ⟨n, g, hn, hg, rfl⟩))
    rcases h.name.1 hvalid with h | h | ⟨n', g', hn', hg', heq⟩
    · simp at h
    · exact h.2.1 (by simp)
    · have hn'' : nameSeparator ∉ n' := by
        rcases hn' with rfl | hn'
        · exact List.not_mem_nil
        · exact hn'.2.1
      have hname := congrArg getName heq
      rw [getName_append hn, getName_append hn''] at hname
      subst hname
      rcases hn' with rfl | hn'
      · cases hlast
      · exact hn'.2.2 hlast
  · intro hnot
    refine ⟨?_, hgroup, rebuilt, fun hvalid => ?_⟩
    · rw [isProgramNameValid_iff]
      unfold IsProgramName
      refine or_congr_right (or_congr_right ⟨?_, ?_⟩)
      · rintro ⟨n, g, hn, hg, rfl⟩
        refine ⟨n, g, ?_, hg, rfl⟩
        by_cases hnil : n = []
        · exact Or.inl hnil
        · exact Or.inr ⟨hnil, hn, fun hlast => hnot ⟨n, g, hn, hlast, hg, rfl⟩⟩
      · rintro ⟨n, g, hn, hg, rfl⟩
        refine ⟨n, g, ?_, hg, rfl⟩
        rcases hn with rfl | hn
        · exact List.not_mem_nil
        · exact hn.2.1
    · rcases hgroup.1 hvalid with rfl | hg
      · rfl
      · exact setPath_getPath hg

/-- A name part that ends with a point passes when a group follows it. -/
theorem isProgramName_false_of_point :
    isProgramNameValid ['a', '.', '@', 'b'] = true ∧ ¬ IsProgramName ['a', '.', '@', 'b'] := by
  refine ⟨by decide, ?_⟩
  rintro (h | h | ⟨n, g, hn, -, heq⟩)
  · cases h
  · exact h.2.1 (by decide)
  · have hat : nameSeparator ∉ n := by
      rcases hn with rfl | hn
      · exact List.not_mem_nil
      · exact hn.2.1
    have hname := congrArg getName heq
    rw [getName_append hat] at hname
    obtain rfl : ['a', '.'] = n := hname
    rcases hn with hn | hn
    · cases hn
    · exact hn.2.2 rfl

end UdtKernel.Address
