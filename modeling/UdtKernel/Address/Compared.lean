import UdtKernel.Address.Grammar

set_option autoImplicit false

/-! How the texts of a name and of a required name are compared character by character. -/

namespace UdtKernel.Address.Compared
open UdtKernel.Lib

inductive Fault where
  | pastEnd
  | addressEndsWithSeparator
  deriving DecidableEq

/-- `*_it` and `operator[]`. -/
def charAt (t : Text) (i : ℕ) : Except Fault Char :=
  match t[i]? with
  | some c => .ok c
  | none => .error .pastEnd

/-- The loop of `sMCompare`: where the texts part, and whether a separator was passed. -/
def matchLoop (aWhat aWith : Text) (i : ℕ) (isSep : Bool) : Except Fault (ℕ × Bool) :=
  if i < aWith.length then do
    let c ← charAt aWith i
    let d ← charAt aWhat i
    if c = d then matchLoop aWhat aWith (i + 1) (isSep || c = nameSeparator)
    else return (i, isSep)
  else return (i, isSep)
termination_by aWith.length - i

/-- The loop of `CText::compare` of the characters from `aFirst` on. -/
def equalLoop (aWhat : Text) (aFirst : ℕ) (aWith : Text) (i : ℕ) : Except Fault Bool :=
  if i < aWith.length then do
    let c ← charAt aWhat (aFirst + i)
    let d ← charAt aWith i
    if c = d then equalLoop aWhat aFirst aWith (i + 1) else return false
  else return true
termination_by aWith.length - i

/-- The loops that count the level in a number of `2 ^ w` values. -/
def levelLoop (w : ℕ) (t : Text) (i level : ℕ) : Except Fault ℕ :=
  if i < t.length then do
    let c ← charAt t i
    levelLoop w t (i + 1) (if c = groupSeparator then (level + 1) % 2 ^ w else level)
  else return level
termination_by t.length - i

def compare (aWhat aWith : Text) : Except Fault ℕ :=
  if aWith = [] ∨ aWhat = [] then return 0
  else if aWhat.length < aWith.length then return 0
  else do
    let (it, isSep) ← matchLoop aWhat aWith 0 false
    if it ≠ aWith.length then return 0
    else if it = aWhat.length then return 1
    else do
      let c ← charAt aWhat it
      if c = nameSeparator then return unsignedMax
      else if isSep ∧ c = groupSeparator then levelLoop 32 aWhat it 1
      else return 0

/-- `CProgramGroup::sMIsSubGroupOf`: the level is counted in a `size_t`. -/
def isSubGroupOf (aWhat aWith : Text) : Except Fault ℕ :=
  let groupPos := if nameSeparator ∈ aWhat then aWhat.idxOf nameSeparator + 1 else 0
  let sizeGr := aWhat.length - groupPos
  if aWith = [] then return if aWhat = [] then 1 else unsignedMax
  else if aWhat = [] ∨ sizeGr < aWith.length then return 0
  else do
    let endOfGroup := groupPos + aWith.length
    let isEqual ← equalLoop aWhat groupPos aWith 0
    let isEnd ←
      if isEqual = false then pure false
      else if sizeGr = aWith.length then pure true
      else do
        let c ← charAt aWhat endOfGroup
        pure (decide (c = groupSeparator))
    if isEnd then do
      let level ← levelLoop 64 aWhat endOfGroup 1
      return level % 2 ^ 32
    else return 0

def isName (aName : Text) : Except Fault Bool :=
  if aName = [] then return false
  else do
    let c ← charAt aName 0
    return decide (c ≠ nameSeparator)

def getAddressText (aName : Text) : Except Fault Text :=
  if nameSeparator ∈ aName then do
    let c ← charAt aName (aName.length - 1)
    if c = nameSeparator then throw .addressEndsWithSeparator
    else return aName.drop (aName.idxOf nameSeparator + 1)
  else return []

def doesIdConformTo (aTestName aReqExp : Text) (isInvertGroup : Bool) : Except Fault ℕ := do
  if ← isName aReqExp then
    if isInvertGroup = false then compare aTestName aReqExp
    else
      let newReqExp := programName (getName aReqExp) (← getAddressText aTestName)
      let newName := programName (getName aTestName) (← getAddressText aReqExp)
      compare newName newReqExp
  else if isInvertGroup = false then isSubGroupOf aTestName (← getAddressText aReqExp)
  else
    let newReqExp := programName (getName aReqExp) (← getAddressText aTestName)
    let newName := programName (getName aTestName) (← getAddressText aReqExp)
    isSubGroupOf newName (← getAddressText newReqExp)

theorem charAt_ok {t : Text} {i : ℕ} (h : i < t.length) : charAt t i = .ok t[i] := by
  unfold charAt
  rw [List.getElem?_eq_getElem h]

theorem matchLoop_ok {aWhat aWith : Text} (hle : aWith.length ≤ aWhat.length) (i : ℕ)
    (hi : i ≤ aWith.length) (isSep : Bool) : ∃ n s, matchLoop aWhat aWith i isSep = .ok (n, s) ∧
      (n = aWith.length ↔ aWith.drop i <+: aWhat.drop i) ∧
      (n = aWith.length → s = (isSep || decide (nameSeparator ∈ aWith.drop i))) := by
  induction hk : aWith.length - i generalizing i isSep with
  | zero =>
    obtain rfl : i = aWith.length := by omega
    refine ⟨aWith.length, isSep, ?_, ?_, fun _ => ?_⟩
    · unfold matchLoop
      rw [if_neg (lt_irrefl _)]
      rfl
    · simp
    · simp
  | succ k ih =>
    have hwith : i < aWith.length := by omega
    have hwhat : i < aWhat.length := by omega
    unfold matchLoop
    rw [if_pos hwith, charAt_ok hwith, charAt_ok hwhat, List.drop_eq_getElem_cons hwith,
      List.drop_eq_getElem_cons hwhat, List.cons_prefix_cons]
    change ∃ n s, (if aWith[i] = aWhat[i] then _ else _) = _ ∧ _
    by_cases hc : aWith[i] = aWhat[i]
    · rw [if_pos hc]
      obtain ⟨n, s, heq, hn, hs⟩ :=
        ih (i + 1) (by omega) (isSep || decide (aWith[i] = nameSeparator)) (by omega)
      refine ⟨n, s, heq, ?_, fun hend => ?_⟩
      · rw [hn]
        exact ⟨fun h => ⟨hc, h⟩, And.right⟩
      · simp only [hs hend, Bool.or_assoc, List.mem_cons, Bool.decide_or, @eq_comm _ nameSeparator]
    · rw [if_neg hc]
      refine ⟨i, isSep, rfl, ?_, fun hend => ?_⟩
      · exact ⟨fun hend => absurd hend (by omega), fun h => absurd h.1 hc⟩
      · exact absurd hend (by omega)

theorem equalLoop_ok {aWhat aWith : Text} {aFirst : ℕ}
    (hle : aFirst + aWith.length ≤ aWhat.length) (i : ℕ) (hi : i ≤ aWith.length) :
    equalLoop aWhat aFirst aWith i =
      .ok (decide (aWith.drop i <+: aWhat.drop (aFirst + i))) := by
  induction hk : aWith.length - i generalizing i with
  | zero =>
    obtain rfl : i = aWith.length := by omega
    unfold equalLoop
    rw [if_neg (lt_irrefl _), List.drop_length, decide_eq_true List.nil_prefix]
    rfl
  | succ k ih =>
    have hwith : i < aWith.length := by omega
    have hwhat : aFirst + i < aWhat.length := by omega
    unfold equalLoop
    rw [if_pos hwith, charAt_ok hwith, charAt_ok hwhat]
    change (if aWhat[aFirst + i] = aWith[i] then _ else _) = _
    simp only [List.drop_eq_getElem_cons hwith, List.drop_eq_getElem_cons hwhat,
      List.cons_prefix_cons]
    by_cases hc : aWhat[aFirst + i] = aWith[i]
    · rw [if_pos hc, ih (i + 1) (by omega) (by omega)]
      simp only [hc, true_and]
      rfl
    · have hc' : ¬ aWith[i] = aWhat[aFirst + i] := fun h => hc h.symm
      rw [if_neg hc]
      simp only [hc', false_and, decide_false]
      rfl

theorem levelLoop_ok (w : ℕ) (t : Text) (i level : ℕ) : levelLoop w t i (level % 2 ^ w) =
    .ok ((level + (t.drop i).count groupSeparator) % 2 ^ w) := by
  induction hk : t.length - i generalizing i level with
  | zero =>
    unfold levelLoop
    rw [if_neg (by omega), List.drop_eq_nil_of_le (by omega), List.count_nil, Nat.add_zero]
    rfl
  | succ k ih =>
    have hi : i < t.length := by omega
    unfold levelLoop
    rw [if_pos hi, charAt_ok hi]
    change levelLoop w t (i + 1) (if t[i] = groupSeparator then _ else _) = _
    rw [List.drop_eq_getElem_cons hi]
    by_cases hc : t[i] = groupSeparator
    · rw [if_pos hc, hc, List.count_cons_self, Nat.mod_add_mod, ih (i + 1) (level + 1) (by omega),
        Nat.add_right_comm level 1, Nat.add_assoc]
    · rw [if_neg hc, ih (i + 1) level (by omega), List.count_cons_of_ne hc]

theorem unsignedMax_mod : unsignedMax % 2 ^ 32 = unsignedMax := by
  decide

/-- What remains of a text behind the one that it begins with. -/
theorem drop_cons {t : Text} {i : ℕ} {c : Char} {rest : Text} (h : t.drop i = c :: rest) :
    ∃ hi : i < t.length, t[i] = c ∧ t.drop (i + 1) = rest := by
  have hi : i < t.length := by
    by_contra hge
    rw [List.drop_eq_nil_of_le (by omega)] at h
    cases h
  rw [List.drop_eq_getElem_cons hi] at h
  obtain ⟨hc, hrest⟩ := List.cons.inj h
  exact ⟨hi, hc, hrest⟩

/-- The texts are compared without a read past their ends, and the level is a number of 32 bits. -/
theorem compare_eq (aWhat aWith : Text) :
    compare aWhat aWith = .ok (Address.compare aWhat aWith % 2 ^ 32) := by
  unfold compare Address.compare
  by_cases hnil : aWith = [] ∨ aWhat = []
  · rw [if_pos hnil, if_pos hnil]
    rfl
  rw [if_neg hnil, if_neg hnil]
  by_cases hlen : aWhat.length < aWith.length
  · have hnot : ¬ aWith.isPrefixOf aWhat = true := fun h => by
      have hle := (List.isPrefixOf_iff_prefix.1 h).length_le
      omega
    rw [if_pos hlen, if_neg hnot]
    rfl
  rw [if_neg hlen]
  obtain ⟨n, s, hloop, hn, hs⟩ :=
    matchLoop_ok (not_lt.1 hlen) 0 (Nat.zero_le aWith.length) false
  rw [List.drop_zero, List.drop_zero, ← List.isPrefixOf_iff_prefix] at hn
  rw [List.drop_zero, Bool.false_or] at hs
  rw [hloop]
  change (if n ≠ aWith.length then _ else _) = _
  by_cases hend : n = aWith.length
  · rw [if_neg (not_not.2 hend), if_pos (hn.1 hend)]
    obtain rfl := hs hend
    subst hend
    cases hdrop : aWhat.drop aWith.length with
    | nil =>
      have hle := List.drop_eq_nil_iff.1 hdrop
      rw [if_pos (by omega)]
      rfl
    | cons c rest =>
      obtain ⟨hi, rfl, -⟩ := drop_cons hdrop
      rw [if_neg (by omega), charAt_ok hi]
      change (if aWhat[aWith.length] = nameSeparator then _ else _) = _
      dsimp only
      split_ifs with hname hsep hsep' hsep'
      · rw [unsignedMax_mod]
        rfl
      · have hlevel := levelLoop_ok 32 aWhat aWith.length 1
        rw [hdrop] at hlevel
        unfold groupLevel
        rw [Nat.add_comm]
        exact hlevel
      · exact absurd ⟨of_decide_eq_true hsep.1, hsep.2⟩ hsep'
      · exact absurd ⟨decide_eq_true hsep'.1, hsep'.2⟩ hsep
      · rfl
  · rw [if_pos hend, if_neg (fun h => hend (hn.2 h))]
    rfl

/-- Where the group of a name begins. -/
theorem drop_groupPos (t : Text) :
    t.drop (if nameSeparator ∈ t then t.idxOf nameSeparator + 1 else 0) =
      if nameSeparator ∈ t then (t.dropWhile (· ≠ nameSeparator)).drop 1 else t := by
  split_ifs with hmem
  · obtain ⟨n, g, rfl, hn⟩ := List.eq_append_cons_of_mem hmem
    have hall : ∀ d ∈ n, decide (d ≠ nameSeparator) = true := fun d hd =>
      decide_eq_true fun h => hn (h ▸ hd)
    rw [List.idxOf_append_of_notMem hn, List.idxOf_cons_self, List.dropWhile_append_of_pos hall,
      List.dropWhile_cons_of_neg (by simp), Nat.add_zero, ← List.drop_drop, List.drop_left]
  · rfl

theorem isSubGroupOf_eq (aWhat aWith : Text) :
    isSubGroupOf aWhat aWith = .ok (Address.isSubGroupOf aWhat aWith % 2 ^ 32) := by
  have hgroup := drop_groupPos aWhat
  unfold isSubGroupOf Address.isSubGroupOf
  rw [← hgroup]
  generalize (if nameSeparator ∈ aWhat then aWhat.idxOf nameSeparator + 1 else 0) = pos
  dsimp only
  by_cases hnil : aWith = []
  · rw [if_pos hnil, if_pos hnil]
    split_ifs
    · rfl
    · rw [unsignedMax_mod]
      rfl
  rw [if_neg hnil, if_neg hnil, List.length_drop]
  by_cases hsmall : aWhat = [] ∨ aWhat.length - pos < aWith.length
  · rw [if_pos hsmall, if_pos hsmall]
    rfl
  rw [if_neg hsmall, if_neg hsmall]
  have hpos : 0 < aWith.length := List.length_pos_iff.2 hnil
  obtain ⟨-, hlen⟩ := not_or.1 hsmall
  rw [equalLoop_ok (by omega) 0 (Nat.zero_le aWith.length), List.drop_zero, Nat.add_zero,
    List.drop_drop]
  have htake : aWith <+: aWhat.drop pos ↔ (aWhat.drop pos).take aWith.length = aWith := by
    rw [List.prefix_iff_eq_take]
    exact eq_comm
  by_cases heq : aWith <+: aWhat.drop pos
  · rw [decide_eq_true heq]
    change (if aWhat.length - pos = aWith.length then _ else _) = _
    have hlevel := levelLoop_ok 64 aWhat (pos + aWith.length) 1
    have hmod : (1 + (aWhat.drop (pos + aWith.length)).count groupSeparator) % 2 ^ 64 % 2 ^ 32 =
        groupLevel (aWhat.drop (pos + aWith.length)) % 2 ^ 32 := by
      unfold groupLevel
      omega
    have hcount : (do
        let level ← levelLoop 64 aWhat (pos + aWith.length) 1
        return level % 2 ^ 32 : Except Fault ℕ) =
          .ok (groupLevel (aWhat.drop (pos + aWith.length)) % 2 ^ 32) := by
      rw [← hmod]
      change levelLoop 64 aWhat (pos + aWith.length) 1 = _ at hlevel
      rw [hlevel]
      rfl
    cases hdrop : aWhat.drop (pos + aWith.length) with
    | nil =>
      have hle := List.drop_eq_nil_iff.1 hdrop
      rw [if_pos (by omega), if_pos ⟨htake.1 heq, Or.inl rfl⟩, ← hdrop]
      exact hcount
    | cons c rest =>
      obtain ⟨hi, rfl, -⟩ := drop_cons hdrop
      rw [if_neg (by omega), charAt_ok hi]
      change (if decide (aWhat[pos + aWith.length] = groupSeparator) = true then _ else _) = _
      by_cases hc : aWhat[pos + aWith.length] = groupSeparator
      · rw [if_pos (decide_eq_true hc), if_pos ⟨htake.1 heq, Or.inr (congrArg some hc)⟩, ← hdrop]
        exact hcount
      · rw [if_neg (by rwa [decide_eq_true_eq]), if_neg]
        · rfl
        · rintro ⟨-, h | h⟩
          · cases h
          · exact hc (Option.some.inj h)
  · rw [decide_eq_false heq]
    change Except.ok 0 = _
    simp only [if_neg (fun h => heq (htake.2 (And.left h))), Nat.zero_mod]

theorem isName_eq (aName : Text) : isName aName = .ok (Address.isName aName) := by
  cases aName with
  | nil => rfl
  | cons c l => rfl

end UdtKernel.Address.Compared
