import Mathlib.Data.List.TakeWhile
import UdtKernel.Types

set_option autoImplicit false

/-! Program names `name@group.group` and how an identifier conforms to a required name. -/

namespace UdtKernel.Address

/-- `CProgramName::SEPERATOR`. -/
def nameSeparator : Char := '@'

def groupSeparator : Char := '.'

/-- `std::numeric_limits<unsigned>::max()`. -/
def unsignedMax : ℕ := 2 ^ 32 - 1

/-- `CProgramName::MGetName`: the text before the first separator. -/
def getName (aName : Text) : Text := aName.takeWhile (· ≠ nameSeparator)

/-- `CProgramName::MGetAddressText`: the text after the first separator, which must not be the
    last character of the name. -/
def getAddressText (aName : Text) : Except Abort Text :=
  if nameSeparator ∈ aName then
    if aName.getLast? = some nameSeparator then .error .addressEndsWithSeparator
    else .ok ((aName.dropWhile (· ≠ nameSeparator)).drop 1)
  else .ok []

def register (aName aGroup : Text) : Text :=
  if aGroup = [] then aName else aName ++ nameSeparator :: aGroup

/-- `CProgramName(aName, aGroup)`. -/
def programName (aName aGroup : Text) : Text := register (getName aName) aGroup

def isName (aName : Text) : Bool :=
  match aName with
  | [] => false
  | c :: _ => c ≠ nameSeparator

def groupLevel (aRest : Text) : ℕ := aRest.count groupSeparator + 1

/-- `CProgramName::sMCompare`: `aWith` must be a prefix of `aWhat`, and what follows decides. -/
def compare (aWhat aWith : Text) : ℕ :=
  if aWith = [] ∨ aWhat = [] then 0
  else if aWith.isPrefixOf aWhat then match aWhat.drop aWith.length with
    | [] => 1
    | c :: rest =>
      if c = nameSeparator then unsignedMax
      else if nameSeparator ∈ aWith ∧ c = groupSeparator then groupLevel (c :: rest)
      else 0
  else 0

def isForMe (aMe aWhat : Text) : ℕ := compare aWhat aMe

/-- `CProgramGroup::sMIsSubGroupOf`: the level of the group of `aWhat` in the group `aWith`. -/
def isSubGroupOf (aWhat aWith : Text) : ℕ :=
  let group :=
    if nameSeparator ∈ aWhat then (aWhat.dropWhile (· ≠ nameSeparator)).drop 1 else aWhat
  if aWith = [] then if aWhat = [] then 1 else unsignedMax
  else if aWhat = [] ∨ group.length < aWith.length then 0
  else
    let rest := group.drop aWith.length
    if group.take aWith.length = aWith ∧ (rest = [] ∨ rest.head? = some groupSeparator) then
      groupLevel rest
    else 0

/-- `CRequiredDG::MDoesIdConformTo`: the depth at which the name of an identifier matches, zero
    when it does not. Inverting exchanges the groups of the two names. -/
def doesIdConformTo (aTestName aReqExp : Text) (isInvertGroup : Bool) : Except Abort ℕ :=
  if isInvertGroup then do
    let newReqExp := programName (getName aReqExp) (← getAddressText aTestName)
    let newName := programName (getName aTestName) (← getAddressText aReqExp)
    if isName aReqExp then return isForMe newReqExp newName
    else return isSubGroupOf newName (← getAddressText newReqExp)
  else if isName aReqExp then return isForMe aReqExp aTestName
  else return isSubGroupOf aTestName (← getAddressText aReqExp)

/-- The name does not end with the separator, so that its group can be taken. -/
def HasAddress (aName : Text) : Prop := aName.getLast? ≠ some nameSeparator

instance (aName : Text) : Decidable (HasAddress aName) :=
  inferInstanceAs (Decidable (_ ≠ _))

theorem getAddressText_ok {aName : Text} (h : HasAddress aName) :
    ∃ g, getAddressText aName = .ok g ∧ HasAddress g := by
  unfold getAddressText
  rw [if_neg (show ¬ aName.getLast? = some nameSeparator from h)]
  split_ifs with hsep
  · refine ⟨_, rfl, fun hg => h ?_⟩
    have hsplit := List.takeWhile_append_dropWhile (p := (· ≠ nameSeparator)) (l := aName)
    have hdrop := List.take_append_drop 1 (aName.dropWhile (· ≠ nameSeparator))
    rw [← hsplit, ← hdrop, ← List.append_assoc, List.getLast?_append, hg]
    rfl
  · exact ⟨[], rfl, by simp [HasAddress]⟩

theorem hasAddress_getName (aName : Text) : HasAddress (getName aName) := fun h => by
  have hmem := List.mem_takeWhile_imp (List.mem_of_getLast? h)
  simp at hmem

theorem hasAddress_programName (aName : Text) {aGroup : Text} (h : HasAddress aGroup) :
    HasAddress (programName aName aGroup) := by
  unfold programName register
  split_ifs with hnil
  · exact hasAddress_getName aName
  · intro hlast
    rw [List.getLast?_append, List.getLast?_cons] at hlast
    cases hg : aGroup.getLast? with
    | none => exact hnil (List.getLast?_eq_none_iff.1 hg)
    | some c =>
      rw [hg] at hlast
      exact h (hg.trans hlast)

def conformable (aTestName aReqExp : Text) (isInvertGroup : Bool) : Bool :=
  (doesIdConformTo aTestName aReqExp isInvertGroup).isOk

def depth (aTestName aReqExp : Text) (isInvertGroup : Bool) : ℕ :=
  match doesIdConformTo aTestName aReqExp isInvertGroup with
  | .ok n => n
  | .error _ => 0

theorem doesIdConformTo_ok {aTestName aReqExp : Text} {isInvertGroup : Bool}
    (h : conformable aTestName aReqExp isInvertGroup = true) :
    doesIdConformTo aTestName aReqExp isInvertGroup =
      .ok (depth aTestName aReqExp isInvertGroup) := by
  unfold conformable at h
  unfold depth
  cases hd : doesIdConformTo aTestName aReqExp isInvertGroup with
  | ok n => rfl
  | error e => rw [hd] at h; cases h

/-- Names with an address are always conformable. -/
theorem conformable_of_hasAddress {aTestName aReqExp : Text} (htest : HasAddress aTestName)
    (hreq : HasAddress aReqExp) (isInvertGroup : Bool) :
    conformable aTestName aReqExp isInvertGroup = true := by
  suffices h : ∃ n, doesIdConformTo aTestName aReqExp isInvertGroup = .ok n by
    obtain ⟨n, hn⟩ := h
    rw [conformable, hn]
    rfl
  obtain ⟨g, hg, hgAddress⟩ := getAddressText_ok htest
  obtain ⟨r, hr, -⟩ := getAddressText_ok hreq
  obtain ⟨t, ht, -⟩ := getAddressText_ok
    (hasAddress_programName (getName aReqExp) hgAddress)
  cases isInvertGroup <;> cases hname : isName aReqExp <;>
    simp [doesIdConformTo, hname, hg, hr, ht, bind, Except.bind, pure, Except.pure]

end UdtKernel.Address
