import UdtKernel.Lib.Chain
import UdtKernel.Lib.NestedMap
import UdtKernel.RequiredDG.Demand

set_option autoImplicit false

/-! The trees of heirs and families that the genealogy of messages is made of. -/

namespace UdtKernel
open UdtKernel.Lib

/-- What tells messages apart in the trees: the protocol and the bytes of the header. -/
abbrev Msg := Protocol × Header

namespace InheritanceMsgHeader

def key (h : InheritanceMsgHeader) : Msg := (⟨h.protocol⟩, h.header.messageHeader)

/-- `operator==`, which looks at the version and not at the depth. -/
def isEqual (h g : InheritanceMsgHeader) : Bool := h.protocol = g.protocol && h.header = g.header

/-- The message an entry is about and how far it is. -/
def place (h : InheritanceMsgHeader) : Msg × ℕ := (h.key, h.depth)

@[simp] theorem place_fst (h : InheritanceMsgHeader) : h.place.1 = h.key := rfl

@[simp] theorem place_snd (h : InheritanceMsgHeader) : h.place.2 = h.depth := rfl

end InheritanceMsgHeader

namespace MsgFamily

/-- What `operator[]` makes of a header that is not there. -/
def ofHeader (h : RequiredHeader) : MsgFamily := ⟨h.version, [], []⟩

def isParent (f : MsgFamily) (aParrent : InheritanceMsgHeader) : Bool :=
  f.baseMessages.any fun b => b.isEqual aParrent

def putParrent (f : MsgFamily) (aParrent : InheritanceMsgHeader) : MsgFamily :=
  { f with baseMessages := f.baseMessages ++ [aParrent] }

/-- `MPutChild`: put where `lower_bound` says, unless the one found there is the child. -/
def putChild (f : MsgFamily) (aChild : InheritanceMsgHeader) : MsgFamily :=
  let before := f.subMessages.takeWhile fun c => c.depth < aChild.depth
  let after := f.subMessages.dropWhile fun c => c.depth < aChild.depth
  let isExist := after.head?.any fun c => c.isEqual aChild
  if isExist then f else { f with subMessages := before ++ aChild :: after }

def putChildrenOfChild (f : MsgFamily) (aChilds : List InheritanceMsgHeader) : MsgFamily :=
  aChilds.foldl (fun f c => f.putChild { c with depth := (c.depth + 1) % 2 ^ 32 }) f

theorem putChild_hasChild (f : MsgFamily) (c : InheritanceMsgHeader) :
    (f.putChild c).subMessages ≠ [] := by
  unfold putChild
  dsimp only
  split_ifs with hexist
  · intro hnil
    rw [hnil] at hexist
    cases hexist
  · simp

theorem putChildrenOfChild_ne_nil {f : MsgFamily} (hf : f.subMessages ≠ [])
    (aChilds : List InheritanceMsgHeader) :
    (f.putChildrenOfChild aChilds).subMessages ≠ [] := by
  induction aChilds generalizing f with
  | nil => exact hf
  | cons c l ih => exact ih (putChild_hasChild f _)

theorem putChildrenOfChild_base (f : MsgFamily) (aChilds : List InheritanceMsgHeader) :
    (f.putChildrenOfChild aChilds).baseMessages = f.baseMessages := by
  induction aChilds generalizing f with
  | nil => rfl
  | cons c l ih =>
    refine (ih _).trans ?_
    unfold putChild
    dsimp only
    split_ifs <;> rfl

/-- A child further than all that are there goes to the end. -/
theorem putChild_of_far {f : MsgFamily} {c : InheritanceMsgHeader}
    (h : ∀ b ∈ f.subMessages, b.depth < c.depth) :
    f.putChild c = { f with subMessages := f.subMessages ++ [c] } := by
  have hdrop : f.subMessages.dropWhile (fun b => decide (b.depth < c.depth)) = [] :=
    List.dropWhile_eq_nil_iff.2 fun b hb => decide_eq_true (h b hb)
  have htake : f.subMessages.takeWhile (fun b => decide (b.depth < c.depth)) = f.subMessages :=
    List.takeWhile_eq_self_iff.2 fun b hb => decide_eq_true (h b hb)
  simp [putChild, hdrop, htake]

end MsgFamily

structure HeirFamily where
  family : MsgFamily
  hasChild : family.subMessages ≠ []

namespace HeirFamily

def back (f : HeirFamily) : InheritanceMsgHeader := f.family.subMessages.getLast f.hasChild

def putChildrenOfChild (f : HeirFamily) (aChilds : List InheritanceMsgHeader) : HeirFamily :=
  ⟨f.family.putChildrenOfChild aChilds, MsgFamily.putChildrenOfChild_ne_nil f.hasChild aChilds⟩

end HeirFamily

/-- `msg_inheritances_t` as `MReadMsgChild` fills it: no message is there without a child. -/
abbrev HeirTree := NestedMap Protocol Header HeirFamily

abbrev GenealogyTree := NestedMap Protocol Header MsgFamily

namespace HeirTree
open NestedMap

/-- `sMGetMessageChildren`: none when the version asked for is not compatible. -/
def getMessageChildren (aMsgProtocol : Text) (aMsgType : RequiredHeader) (aFrom : HeirTree) :
    List InheritanceMsgHeader :=
  match at_ aFrom (⟨aMsgProtocol⟩, aMsgType.messageHeader) with
  | none => []
  | some f =>
    if aMsgType.version.isExist && !f.family.version.isCompatibleWith aMsgType.version then []
    else f.family.subMessages

def heir (info : HeirTree) (x : Msg) : Option Msg := (at_ info x).map fun f => f.back.key

def IsMessage (info : HeirTree) (x : Msg) : Prop :=
  (at_ info x).isSome ∨ ∃ y, info.heir y = some x

/-- Each message has one heir and nothing else is known of it yet. -/
def OneHeir (info : HeirTree) : Prop :=
  ∀ x ∈ allKeys info, ∀ f ∈ at_ info x,
    f.family.subMessages = [f.back] ∧ f.back.depth = 0 ∧ f.family.baseMessages = []

/-- `msg_inheritance_t`: the header of a message with its heir. -/
structure Inheritance where
  what : RequiredHeader
  childHeader : RequiredHeader
  childProtocol : Text

/-- `MReadMsgChild`, the parsers being given by the inheritances of their protocols. -/
def readMsgChild (parsers : SortedMap Protocol (List Inheritance)) : HeirTree :=
  parsers.entries.foldl (fun genealogy e => e.2.foldl (fun genealogy i =>
    let childProtocol := if i.childProtocol.isEmpty then e.1.name else i.childProtocol
    let child : InheritanceMsgHeader := ⟨childProtocol, i.childHeader, 0⟩
    alterAt genealogy (e.1, i.what.messageHeader) fun o =>
      some ⟨((o.map HeirFamily.family).getD (.ofHeader i.what)).putChild child,
        MsgFamily.putChild_hasChild _ _⟩) genealogy) .empty

/-- No chain of heirs has more than `N` steps, so none is a cycle. -/
def ChainsWithin (N : ℕ) (info : HeirTree) : Prop :=
  ∀ x ∈ allKeys info, stepsOn info.heir (N + 1) x = none

instance (info : HeirTree) : Decidable info.OneHeir :=
  inferInstanceAs (Decidable (∀ x ∈ allKeys info, ∀ f ∈ at_ info x,
    f.family.subMessages = [f.back] ∧ f.back.depth = 0 ∧ f.family.baseMessages = []))

instance (N : ℕ) (info : HeirTree) : Decidable (info.ChainsWithin N) :=
  inferInstanceAs (Decidable (∀ x ∈ allKeys info, stepsOn info.heir (N + 1) x = none))

end HeirTree

end UdtKernel
