import Mathlib.Data.Char
import Mathlib.Data.List.Lex
import Mathlib.Data.Prod.Lex
import Mathlib.Order.Fin.Basic
import UdtKernel.Address
import UdtKernel.Lib.SortedMap

set_option autoImplicit false

/-! The demands for messages, and the messages that are heirs of others. -/

namespace UdtKernel

namespace Version

def isExist (v : Version) : Bool := v.major ≠ 0 || v.minor ≠ 0 || v.release ≠ 0

def isCompatibleWith (v aVer : Version) : Bool := v.major = aVer.major && v.minor ≤ aVer.minor

end Version

/-- The bits of `demand_dg_t::eFlags`. -/
structure DemandFlags where
  registrator : Bool
  isBigEndian : Bool
  asInheritance : Bool
  invertGroup : Bool
  nearest : Bool
  removed : Bool
  deriving DecidableEq

structure DemandDg where
  handlerPriority : ℕ
  what : RequiredHeader
  nameFrom : Text
  uuidFrom : Option Uuid
  protocol : Text
  handler : ℕ
  flags : DemandFlags
  deriving DecidableEq

namespace DemandDg
open UdtKernel.Lib

/-- `demand_dg_t::operator==`. -/
def isEqual (d e : DemandDg) : Bool :=
  d.protocol = e.protocol && d.nameFrom = e.nameFrom &&
    d.what.messageHeader = e.what.messageHeader && d.uuidFrom = e.uuidFrom

def isValidEndian (d : DemandDg) : Bool :=
  (if d.flags.isBigEndian then Endian.big else Endian.little) = shareEndian

def switchEndianFlag (d : DemandDg) : DemandDg :=
  { d with flags := { d.flags with isBigEndian := !d.flags.isBigEndian } }

def msg (d : DemandDg) : Text × Header := (d.protocol, d.what.messageHeader)

theorem isEqual_iff {d e : DemandDg} : d.isEqual e = true ↔
    d.msg = e.msg ∧ d.nameFrom = e.nameFrom ∧ d.uuidFrom = e.uuidFrom := by
  simp only [isEqual, msg, Bool.and_eq_true, decide_eq_true_eq, Prod.mk.injEq]
  tauto

theorem isEqual_symm {d e : DemandDg} (h : d.isEqual e = true) : e.isEqual d = true := by
  rw [isEqual_iff] at h ⊢
  exact ⟨h.1.symm, h.2.1.symm, h.2.2.symm⟩

theorem isEqual_trans {d e f : DemandDg} (h : d.isEqual e = true) (h' : e.isEqual f = true) :
    d.isEqual f = true := by
  rw [isEqual_iff] at h h' ⊢
  exact ⟨h.1.trans h'.1, h.2.1.trans h'.2.1, h.2.2.trans h'.2.2⟩

end DemandDg

open UdtKernel.Lib

/-- `demand_dgs_for_t`; a key is compared by its uuid only. -/
abbrev DemandDgsFor := SortedMap Uuid (List DemandDg)

/-- `operator[](u).push_back(d)`. -/
def pushDemand (m : DemandDgsFor) (u : Uuid) (d : DemandDg) : DemandDgsFor :=
  m.alter u fun o => some (o.getD [] ++ [d])

/-- `inheritance_msg_header_t`: a message with its distance to another, zero for an heir. -/
structure InheritanceMsgHeader where
  protocol : Text
  header : RequiredHeader
  depth : ℕ
  deriving DecidableEq

namespace InheritanceMsgHeader

def msg (h : InheritanceMsgHeader) : Text × Header := (h.protocol, h.header.messageHeader)

end InheritanceMsgHeader

/-- `msg_family_t` with the version of the header that is its key. -/
structure MsgFamily where
  version : Version
  baseMessages : List InheritanceMsgHeader
  subMessages : List InheritanceMsgHeader
  deriving DecidableEq

/-- A protocol name as the key of a map, ordered by `CStringFastLessCompare`: by the length,
    and names of one length by `memcmp` on their UTF-32 code units, low byte first. -/
structure Protocol where
  name : Text

namespace Protocol

def utf32 (c : Char) : List ℕ :=
  [c.toNat % 256, c.toNat / 256 % 256, c.toNat / 65536 % 256, c.toNat / 16777216]

def rank (p : Protocol) : ℕ ×ₗ List ℕ := toLex (p.name.length, p.name.flatMap utf32)

theorem name_injective : Function.Injective name := fun _ _ h => Protocol.mk.injEq .. ▸ h

theorem utf32_injective : Function.Injective utf32 := by
  intro c d h
  simp only [utf32, List.cons.injEq, and_true] at h
  obtain ⟨h0, h1, h2, h3⟩ := h
  have hval : c.toNat = d.toNat := by omega
  exact Char.toNat_inj.1 hval

theorem flatMap_utf32_injective {s t : Text} (h : s.flatMap utf32 = t.flatMap utf32) : s = t := by
  induction s generalizing t with
  | nil =>
    cases t with
    | nil => rfl
    | cons d t => cases h
  | cons c s ih =>
    cases t with
    | nil => cases h
    | cons d t =>
      rw [List.flatMap_cons, List.flatMap_cons] at h
      obtain ⟨hc, hs⟩ := List.append_inj h rfl
      rw [utf32_injective hc, ih hs]

theorem rank_injective : Function.Injective rank := by
  intro p q h
  obtain ⟨p⟩ := p
  obtain ⟨q⟩ := q
  have hname : p = q := flatMap_utf32_injective (Prod.mk.inj (toLex_inj.1 h)).2
  rw [hname]

instance : LinearOrder Protocol := LinearOrder.lift' rank rank_injective

end Protocol

example : (⟨"b".toList⟩ : Protocol) < ⟨"aa".toList⟩ := by decide

abbrev MsgInheritances := SortedMap Protocol (SortedMap Header MsgFamily)

/-- A genealogy that has passed `sMCheckCorrectionOfGenealogyTree`: a message and its
    descendants are all different. -/
structure Genealogy where
  tree : MsgInheritances
  unique : ∀ p m h f, tree.find ⟨p⟩ = some m → m.find h = some f →
    ((p, h) :: f.subMessages.map InheritanceMsgHeader.msg).Nodup

namespace Genealogy

def empty : Genealogy := ⟨.empty, by simp⟩

/-- `sMGetMessageChildren`: none when the version asked for is not compatible. -/
def getMessageChildren (g : Genealogy) (aMsgProtocol : Text) (aMsgType : RequiredHeader) :
    List InheritanceMsgHeader :=
  match g.tree.find ⟨aMsgProtocol⟩ with
  | none => []
  | some tree => match tree.find aMsgType.messageHeader with
    | none => []
    | some fam =>
      if aMsgType.version.isExist && !fam.version.isCompatibleWith aMsgType.version then []
      else fam.subMessages

theorem getMessageChildren_unique (g : Genealogy) (p : Text) (t : RequiredHeader) :
    ((p, t.messageHeader) :: (g.getMessageChildren p t).map InheritanceMsgHeader.msg).Nodup := by
  unfold getMessageChildren
  cases hp : g.tree.find ⟨p⟩ with
  | none => simp
  | some tree =>
    cases hh : tree.find t.messageHeader with
    | none => simp [hh]
    | some fam =>
      simp only [hh]
      split_ifs
      · simp
      · exact g.unique p tree _ fam hp hh

end Genealogy

def getChildDemand (aWhat : DemandDg) (aChild : InheritanceMsgHeader) : DemandDg :=
  { aWhat with
    flags := { aWhat.flags with asInheritance := true }
    what := aChild.header
    handlerPriority := (aWhat.handlerPriority + aChild.depth + 1) % 2 ^ 32
    protocol := aChild.protocol }

end UdtKernel
