import UdtKernel.Config.Demands
import UdtKernel.Lib.Run
import UdtKernel.RequiredDG.Demand
import Mathlib.Data.List.Nodup
import Mathlib.Data.List.Pairwise
import Mathlib.Data.List.Perm.Subperm

set_option autoImplicit false

/-! What a customer has subscribed to: `CCustomer::_pimpl`. -/

namespace UdtKernel.Core
open UdtKernel.Lib

structure RequirementMsgInfo where
  protocolName : Text
  required : RequiredHeader
  flags : ℕ
  from_ : Text
deriving DecidableEq

inductive CustomerCheck
  | noEvent
  | sizes
deriving DecidableEq

/-- `FUniqueNumber`, `FDemands`, `FEvents`, and the lists that were pushed for the kernel. -/
structure Customer (κ : Type) where
  uniqueNumber : ℕ
  demands : List DemandDg
  events : SortedMap ℕ κ
  pushed : List (List DemandDg)

/-- `RAW_PROTOCOL_NAME`. -/
def rawProtocol : Text := ['r', 'a', 'w']

def ucs4ToLower (c : Char) : Char :=
  if 'A' ≤ c ∧ c ≤ 'Z' then Char.ofNat (c.toNat + 0x20)
  else if 0x410 ≤ c.toNat ∧ c.toNat ≤ 0x42f then Char.ofNat (c.toNat + 0x20)
  else if c.toNat = 0x401 then Char.ofNat (c.toNat + 0x50)
  else c

def toDemandFlags (flags : ℕ) : DemandFlags where
  registrator := flags.testBit 0
  isBigEndian := shareEndian = .big || flags.testBit 1
  asInheritance := flags.testBit 2
  invertGroup := flags.testBit 3
  nearest := flags.testBit 4
  removed := flags.testBit 5

namespace RequirementMsgInfo

def demand (aNumber : RequirementMsgInfo) : DemandDg where
  handlerPriority := Service.handlerDefaultPriority
  what := aNumber.required
  nameFrom := aNumber.from_
  uuidFrom := none
  protocol :=
    (if aNumber.protocolName = [] then rawProtocol else aNumber.protocolName).map ucs4ToLower
  handler := Service.noHandler
  flags := toDemandFlags aNumber.flags

end RequirementMsgInfo

/-- What an `unsigned` becomes as an `int`. -/
def toInt (n : ℕ) : ℤ := if n < 2 ^ 31 then n else n - 2 ^ 32

def errorHandlerIsNotExist : ℤ := -255 + 8

namespace Customer

variable {κ : Type} (s : Customer κ)

def new : Customer κ := ⟨0, [], .empty, []⟩

def mUdpateRecvList : Customer κ := { s with pushed := s.pushed ++ [s.demands] }

def mSettingDgParserFor [Inhabited κ] (aNumber : RequirementMsgInfo) (aHandler : κ) :
    Except CustomerCheck (ℤ × Customer κ) :=
  let val := aNumber.demand
  match s.demands.findIdx? (·.isEqual val) with
  | none =>
    let handler := (s.uniqueNumber + 1) % 2 ^ 32
    .ok (toInt handler, mUdpateRecvList { s with
      uniqueNumber := handler
      demands := s.demands ++ [{ val with handler := handler }]
      events := s.events.insert handler aHandler })
  | some i =>
    -- the message that is logged looks up `FEvents[_i]`
    let events := s.events.insertNew (i % 2 ^ 32) default
    if (events.find val.handler).isNone then .error .noEvent
    else .ok (toInt val.handler, mUdpateRecvList { s with
      events := events.insert val.handler aHandler })

/-- What both removals do to the demand they have found. -/
def eraseAt (i : ℕ) (d : DemandDg) : Customer κ :=
  mUdpateRecvList { s with events := s.events.erase d.handler, demands := s.demands.eraseIdx i }

def mRemoveDgParser (aNumber : ℕ) : ℤ × Customer κ :=
  match s.demands.findIdx? (·.handler = aNumber) with
  | none => (errorHandlerIsNotExist, s)
  | some i => match s.demands[i]? with
    | none => (errorHandlerIsNotExist, s)
    | some d => (toInt d.handler, s.eraseAt i d)

def mRemoveDgParserFor (aNumber : RequirementMsgInfo) : Except CustomerCheck (ℤ × Customer κ) :=
  let val := aNumber.demand
  if s.demands.length ≠ s.events.entries.length then .error .sizes
  else match s.demands.findIdx? (·.isEqual val) with
    | none => .ok (errorHandlerIsNotExist, s)
    | some i => match s.demands[i]? with
      | none => .ok (errorHandlerIsNotExist, s)
      | some d =>
        let s := s.eraseAt i d
        if s.demands.length ≠ s.events.entries.length then .error .sizes
        else .ok (toInt d.handler, s)

end Customer

inductive CustomerCall (κ : Type)
  | set (aNumber : RequirementMsgInfo) (aHandler : κ)
  | remove (aNumber : ℕ)
  | removeFor (aNumber : RequirementMsgInfo)

namespace Customer

variable {κ : Type}

def answer [Inhabited κ] (s : Customer κ) : CustomerCall κ → Except CustomerCheck (ℤ × Customer κ)
  | .set aNumber aHandler => s.mSettingDgParserFor aNumber aHandler
  | .remove aNumber => .ok (s.mRemoveDgParser aNumber)
  | .removeFor aNumber => s.mRemoveDgParserFor aNumber

def call [Inhabited κ] (c : CustomerCall κ) (s : Customer κ) : Except CustomerCheck (Customer κ) :=
  (s.answer c).map Prod.snd

/-- `FDemands` and `FEvents` correspond by the numbers of the handlers. -/
structure Corresponds (s : Customer κ) : Prop where
  events : ∀ h, (s.events.find h).isSome = true ↔ ∃ d ∈ s.demands, d.handler = h
  nodup : (s.demands.map DemandDg.handler).Nodup
  valid : ∀ d ∈ s.demands, d.handler ≠ Service.noHandler

/-- The demand that is as `p` says is removed with its handler, and nothing else. -/
def Removes (s : Customer κ) (p : DemandDg → Bool) (reply : ℤ) (s' : Customer κ) : Prop :=
  (∀ d ∈ s.demands, p d = true → reply = toInt d.handler ∧
    s'.demands = s.demands.filter (·.handler ≠ d.handler) ∧
    s'.events = s.events.erase d.handler ∧ s'.pushed = s.pushed ++ [s'.demands]) ∧
  ((∀ d ∈ s.demands, p d = false) → reply = errorHandlerIsNotExist ∧ s' = s)

/-- A demand that is there gets another handler, a new one a number of its own. -/
def Sets (s : Customer κ) (val : DemandDg) (aHandler : κ) (reply : ℤ) (s' : Customer κ) : Prop :=
  s'.pushed = s.pushed ++ [s'.demands] ∧
  (∀ d ∈ s.demands, d.isEqual val = true → reply = toInt d.handler ∧ s'.demands = s.demands ∧
    s'.events = s.events.insert d.handler aHandler) ∧
  ((∀ d ∈ s.demands, d.isEqual val = false) → ∃ h, reply = toInt h ∧
    s'.demands = s.demands ++ [{ val with handler := h }] ∧
    s'.events = s.events.insert h aHandler)

def Does (s : Customer κ) (reply : ℤ) (s' : Customer κ) : CustomerCall κ → Prop
  | .set aNumber aHandler => s.Sets aNumber.demand aHandler reply s'
  | .remove aNumber => s.Removes (·.handler = aNumber) reply s'
  | .removeFor aNumber => s.Removes (·.isEqual aNumber.demand) reply s'

/-- What is subscribed to is new, and so is the number it gets. -/
def IsNew (s : Customer κ) : CustomerCall κ → Prop
  | .set aNumber _ => (∀ d ∈ s.demands, d.isEqual aNumber.demand = false) ∧
      (s.uniqueNumber + 1) % 2 ^ 32 ≠ Service.noHandler ∧
      ∀ d ∈ s.demands, d.handler ≠ (s.uniqueNumber + 1) % 2 ^ 32
  | _ => True

instance (s : Customer κ) : (c : CustomerCall κ) → Decidable (s.IsNew c)
  | .set _ _ => inferInstanceAs (Decidable (_ ∧ _ ∧ _))
  | .remove _ | .removeFor _ => isTrue trivial

structure Inv (s : Customer κ) : Prop extends Corresponds s where
  lt : ∀ d ∈ s.demands, d.handler < 2 ^ 32
  distinct : s.demands.Pairwise (fun d e => d.isEqual e = false)

variable {s : Customer κ}

theorem inv_new : (new : Customer κ).Inv := by
  refine ⟨⟨fun h => ?_, List.nodup_nil, ?_⟩, ?_, List.Pairwise.nil⟩
  · constructor
    · rintro ⟨⟩
    · rintro ⟨d, hd, -⟩
      cases hd
  · rintro d ⟨⟩
  · rintro d ⟨⟩

/-- A list keyed without repetition loses at an index what has the key there. -/
theorem eraseIdx_eq_filter {α β : Type} [DecidableEq β] {f : α → β} {l : List α}
    (hnodup : (l.map f).Nodup) {i : ℕ} {a : α} (ha : l[i]? = some a) :
    l.eraseIdx i = l.filter (f · ≠ f a) := by
  induction l generalizing i with
  | nil => cases ha
  | cons b l ih =>
    rw [List.map_cons, List.nodup_cons] at hnodup
    obtain ⟨hnot, hnodup⟩ := hnodup
    cases i with
    | zero =>
      obtain rfl : b = a := Option.some.inj ha
      have hall : ∀ c ∈ l, decide (f c ≠ f b) = true := fun c hc =>
        decide_eq_true fun heq => hnot (heq ▸ List.mem_map_of_mem hc)
      rw [List.eraseIdx_cons_zero, List.filter_cons_of_neg (by simp), List.filter_eq_self.2 hall]
    | succ i =>
      have ha' : l[i]? = some a := ha
      have hne : f b ≠ f a := fun heq =>
        hnot (heq ▸ List.mem_map_of_mem (List.mem_of_getElem? ha'))
      rw [List.eraseIdx_cons_succ, ih hnodup ha']
      exact (@List.filter_cons_of_pos _ (fun x => decide (f x ≠ f a)) b l
        (decide_eq_true hne)).symm

/-- Two demands that are there do not ask for the same. -/
theorem Inv.unique (h : s.Inv) {val d e : DemandDg} (hd : d ∈ s.demands) (he : e ∈ s.demands)
    (hdv : d.isEqual val = true) (hev : e.isEqual val = true) : d = e := by
  by_contra hne
  have hsymm : Std.Symm fun d e : DemandDg => d.isEqual e = false := by
    refine ⟨fun x y hxy => ?_⟩
    by_contra hyx
    rw [DemandDg.isEqual_symm (Bool.of_not_eq_false hyx)] at hxy
    cases hxy
  have hfalse := h.distinct.forall hd he hne
  rw [DemandDg.isEqual_trans hdv (DemandDg.isEqual_symm hev)] at hfalse
  cases hfalse

theorem Corresponds.unique (h : s.Corresponds) {d e : DemandDg} (hd : d ∈ s.demands)
    (he : e ∈ s.demands) (heq : d.handler = e.handler) : d = e :=
  List.inj_on_of_nodup_map h.nodup hd he heq

/-- There are as many demands as handlers. -/
theorem Corresponds.length_eq (h : s.Corresponds) :
    s.demands.length = s.events.entries.length := by
  have hperm : (s.demands.map DemandDg.handler).Perm s.events.keys := by
    rw [List.perm_ext_iff_of_nodup h.nodup s.events.keys_nodup]
    intro n
    rw [SortedMap.mem_keys_iff, ← Option.isSome_iff_exists, h.events, List.mem_map]
  have hlength := hperm.length_eq
  rw [List.length_map, SortedMap.keys, List.length_map] at hlength
  exact hlength

theorem eraseAt_inv (h : s.Inv) {i : ℕ} {d : DemandDg} (hd : s.demands[i]? = some d) :
    (s.eraseAt i d).Inv := by
  have herase : (s.eraseAt i d).demands = s.demands.filter (·.handler ≠ d.handler) :=
    eraseIdx_eq_filter h.nodup hd
  have hmem : ∀ e ∈ (s.eraseAt i d).demands, e ∈ s.demands := fun e he =>
    (List.eraseIdx_sublist _ _).subset he
  refine ⟨⟨fun n => ?_, ?_, fun e he => h.valid e (hmem e he)⟩, fun e he => h.lt e (hmem e he), ?_⟩
  · change ((s.events.erase d.handler).find n).isSome = true ↔ _
    rw [SortedMap.find_erase, herase]
    simp only [List.mem_filter, decide_eq_true_eq]
    split_ifs with hn
    · constructor
      · rintro ⟨⟩
      · rintro ⟨e, ⟨-, hne⟩, he⟩
        exact absurd (he.trans hn) hne
    · rw [h.events]
      constructor
      · rintro ⟨e, he, rfl⟩
        exact ⟨e, ⟨he, hn⟩, rfl⟩
      · rintro ⟨e, ⟨he, -⟩, hen⟩
        exact ⟨e, he, hen⟩
  · exact h.nodup.sublist ((List.eraseIdx_sublist _ _).map _)
  · exact h.distinct.sublist (List.eraseIdx_sublist _ _)

theorem eraseAt_removes (h : s.Inv) {p : DemandDg → Bool}
    (hp : ∀ d ∈ s.demands, ∀ e ∈ s.demands, p d = true → p e = true → d = e) {i : ℕ} {d : DemandDg}
    (hd : s.demands[i]? = some d) (hpd : p d = true) :
    s.Removes p (toInt d.handler) (s.eraseAt i d) := by
  have hmem := List.mem_of_getElem? hd
  refine ⟨fun e he hpe => ?_, fun hnone => ?_⟩
  · rw [hp e he d hmem hpe hpd]
    exact ⟨rfl, eraseIdx_eq_filter h.nodup hd, rfl, rfl⟩
  · rw [hnone d hmem] at hpd
    cases hpd

theorem removes_none {p : DemandDg → Bool} (hnone : ∀ d ∈ s.demands, p d = false) :
    s.Removes p errorHandlerIsNotExist s := by
  refine ⟨fun d hd hpd => ?_, fun _ => ⟨rfl, rfl⟩⟩
  rw [hnone d hd] at hpd
  cases hpd

/-- The first demand that is as `p` says. -/
theorem findIdx?_cases (p : DemandDg → Bool) (l : List DemandDg) :
    l.findIdx? p = none ∧ (∀ d ∈ l, p d = false) ∨
      ∃ i d, l.findIdx? p = some i ∧ l[i]? = some d ∧ p d = true := by
  cases hi : l.findIdx? p with
  | none => exact Or.inl ⟨rfl, List.findIdx?_eq_none_iff.1 hi⟩
  | some i =>
    obtain ⟨hlt, hp, -⟩ := List.findIdx?_eq_some_iff_getElem.1 hi
    exact Or.inr ⟨i, l[i], rfl, List.getElem?_eq_getElem hlt, hp⟩

theorem mRemoveDgParser_does (h : s.Inv) (aNumber : ℕ) :
    (s.mRemoveDgParser aNumber).2.Inv ∧
      s.Removes (·.handler = aNumber) (s.mRemoveDgParser aNumber).1
        (s.mRemoveDgParser aNumber).2 := by
  unfold mRemoveDgParser
  rcases findIdx?_cases (·.handler = aNumber) s.demands with ⟨hi, hnone⟩ | ⟨i, d, hi, hd, hpd⟩
  · rw [hi]
    exact ⟨h, removes_none hnone⟩
  · rw [hi]
    dsimp only
    rw [hd]
    refine ⟨eraseAt_inv h hd, eraseAt_removes h (fun d hd e he hpd hpe => ?_) hd hpd⟩
    exact h.toCorresponds.unique hd he ((of_decide_eq_true hpd).trans (of_decide_eq_true hpe).symm)

theorem mRemoveDgParserFor_does (h : s.Inv) (aNumber : RequirementMsgInfo) :
    ∃ reply s', s.mRemoveDgParserFor aNumber = .ok (reply, s') ∧ s'.Inv ∧
      s.Removes (·.isEqual aNumber.demand) reply s' := by
  unfold mRemoveDgParserFor
  dsimp only
  rw [if_neg (not_not.2 h.length_eq)]
  rcases findIdx?_cases (·.isEqual aNumber.demand) s.demands with ⟨hi, hnone⟩ | ⟨i, d, hi, hd, hpd⟩
  · rw [hi]
    exact ⟨_, s, rfl, h, removes_none hnone⟩
  · rw [hi]
    dsimp only
    rw [hd]
    have hinv := eraseAt_inv h hd
    dsimp only
    rw [if_neg (not_not.2 hinv.length_eq)]
    exact ⟨_, _, rfl, hinv, eraseAt_removes h (fun d hd e he => h.unique hd he) hd hpd⟩

/-- Numbers without repetition are as many as there is room for. -/
theorem Inv.length_le (h : s.Inv) : s.demands.length ≤ 2 ^ 32 - 1 := by
  have hsubset : s.demands.map DemandDg.handler ⊆ List.range (2 ^ 32 - 1) := by
    intro n hn
    obtain ⟨d, hd, rfl⟩ := List.mem_map.1 hn
    have hlt := h.lt d hd
    have hne := h.valid d hd
    unfold Service.noHandler at hne
    exact List.mem_range.2 (by omega)
  have hle := (List.subperm_of_subset h.nodup hsubset).length_le
  rw [List.length_map, List.length_range] at hle
  exact hle

/-- Nothing is found under the number of a demand that has none. -/
theorem Corresponds.find_noHandler (h : s.Corresponds) :
    s.events.find Service.noHandler = none := by
  rw [← Option.not_isSome_iff_eq_none, h.events]
  rintro ⟨d, hd, heq⟩
  exact h.valid d hd heq

variable [Inhabited κ]

theorem mSettingDgParserFor_does (h : s.Inv) {aNumber : RequirementMsgInfo} {aHandler : κ}
    (hnew : s.IsNew (.set aNumber aHandler)) :
    ∃ reply s', s.mSettingDgParserFor aNumber aHandler = .ok (reply, s') ∧ s'.Inv ∧
      s.Sets aNumber.demand aHandler reply s' := by
  obtain ⟨hnone, hvalid, hfree⟩ := hnew
  unfold mSettingDgParserFor
  dsimp only
  rw [List.findIdx?_eq_none_iff.2 hnone]
  refine ⟨_, _, rfl, ⟨⟨fun n => ?_, ?_, ?_⟩, ?_, ?_⟩, rfl, fun d hd hdv => ?_, fun _ => ?_⟩
  · change ((s.events.insert _ aHandler).find n).isSome = true ↔ _
    rw [SortedMap.find_insert]
    simp only [mUdpateRecvList, List.mem_append, List.mem_singleton]
    split_ifs with hn
    · exact ⟨fun _ => ⟨_, Or.inr rfl, hn.symm⟩, fun _ => rfl⟩
    · rw [h.events]
      constructor
      · rintro ⟨e, he, hen⟩
        exact ⟨e, Or.inl he, hen⟩
      · rintro ⟨e, he | rfl, hen⟩
        · exact ⟨e, he, hen⟩
        · exact absurd hen.symm hn
  · change ((s.demands ++ [_]).map DemandDg.handler).Nodup
    rw [List.map_append, List.nodup_append]
    refine ⟨h.nodup, List.nodup_singleton _, fun a ha b hb => ?_⟩
    obtain ⟨d, hd, rfl⟩ := List.mem_map.1 ha
    obtain rfl := List.mem_singleton.1 hb
    exact hfree d hd
  · intro d hd
    rcases List.mem_append.1 hd with hd | hd
    · exact h.valid d hd
    · obtain rfl := List.mem_singleton.1 hd
      exact hvalid
  · intro d hd
    rcases List.mem_append.1 hd with hd | hd
    · exact h.lt d hd
    · obtain rfl := List.mem_singleton.1 hd
      exact Nat.mod_lt _ (Nat.two_pow_pos 32)
  · refine List.pairwise_append.2 ⟨h.distinct, List.pairwise_singleton _ _, fun d hd e he => ?_⟩
    obtain rfl := List.mem_singleton.1 he
    exact hnone d hd
  · rw [hnone d hd] at hdv
    cases hdv
  · exact ⟨_, rfl, rfl, rfl⟩

/-- A new call does what it has to. -/
theorem answer_does (h : s.Inv) {c : CustomerCall κ} (hc : s.IsNew c) :
    ∃ reply s', s.answer c = .ok (reply, s') ∧ s'.Inv ∧ s.Does reply s' c := by
  cases c with
  | set aNumber aHandler => exact mSettingDgParserFor_does h hc
  | remove aNumber => exact ⟨_, _, rfl, mRemoveDgParser_does h aNumber⟩
  | removeFor aNumber => exact mRemoveDgParserFor_does h aNumber

/-- A second subscription for the same always fails. -/
theorem mSettingDgParserFor_of_mem (h : s.Inv) {d : DemandDg} (hd : d ∈ s.demands)
    {aNumber : RequirementMsgInfo} (hdv : d.isEqual aNumber.demand = true) (aHandler : κ) :
    s.mSettingDgParserFor aNumber aHandler = .error .noEvent := by
  unfold mSettingDgParserFor
  dsimp only
  rcases findIdx?_cases (·.isEqual aNumber.demand) s.demands with ⟨hi, hnone⟩ | ⟨i, e, hi, he, -⟩
  · rw [hnone d hd] at hdv
    cases hdv
  · have hle := h.length_le
    have hlt : i < s.demands.length := (List.getElem?_eq_some_iff.1 he).1
    have hne : ¬ Service.noHandler = i % 2 ^ 32 := by
      unfold Service.noHandler
      omega
    rw [hi]
    dsimp only
    rw [if_pos]
    change ((s.events.insertNew (i % 2 ^ 32) default).find Service.noHandler).isNone = true
    rw [SortedMap.find_insertNew, if_neg hne, h.find_noHandler]
    rfl

/-- A call that is right is new. -/
theorem isNew_of_does (h : s.Inv) {c : CustomerCall κ} {reply : ℤ} {s' : Customer κ}
    (hs' : s.answer c = .ok (reply, s')) (hcorresponds : s'.Corresponds) : s.IsNew c := by
  cases c with
  | remove aNumber | removeFor aNumber => trivial
  | set aNumber aHandler =>
    have hnone : ∀ d ∈ s.demands, d.isEqual aNumber.demand = false := by
      intro d hd
      by_contra hdv
      have hfails := mSettingDgParserFor_of_mem h hd (Bool.of_not_eq_false hdv) aHandler
      rw [answer, hfails] at hs'
      cases hs'
    have hadded : s'.demands = s.demands ++
        [{ aNumber.demand with handler := (s.uniqueNumber + 1) % 2 ^ 32 }] := by
      unfold answer mSettingDgParserFor at hs'
      dsimp only at hs'
      rw [List.findIdx?_eq_none_iff.2 hnone] at hs'
      cases hs'
      rfl
    have hlast : { aNumber.demand with handler := (s.uniqueNumber + 1) % 2 ^ 32 } ∈ s'.demands := by
      rw [hadded]
      exact List.mem_append_right _ (List.mem_singleton.2 rfl)
    refine ⟨hnone, hcorresponds.valid _ hlast, fun d hd heq => ?_⟩
    have hnodup := hcorresponds.nodup
    rw [hadded, List.map_append, List.nodup_append] at hnodup
    exact hnodup.2.2 _ (List.mem_map_of_mem hd) _ (List.mem_singleton.2 rfl) heq

/-- In a run of a customer the demands and the handlers correspond in every state, and every call
does what it has to and tells the kernel, just when nothing is subscribed to again and every number
is a new one. -/
theorem does_iff_isNew (calls : List (CustomerCall κ)) :
    Traced call (fun s c s' => ∃ reply, s.answer c = .ok (reply, s') ∧ s'.Corresponds ∧
      s.Does reply s' c) calls new ↔ EveryStep call IsNew calls (new : Customer κ) := by
  refine traced_iff_of_step (I := Inv) (fun s c hs hc => ?_) (fun s c s' hs _ hR => ?_) inv_new
  · obtain ⟨reply, s', hs', hinv, hdoes⟩ := answer_does hs hc
    exact ⟨s', by rw [call, hs']; rfl, hinv, reply, hs', hinv.toCorresponds, hdoes⟩
  · obtain ⟨reply, hs', hcorresponds, -⟩ := hR
    exact isNew_of_does hs hs' hcorresponds

def someRequirement : RequirementMsgInfo := ⟨[], ⟨⟨0, 0, 0⟩, List.replicate 8 0⟩, 0, ['a']⟩

/-- A message is subscribed to a second time. -/
theorem does_false_of_again :
    ∃ s : Customer ℕ, call (.set someRequirement 5) new = .ok s ∧
      s.answer (.set someRequirement 6) = .error .noEvent := by
  exact ⟨_, rfl, rfl⟩

end Customer

end UdtKernel.Core
