import Mathlib.Data.List.Count
import Mathlib.Data.List.Sort
import UdtKernel.RequiredDG.Table

set_option autoImplicit false

/-! The receivers of one message: `MFillRouteAndDestanationInfo`. -/

namespace UdtKernel.RequiredDG
open UdtKernel.Lib

def MsgHandlers.isRegistrarExist (c : MsgHandlers) : Bool :=
  !c.handlers.isEmpty && c.real != c.handlers.length

def checkVersion (reqVersion : Version) (aInfo : UserDataInfo) : Bool :=
  if reqVersion.isExist then
    if aInfo.what.version.isExist then reqVersion.isCompatibleWith aInfo.what.version else true
  else true

def addUuidToRoute (aM : MsgHandlers) (uuid : Uuid) (aInfo : UserDataInfo) : UserDataInfo :=
  let filed :=
    if 0 < aM.real then { aInfo with destination := aInfo.destination ++ [uuid] }
    else { aInfo with registrators := aInfo.registrators ++ [uuid] }
  setRouting filed (filed.routing.uuids ++ [uuid])

def addReceiverOfMsg (aHandlers : MsgHandlers) (uuid : Uuid) (aInfo : UserDataInfo) :
    ErrorType × UserDataInfo :=
  if checkVersion aHandlers.version aInfo then (eNoError, addUuidToRoute aHandlers uuid aInfo)
  else (eProtocolVersionIsNotCompatible, aInfo)

structure Filling where
  info : UserDataInfo
  sentTo : List Uuid
  incorrectVersion : List Uuid

namespace Filling

def addReceiver (s : Filling) (uuid : Uuid) (aHandlers : MsgHandlers) : Filling :=
  let added := addReceiverOfMsg aHandlers uuid s.info
  if added.1 ≠ eNoError then
    { s with info := added.2, incorrectVersion := s.incorrectVersion ++ [uuid] }
  else { s with info := added.2 }

/-- One turn of the loop over the table of receivers. -/
def turn (isBySubscriber : Bool) (s : Filling) (kt : Uuid × MsgHandlers) : Filling :=
  if isBySubscriber then s.addReceiver kt.1 kt.2
  else if kt.1 ∈ s.sentTo then { s with sentTo := s.sentTo.erase kt.1 }.addReceiver kt.1 kt.2
  else if kt.2.isRegistrarExist then { s with info := addUuidToRoute kt.2 kt.1 s.info }
  else s

def fails (s : Filling) (aErrors : List FailSend) : List FailSend :=
  let notExpected :=
    if s.sentTo ≠ [] then
      aErrors ++ [FailSend.ofRouting s.info s.sentTo eHandlerIsNotExist]
    else aErrors
  if s.incorrectVersion ≠ [] then
    notExpected ++ [FailSend.ofRouting s.info s.incorrectVersion eProtocolVersionIsNotCompatible]
  else notExpected

end Filling

def sortUuids (us : List Uuid) : List Uuid := us.insertionSort (· ≤ ·)

def sortReceivers (i : UserDataInfo) : UserDataInfo :=
  setRouting { i with
    destination := sortUuids i.destination
    registrators := sortUuids i.registrators } (sortUuids i.routing.uuids)

def fillRouteAndDestanationInfo (aRoute : ReceiversOfMsg) (aDataInfo : UserDataInfo)
    (aErrors : List FailSend) : Bool × UserDataInfo × List FailSend :=
  let isBySubscriber := aDataInfo.destination.isEmpty
  let s := aRoute.receivers.entries.foldl (Filling.turn isBySubscriber)
    ⟨{ aDataInfo with destination := [] }, sortUuids aDataInfo.destination, []⟩
  let info := sortReceivers s.info
  (!info.routing.uuids.isEmpty, info, s.fails aErrors)

theorem mem_sortUuids {us : List Uuid} {u : Uuid} : u ∈ sortUuids us ↔ u ∈ us :=
  List.mem_insertionSort _

theorem sortUuids_perm (us : List Uuid) : (sortUuids us).Perm us := List.perm_insertionSort _ us

theorem sortUuids_sorted (us : List Uuid) : (sortUuids us).Pairwise (· ≤ ·) :=
  List.pairwise_insertionSort _ us

/-- The receivers of `ps` with the others that the message has by now. -/
def addAll (i : UserDataInfo) (ps : List (Uuid × MsgHandlers)) : UserDataInfo :=
  setRouting { i with
    destination := i.destination ++ (ps.filter fun p => 0 < p.2.real).map Prod.fst
    registrators := i.registrators ++ (ps.filter fun p => ¬ 0 < p.2.real).map Prod.fst }
    (i.routing.uuids ++ ps.map Prod.fst)

theorem addAll_nil (i : UserDataInfo) : addAll i [] = i := by simp [addAll, setRouting]

theorem addAll_addAll (i : UserDataInfo) (ps qs : List (Uuid × MsgHandlers)) :
    addAll (addAll i ps) qs = addAll i (ps ++ qs) := by simp [addAll, setRouting]

theorem addUuidToRoute_eq (m : MsgHandlers) (u : Uuid) (i : UserDataInfo) :
    addUuidToRoute m u i = addAll i [(u, m)] := by
  unfold addUuidToRoute addAll
  by_cases h : m.real = 0
  · simp [h, setRouting]
  · simp [h, Nat.pos_of_ne_zero h, setRouting]

theorem checkVersion_addAll (v : Version) (i : UserDataInfo) (ps : List (Uuid × MsgHandlers)) :
    checkVersion v (addAll i ps) = checkVersion v i := rfl

def chosen (isBySubscriber : Bool) (sentTo : List Uuid) (p : Uuid × MsgHandlers) : Bool :=
  isBySubscriber || p.1 ∈ sentTo

def included (isBySubscriber : Bool) (i : UserDataInfo) (sentTo : List Uuid)
    (p : Uuid × MsgHandlers) : Bool :=
  if chosen isBySubscriber sentTo p then checkVersion p.2.version i else p.2.isRegistrarExist

def refused (isBySubscriber : Bool) (i : UserDataInfo) (sentTo : List Uuid)
    (p : Uuid × MsgHandlers) : Bool :=
  chosen isBySubscriber sentTo p && !checkVersion p.2.version i

theorem addReceiver_eq (s : Filling) (u : Uuid) (m : MsgHandlers) :
    s.addReceiver u m = if checkVersion m.version s.info then
      { s with info := addAll s.info [(u, m)] }
    else { s with incorrectVersion := s.incorrectVersion ++ [u] } := by
  unfold Filling.addReceiver addReceiverOfMsg
  by_cases h : checkVersion m.version s.info
  · simp [h, addUuidToRoute_eq]
  · simp [h, eNoError, eProtocolVersionIsNotCompatible]

theorem turn_eq (b : Bool) (s : Filling) (p : Uuid × MsgHandlers) :
    s.turn b p = ⟨addAll s.info ([p].filter (included b s.info s.sentTo)),
      if b then s.sentTo else s.sentTo.erase p.1,
      s.incorrectVersion ++ ([p].filter (refused b s.info s.sentTo)).map Prod.fst⟩ := by
  obtain ⟨u, m⟩ := p
  cases b with
  | true =>
    simp only [Filling.turn, addReceiver_eq]
    by_cases h : checkVersion m.version s.info <;>
      simp [included, refused, chosen, h, addAll_nil]
  | false =>
    by_cases hu : u ∈ s.sentTo
    · simp only [Filling.turn, addReceiver_eq, hu]
      by_cases h : checkVersion m.version s.info <;>
        simp [included, refused, chosen, h, hu, addAll_nil]
    · simp only [Filling.turn, addUuidToRoute_eq, hu]
      by_cases h : m.isRegistrarExist <;>
        simp [included, refused, chosen, h, hu, addAll_nil, List.erase_of_not_mem]

theorem foldl_turn (b : Bool) (ps : List (Uuid × MsgHandlers)) (h : (ps.map Prod.fst).Nodup)
    (s : Filling) :
    ps.foldl (Filling.turn b) s = ⟨addAll s.info (ps.filter (included b s.info s.sentTo)),
      if b then s.sentTo else s.sentTo.diff (ps.map Prod.fst),
      s.incorrectVersion ++ (ps.filter (refused b s.info s.sentTo)).map Prod.fst⟩ := by
  induction ps generalizing s with
  | nil => cases b <;> simp [addAll_nil]
  | cons p ps ih =>
    obtain ⟨hp, hps⟩ := List.nodup_cons.1 h
    -- the uuid of this turn is none of the later ones
    have hlater : ∀ q ∈ ps, chosen b (s.turn b p).sentTo q = chosen b s.sentTo q := by
      intro q hq
      have hne : q.1 ≠ p.1 := fun he => hp (he ▸ List.mem_map_of_mem hq)
      rw [turn_eq]
      cases b with
      | true => rfl
      | false => simp [chosen, List.mem_erase_of_ne hne]
    have hinc : ps.filter (included b (s.turn b p).info (s.turn b p).sentTo) =
        ps.filter (included b s.info s.sentTo) := by
      refine List.filter_congr fun q hq => ?_
      simp only [included, hlater q hq]
      rw [turn_eq, checkVersion_addAll]
    have href : ps.filter (refused b (s.turn b p).info (s.turn b p).sentTo) =
        ps.filter (refused b s.info s.sentTo) := by
      refine List.filter_congr fun q hq => ?_
      simp only [refused, hlater q hq]
      rw [turn_eq, checkVersion_addAll]
    rw [List.foldl_cons, ih hps, hinc, href, turn_eq]
    simp only [addAll_addAll, ← List.filter_append, List.append_assoc, ← List.map_append,
      List.singleton_append, Filling.mk.injEq, true_and, and_true]
    cases b <;> simp

section
variable (aRoute : ReceiversOfMsg) (aDataInfo : UserDataInfo) (aErrors : List FailSend)

def takenReceivers : List (Uuid × MsgHandlers) :=
  aRoute.receivers.entries.filter
    (included aDataInfo.destination.isEmpty aDataInfo aDataInfo.destination)

def refusedReceivers : List (Uuid × MsgHandlers) :=
  aRoute.receivers.entries.filter
    (refused aDataInfo.destination.isEmpty aDataInfo aDataInfo.destination)

def notExpected : List Uuid := (sortUuids aDataInfo.destination).diff aRoute.receivers.keys

def filledInfo : UserDataInfo :=
  addAll { aDataInfo with destination := [] } (takenReceivers aRoute aDataInfo)

theorem fillRouteAndDestanationInfo_eq :
    fillRouteAndDestanationInfo aRoute aDataInfo aErrors =
      (!(sortReceivers (filledInfo aRoute aDataInfo)).routing.uuids.isEmpty,
        sortReceivers (filledInfo aRoute aDataInfo),
        Filling.fails ⟨filledInfo aRoute aDataInfo, notExpected aRoute aDataInfo,
          (refusedReceivers aRoute aDataInfo).map Prod.fst⟩ aErrors) := by
  have hchosen : ∀ p, chosen aDataInfo.destination.isEmpty (sortUuids aDataInfo.destination) p =
      chosen aDataInfo.destination.isEmpty aDataInfo.destination p := fun p => by
    simp only [chosen, mem_sortUuids]
  have hinc : included aDataInfo.destination.isEmpty { aDataInfo with destination := [] }
      (sortUuids aDataInfo.destination) =
      included aDataInfo.destination.isEmpty aDataInfo aDataInfo.destination := by
    funext p
    simp only [included, hchosen]
    rfl
  have href : refused aDataInfo.destination.isEmpty { aDataInfo with destination := [] }
      (sortUuids aDataInfo.destination) =
      refused aDataInfo.destination.isEmpty aDataInfo aDataInfo.destination := by
    funext p
    simp only [refused, hchosen]
    rfl
  have hleft : (if aDataInfo.destination.isEmpty then sortUuids aDataInfo.destination
      else (sortUuids aDataInfo.destination).diff aRoute.receivers.keys) =
      notExpected aRoute aDataInfo := by
    unfold notExpected
    cases aDataInfo.destination with
    | nil => simp [sortUuids]
    | cons u us => rfl
  have hfold := foldl_turn aDataInfo.destination.isEmpty _ aRoute.receivers.keys_nodup
    ⟨{ aDataInfo with destination := [] }, sortUuids aDataInfo.destination, []⟩
  rw [hinc, href] at hfold
  unfold fillRouteAndDestanationInfo
  simp only [hfold, ← hleft]
  rfl

variable {aRoute aDataInfo}

theorem mem_taken {u : Uuid} {m : MsgHandlers} :
    (u, m) ∈ takenReceivers aRoute aDataInfo ↔ aRoute.receivers.find u = some m ∧
      (if aDataInfo.destination = [] ∨ u ∈ aDataInfo.destination then
        checkVersion m.version aDataInfo else m.isRegistrarExist) = true := by
  rw [takenReceivers, List.mem_filter, SortedMap.mem_entries_iff]
  simp [included, chosen]

theorem mem_refused {u : Uuid} {m : MsgHandlers} :
    (u, m) ∈ refusedReceivers aRoute aDataInfo ↔ aRoute.receivers.find u = some m ∧
      (aDataInfo.destination = [] ∨ u ∈ aDataInfo.destination) ∧
        checkVersion m.version aDataInfo = false := by
  rw [refusedReceivers, List.mem_filter, SortedMap.mem_entries_iff]
  simp [refused, chosen]

/-- An address is left over when it is not a receiver, or was given a second time. -/
theorem mem_notExpected {u : Uuid} : u ∈ notExpected aRoute aDataInfo ↔
    u ∈ aDataInfo.destination ∧
      (u ∈ aRoute.receivers.keys → 2 ≤ aDataInfo.destination.count u) := by
  rw [notExpected, ← List.count_pos_iff, List.count_diff, (sortUuids_perm _).count_eq,
    aRoute.receivers.keys_nodup.count, ← List.count_pos_iff (l := aDataInfo.destination)]
  by_cases h : u ∈ aRoute.receivers.keys
  · simp only [h, if_true, true_imp_iff]
    omega
  · simp [h]

/-- A report of `reports` that is about `u`. -/
def Reported (reports : List FailSend) (e : ErrorType) (u : Uuid) : Prop :=
  ∃ f ∈ reports, f.error = e ∧ u ∈ f.info.routing.uuids

def ExactlyOne (p q r : Prop) : Prop := p ∧ ¬ q ∧ ¬ r ∨ ¬ p ∧ q ∧ ¬ r ∨ ¬ p ∧ ¬ q ∧ r

/-- What a call leaves: its result, the message's info and the reports it adds. -/
structure FilledWell (aRoute : ReceiversOfMsg) (aDataInfo : UserDataInfo) (result : Bool)
    (info : UserDataInfo) (reports : List FailSend) : Prop where
  destination_sorted : info.destination.Pairwise (· ≤ ·)
  registrators_sorted : info.registrators.Pairwise (· ≤ ·)
  routing_sorted : info.routing.uuids.Pairwise (· ≤ ·)
  union : info.routing.uuids.Perm (info.destination ++ info.registrators)
  disjoint : info.destination.Disjoint info.registrators
  real : ∀ u ∈ info.destination, ∃ m, aRoute.receivers.find u = some m ∧ 0 < m.real
  addressed : ∀ u ∈ aDataInfo.destination, ExactlyOne (u ∈ info.routing.uuids)
    (Reported reports eProtocolVersionIsNotCompatible u) (Reported reports eHandlerIsNotExist u)
  unaddressed : ∀ u ∈ info.routing.uuids, u ∉ aDataInfo.destination →
    ∃ m, aRoute.receivers.find u = some m ∧ (u ∈ info.registrators ∧ m.isRegistrarExist ∨
      aDataInfo.destination = [] ∧ checkVersion m.version aDataInfo)
  compatible : ∀ u ∈ info.routing.uuids,
    ∃ m, aRoute.receivers.find u = some m ∧ checkVersion m.version aDataInfo
  result : result = true ↔ info.routing.uuids ≠ []

/-- No receiver is addressed twice, and a registrar that is not addressed is nothing else and
    takes the version of the message. -/
structure Fillable (aRoute : ReceiversOfMsg) (aDataInfo : UserDataInfo) : Prop where
  once : ∀ u ∈ aDataInfo.destination, u ∈ aRoute.receivers.keys →
    aDataInfo.destination.count u = 1
  registrars : aDataInfo.destination ≠ [] → ∀ u m, aRoute.receivers.find u = some m →
    u ∉ aDataInfo.destination → m.isRegistrarExist →
      m.real = 0 ∧ checkVersion m.version aDataInfo

def newFails (aRoute : ReceiversOfMsg) (aDataInfo : UserDataInfo) : List FailSend :=
  Filling.fails ⟨filledInfo aRoute aDataInfo, notExpected aRoute aDataInfo,
    (refusedReceivers aRoute aDataInfo).map Prod.fst⟩ []

theorem fails_eq (s : Filling) (aErrors : List FailSend) :
    s.fails aErrors = aErrors ++ s.fails [] := by
  unfold Filling.fails
  split_ifs <;> simp

theorem reported_fails (s : Filling) (e : ErrorType) (u : Uuid) :
    Reported (s.fails []) e u ↔ eHandlerIsNotExist = e ∧ u ∈ s.sentTo ∨
      eProtocolVersionIsNotCompatible = e ∧ u ∈ s.incorrectVersion := by
  have hnot : s.sentTo = [] → u ∉ s.sentTo := fun h => by simp [h]
  have hver : s.incorrectVersion = [] → u ∉ s.incorrectVersion := fun h => by simp [h]
  unfold Reported Filling.fails
  split_ifs with h₁ h₂ h₂ <;> simp_all [FailSend.ofRouting, eNoError]

theorem reported_notExpected {u : Uuid} :
    Reported (newFails aRoute aDataInfo) eHandlerIsNotExist u ↔
      u ∈ notExpected aRoute aDataInfo := by
  rw [newFails, reported_fails]
  simp [eHandlerIsNotExist, eProtocolVersionIsNotCompatible]

theorem reported_refused {u : Uuid} :
    Reported (newFails aRoute aDataInfo) eProtocolVersionIsNotCompatible u ↔
      ∃ m, (u, m) ∈ refusedReceivers aRoute aDataInfo := by
  rw [newFails, reported_fails]
  simp [eHandlerIsNotExist, eProtocolVersionIsNotCompatible]

theorem mem_routing {u : Uuid} (hrouting : aDataInfo.routing.uuids = []) :
    u ∈ (sortReceivers (filledInfo aRoute aDataInfo)).routing.uuids ↔
      ∃ m, (u, m) ∈ takenReceivers aRoute aDataInfo := by
  simp [sortReceivers, mem_sortUuids, filledInfo, addAll, hrouting]

theorem mem_destination {u : Uuid} :
    u ∈ (sortReceivers (filledInfo aRoute aDataInfo)).destination ↔
      ∃ m, (u, m) ∈ takenReceivers aRoute aDataInfo ∧ 0 < m.real := by
  simp [sortReceivers, setRouting, mem_sortUuids, filledInfo, addAll]

theorem mem_registrators {u : Uuid} (hregistrators : aDataInfo.registrators = []) :
    u ∈ (sortReceivers (filledInfo aRoute aDataInfo)).registrators ↔
      ∃ m, (u, m) ∈ takenReceivers aRoute aDataInfo ∧ m.real = 0 := by
  simp [sortReceivers, setRouting, mem_sortUuids, filledInfo, addAll, hregistrators]

theorem taken_of_addressed {u : Uuid} {m : MsgHandlers} (hu : u ∈ aDataInfo.destination)
    (hm : aRoute.receivers.find u = some m) :
    (u, m) ∈ takenReceivers aRoute aDataInfo ↔ checkVersion m.version aDataInfo := by
  simp [mem_taken, hm, hu]

theorem refused_of_addressed {u : Uuid} {m : MsgHandlers} (hu : u ∈ aDataInfo.destination)
    (hm : aRoute.receivers.find u = some m) :
    (u, m) ∈ refusedReceivers aRoute aDataInfo ↔ checkVersion m.version aDataInfo = false := by
  simp [mem_refused, hm, hu]

theorem fillable_of_filledWell (hrouting : aDataInfo.routing.uuids = [])
    {b : Bool} (h : FilledWell aRoute aDataInfo b (sortReceivers (filledInfo aRoute aDataInfo))
      (newFails aRoute aDataInfo)) : Fillable aRoute aDataInfo := by
  refine ⟨fun u hu hkey => ?_, fun hne u m hm hu hreg => ?_⟩
  · obtain ⟨m, hm⟩ := (SortedMap.mem_keys_iff _ _).1 hkey
    have hone := h.addressed u hu
    rw [mem_routing hrouting, reported_refused, reported_notExpected, mem_notExpected] at hone
    have hpos := List.count_pos_iff.2 hu
    by_contra hcount
    have htwice : 2 ≤ aDataInfo.destination.count u := by omega
    cases hv : checkVersion m.version aDataInfo with
    | true =>
      have ht := (taken_of_addressed hu hm).2 hv
      rcases hone with ⟨-, -, hr⟩ | ⟨hp, -⟩ | ⟨hp, -⟩
      · exact hr ⟨hu, fun _ => htwice⟩
      · exact hp ⟨m, ht⟩
      · exact hp ⟨m, ht⟩
    | false =>
      have ht := (refused_of_addressed hu hm).2 hv
      rcases hone with ⟨-, hq, -⟩ | ⟨-, -, hr⟩ | ⟨-, hq, -⟩
      · exact hq ⟨m, ht⟩
      · exact hr ⟨hu, fun _ => htwice⟩
      · exact hq ⟨m, ht⟩
  · have ht : (u, m) ∈ takenReceivers aRoute aDataInfo :=
      mem_taken.2 ⟨hm, by simp [hne, hu, hreg]⟩
    have hin := (mem_routing hrouting).2 ⟨m, ht⟩
    constructor
    · obtain ⟨m', -, ⟨hr, -⟩ | ⟨he, -⟩⟩ := h.unaddressed u hin hu
      · by_contra hreal
        exact h.disjoint (mem_destination.2 ⟨m, ht, Nat.pos_of_ne_zero hreal⟩) hr
      · exact absurd he hne
    · obtain ⟨m', hm', hv⟩ := h.compatible u hin
      rw [Option.some.inj (hm.symm.trans hm')]
      exact hv

theorem addressed_exactlyOne (hrouting : aDataInfo.routing.uuids = [])
    (h : Fillable aRoute aDataInfo) {u : Uuid} (hu : u ∈ aDataInfo.destination) :
    ExactlyOne (u ∈ (sortReceivers (filledInfo aRoute aDataInfo)).routing.uuids)
      (Reported (newFails aRoute aDataInfo) eProtocolVersionIsNotCompatible u)
      (Reported (newFails aRoute aDataInfo) eHandlerIsNotExist u) := by
  rw [mem_routing hrouting, reported_refused, reported_notExpected, mem_notExpected]
  cases hm : aRoute.receivers.find u with
  | none =>
    have hkey : u ∉ aRoute.receivers.keys := fun hk => by
      obtain ⟨m, hm'⟩ := (SortedMap.mem_keys_iff _ _).1 hk
      simp [hm] at hm'
    exact .inr (.inr ⟨fun ⟨m, ht⟩ => by simp [mem_taken, hm] at ht,
      fun ⟨m, ht⟩ => by simp [mem_refused, hm] at ht, hu, fun hk => absurd hk hkey⟩)
  | some m =>
    have hkey := (SortedMap.mem_keys_iff _ _).2 ⟨m, hm⟩
    have honce := h.once u hu hkey
    have hnot : ¬ (u ∈ aDataInfo.destination ∧
        (u ∈ aRoute.receivers.keys → 2 ≤ aDataInfo.destination.count u)) := fun ⟨_, hk⟩ => by
      have := hk hkey
      omega
    have hsame : ∀ m', aRoute.receivers.find u = some m' → m' = m := fun m' hm' =>
      Option.some.inj (hm'.symm.trans hm)
    cases hv : checkVersion m.version aDataInfo with
    | true =>
      refine .inl ⟨⟨m, (taken_of_addressed hu hm).2 hv⟩, fun ⟨m', ht⟩ => ?_, hnot⟩
      obtain ⟨hm', -, hv'⟩ := mem_refused.1 ht
      rw [hsame m' hm', hv] at hv'
      cases hv'
    | false =>
      refine .inr (.inl ⟨fun ⟨m', ht⟩ => ?_, ⟨m, (refused_of_addressed hu hm).2 hv⟩, hnot⟩)
      have hm' := (mem_taken.1 ht).1
      rw [hsame m' hm', taken_of_addressed hu hm, hv] at ht
      cases ht

/-- Whoever the message goes to takes its version. -/
theorem taken_compatible (h : Fillable aRoute aDataInfo) {u : Uuid} {m : MsgHandlers}
    (ht : (u, m) ∈ takenReceivers aRoute aDataInfo) : checkVersion m.version aDataInfo := by
  obtain ⟨hm, hif⟩ := mem_taken.1 ht
  split_ifs at hif with hc
  · exact hif
  · obtain ⟨hne, hu⟩ := not_or.1 hc
    exact (h.registrars hne u m hm hu hif).2

theorem filledWell_of_fillable (hrouting : aDataInfo.routing.uuids = [])
    (hregistrators : aDataInfo.registrators = []) (h : Fillable aRoute aDataInfo) :
    FilledWell aRoute aDataInfo
      (!(sortReceivers (filledInfo aRoute aDataInfo)).routing.uuids.isEmpty)
      (sortReceivers (filledInfo aRoute aDataInfo)) (newFails aRoute aDataInfo) where
  destination_sorted := sortUuids_sorted _
  registrators_sorted := sortUuids_sorted _
  routing_sorted := sortUuids_sorted _
  union := by
    refine (sortUuids_perm _).trans (List.Perm.trans ?_
      ((sortUuids_perm _).append (sortUuids_perm _)).symm)
    simp only [filledInfo, addAll, setRouting, hrouting, hregistrators, List.nil_append,
      ← List.map_append]
    simpa only [decide_not] using
      (List.filter_append_perm (fun p => decide (0 < p.2.real))
        (takenReceivers aRoute aDataInfo)).symm.map Prod.fst
  disjoint := fun u hd hr => by
    obtain ⟨m, ht, hreal⟩ := mem_destination.1 hd
    obtain ⟨m', ht', hreal'⟩ := (mem_registrators hregistrators).1 hr
    have hsame := Option.some.inj ((mem_taken.1 ht).1.symm.trans (mem_taken.1 ht').1)
    subst hsame
    omega
  real := fun u hu => by
    obtain ⟨m, ht, hreal⟩ := mem_destination.1 hu
    exact ⟨m, (mem_taken.1 ht).1, hreal⟩
  addressed := fun u hu => addressed_exactlyOne hrouting h hu
  unaddressed := fun u hu hnot => by
    obtain ⟨m, ht⟩ := (mem_routing hrouting).1 hu
    have hm := (mem_taken.1 ht).1
    by_cases he : aDataInfo.destination = []
    · exact ⟨m, hm, .inr ⟨he, taken_compatible h ht⟩⟩
    · have hreg : m.isRegistrarExist := by simpa [he, hnot] using (mem_taken.1 ht).2
      have hreal := (h.registrars he u m hm hnot hreg).1
      exact ⟨m, hm, .inl ⟨(mem_registrators hregistrators).2 ⟨m, ht, hreal⟩, hreg⟩⟩
  compatible := fun u hu => by
    obtain ⟨m, ht⟩ := (mem_routing hrouting).1 hu
    exact ⟨m, (mem_taken.1 ht).1, taken_compatible h ht⟩
  result := by simp

end

/-- The receivers of a message are filled in as they should be exactly when none of them is
    addressed twice, and no registrar joins that has real handlers too or another version. -/
theorem fillRouteAndDestanationInfo_filledWell_iff (aRoute : ReceiversOfMsg)
    (aDataInfo : UserDataInfo) (aErrors : List FailSend)
    (hrouting : aDataInfo.routing.uuids = []) (hregistrators : aDataInfo.registrators = []) :
    (∃ result info reports, fillRouteAndDestanationInfo aRoute aDataInfo aErrors =
      (result, info, aErrors ++ reports) ∧ FilledWell aRoute aDataInfo result info reports) ↔
      Fillable aRoute aDataInfo := by
  have hfails := fails_eq ⟨filledInfo aRoute aDataInfo, notExpected aRoute aDataInfo,
    (refusedReceivers aRoute aDataInfo).map Prod.fst⟩ aErrors
  constructor
  · rintro ⟨result, info, reports, heq, h⟩
    rw [fillRouteAndDestanationInfo_eq, hfails, Prod.mk.injEq, Prod.mk.injEq] at heq
    obtain ⟨-, rfl, hreports⟩ := heq
    rw [← List.append_cancel_left hreports] at h
    exact fillable_of_filledWell hrouting h
  · intro h
    refine ⟨_, _, _, ?_, filledWell_of_fillable hrouting hregistrators h⟩
    rw [fillRouteAndDestanationInfo_eq, hfails]
    rfl

/-- A program that handles a message of version 1.2. -/
def realHandlers : MsgHandlers := ⟨[1], [0], ⟨1, 2, 0⟩, 1, rfl, List.pairwise_singleton _ _⟩

/-- One that only registers it. -/
def registrarHandlers : MsgHandlers := ⟨[1], [0], ⟨1, 2, 0⟩, 0, rfl, List.pairwise_singleton _ _⟩

/-- One that handles it and registers it, by two demands. -/
def mixedHandlers : MsgHandlers := ⟨[1, 2], [0, 0], ⟨1, 2, 0⟩, 1, rfl, by simp⟩

def messageTo (aDestination : List Uuid) : UserDataInfo :=
  ⟨1, [], 0, [], aDestination, [], ⟨⟨3, []⟩, []⟩, .default, shareEndian, ⟨⟨1, 2, 0⟩, []⟩⟩

def oneRegistrar : ReceiversOfMsg :=
  ⟨(SortedMap.empty.insert 5 realHandlers).insert 7 registrarHandlers, 1⟩

def oneMixed : ReceiversOfMsg :=
  ⟨(SortedMap.empty.insert 5 realHandlers).insert 7 mixedHandlers, 2⟩

/-- A message to a receiver and to a stranger, with a registrar that is not addressed. -/
theorem filledWell_addressed : ∃ result info reports,
    fillRouteAndDestanationInfo oneRegistrar (messageTo [9, 5]) [] =
      (result, info, [] ++ reports) ∧
    FilledWell oneRegistrar (messageTo [9, 5]) result info reports :=
  (fillRouteAndDestanationInfo_filledWell_iff oneRegistrar (messageTo [9, 5]) [] rfl rfl).2
    ⟨by decide, fun _ u m hm hu _ => by
      rw [oneRegistrar, SortedMap.find_insert, SortedMap.find_insert] at hm
      split_ifs at hm with h₇ h₅
      · obtain rfl := Option.some.inj hm
        exact ⟨rfl, by decide⟩
      · exact absurd (h₅ ▸ (by decide : 5 ∈ (messageTo [9, 5]).destination)) hu
      · simp at hm⟩

/-- A registrar with a real handler of its own gets a message to another as a destination. -/
theorem filledWell_false_of_mixed : 0 < oneMixed.numberOfReal ∧
    fillRouteAndDestanationInfo oneMixed (messageTo [5]) [] =
      (true, setRouting (messageTo [5, 7]) [5, 7], []) ∧
    ¬ FilledWell oneMixed (messageTo [5]) true (setRouting (messageTo [5, 7]) [5, 7]) [] := by
  refine ⟨by decide, by decide, fun h => ?_⟩
  obtain ⟨m, -, ⟨hr, -⟩ | ⟨he, -⟩⟩ := h.unaddressed 7 (by decide) (by decide)
  · exact absurd hr (by decide)
  · exact absurd he (by decide)

end UdtKernel.RequiredDG
