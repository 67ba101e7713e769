import UdtKernel.RequiredDG.Priorities
import UdtKernel.RequiredDG.Run

set_option autoImplicit false

/-! When a client leaves, every registration with it is undone once. -/

namespace UdtKernel.RequiredDG
open UdtKernel.Lib UdtKernel.Address

/-- A handler of a receiver is registered for a message of a sender. -/
structure Registration where
  sender : Uuid
  receiver : Uuid
  handler : ℕ
  msg : Msg
  deriving DecidableEq

/-- The registrations that undoing some ways takes away, one after the other. -/
def undoneBy (swap : SwapHeader) (g : Genealogy) (ws : List WayInfo) : List Registration :=
  ws.flatMap fun w => (msgsOf swap g w.what).map fun m => ⟨w.from_, w.for_, w.what.handler, m⟩

/-- The ways to a client for its own demands, which `removeAllSendersOfMsgsFor` undoes. -/
def ownWays (dg : RequiredDG) (aUuid : Uuid) : Except Abort (List WayInfo) := do
  let ways ← (dg.getDemandFor aUuid).mapM fun d => do
    let uuids ← sendersFor dg.ids d
    return waysTo aUuid d uuids
  return ways.flatten

/-- What `removeClient` undoes: first the ways to the client, then, in the table that this has
    led to, those from it. -/
def undoneWays (swap : SwapHeader) (aId : Id) (dg : RequiredDG) :
    Except Abort (List WayInfo × Patch × List WayInfo) := do
  let own ← ownWays dg aId.uuid
  let s ← removeAllSendersOfMsgsFor swap aId.uuid ⟨dg, .empty, .empty⟩
  let sent ← getDistance aId (s.dg.getWhatMsgSentFrom aId.uuid)
  let (_, removed, dg) ← takeIntoAccountOnlyNearestSendersIfNeed aId.uuid [] sent s.dg
  return (own, { s with dg := dg }, removed)

/-- Every registration that undoing some ways takes away is there when it is its turn. -/
def EachSent (swap : SwapHeader) : List WayInfo → Patch → Prop
  | [], _ => True
  | w :: ws, s =>
    (∀ m ∈ msgsOf swap s.dg.msgsGenealogy w.what, Listed s.dg w.from_ m w.for_ w.what.handler) ∧
      ∀ s', unSendPacketFromTo swap w.from_ w.for_ w.what s = .ok s' → EachSent swap ws s'

variable {swap : SwapHeader}

/-- The demands that are recorded, and the distances, are changed. -/
def Patch.recording (s : Patch) (f : DemandDgsFor → DemandDgsFor)
    (g : SortedMap (Uuid ×ₗ ℕ) ℕ → SortedMap (Uuid ×ₗ ℕ) ℕ) : Patch :=
  { s with dg := { s.dg with dgs := f s.dg.dgs, nearestInfo := g s.dg.nearestInfo } }

section Recording

variable (f : DemandDgsFor → DemandDgsFor) (g : SortedMap (Uuid ×ₗ ℕ) ℕ → SortedMap (Uuid ×ₗ ℕ) ℕ)

theorem unRegistering_recording (d : DemandDg) (u r : Uuid) (s : Patch) :
    unRegisteringReceiverForMsg d u r (s.recording f g) =
      (unRegisteringReceiverForMsg d u r s).map (·.recording f g) := by
  unfold unRegisteringReceiverForMsg
  have hexpected : (s.recording f g).dg.expectedFor u d.protocol =
      s.dg.expectedFor u d.protocol := rfl
  rw [hexpected]
  dsimp only
  cases (s.dg.expectedFor u d.protocol).find d.what.messageHeader with
  | none => rfl
  | some x =>
    dsimp only
    cases x.receivers.find r with
    | none => rfl
    | some c =>
      dsimp only
      cases c.removeHandler d with
      | error e => rfl
      | ok p => rfl

theorem unSend_recording (u r : Uuid) (d : DemandDg) (s : Patch) :
    unSendPacketFromTo swap u r d (s.recording f g) =
      (unSendPacketFromTo swap u r d s).map (·.recording f g) := by
  rw [unSendPacketFromTo_eq, unSendPacketFromTo_eq]
  exact foldlM_of_comm (g := (Patch.recording · f g))
    (fun s e => unRegistering_recording f g e u r s) _ (touch s u d.protocol)

end Recording

def undoWays (swap : SwapHeader) (ws : List WayInfo) (s : Patch) : Except Abort Patch :=
  ws.foldlM (fun s w => unSendPacketFromTo swap w.from_ w.for_ w.what s) s

/-- The distances recorded for the demands of a receiver are forgotten. -/
def forget (r : Uuid) (ds : List DemandDg) (m : SortedMap (Uuid ×ₗ ℕ) ℕ) :
    SortedMap (Uuid ×ₗ ℕ) ℕ :=
  (ds.filter (·.flags.nearest)).foldl (fun m d => m.erase (toLex (r, d.handler))) m

theorem undoWays_recording (swap : SwapHeader) (f : DemandDgsFor → DemandDgsFor)
    (g : SortedMap (Uuid ×ₗ ℕ) ℕ → SortedMap (Uuid ×ₗ ℕ) ℕ) (ws : List WayInfo) (s : Patch) :
    undoWays swap ws (s.recording f g) = (undoWays swap ws s).map (·.recording f g) :=
  foldlM_of_comm (g := (Patch.recording · f g))
    (fun s w => unSend_recording f g w.from_ w.for_ w.what s) ws s

theorem undoWays_append (ws ws' : List WayInfo) (s : Patch) :
    undoWays swap (ws ++ ws') s = (undoWays swap ws s >>= undoWays swap ws') :=
  List.foldlM_append ..

theorem unSend_ids (u r : Uuid) (d : DemandDg) (s : Patch) :
    Outcome (fun _ => True) (fun s' => s'.dg.ids = s.dg.ids) (unSendPacketFromTo swap u r d s) := by
  rw [unSendPacketFromTo_eq]
  refine Outcome.foldlM (P := fun s' : Patch => s'.dg.ids = s.dg.ids) rfl fun s₁ hs₁ e _ => ?_
  unfold unRegisteringReceiverForMsg
  dsimp only
  split
  · exact hs₁
  · split
    · exact hs₁
    · exact (Outcome.trivial _).bind fun _ _ => hs₁

theorem undoWays_ids (swap : SwapHeader) (ws : List WayInfo) (s : Patch) :
    Outcome (fun _ => True) (fun s' => s'.dg.ids = s.dg.ids) (undoWays swap ws s) :=
  Outcome.foldlM (P := fun s' : Patch => s'.dg.ids = s.dg.ids) rfl fun s₁ hs₁ w _ =>
    (unSend_ids w.from_ w.for_ w.what s₁).mono fun _ hs₂ => hs₂.trans hs₁

theorem removeSendersOf_eq {r : Uuid} {d : DemandDg} {s : Patch} {uuids : SortedMap Uuid ℕ}
    (h : sendersFor s.dg.ids d = .ok uuids) : removeSendersOf swap r s d =
      (undoWays swap (waysTo r d uuids) s).map (·.recording id (forget r [d])) := by
  have hways : undoWays swap (waysTo r d uuids) s =
      uuids.keys.foldlM (fun s u => unSendPacketFromTo swap u r d s) s := by
    unfold undoWays waysTo waysFor
    rw [List.foldlM_map]
  rw [hways, ← foldlM_of_comm (g := (Patch.recording · id (forget r [d])))
    fun s u => unSend_recording id (forget r [d]) u r d s]
  unfold removeSendersOf
  rw [h]
  change uuids.keys.foldlM _ _ = _
  congr 1
  unfold forget Patch.recording
  cases hnearest : d.flags.nearest <;> simp [hnearest, eraseNearest]

/-- Giving demands up undoes the ways for them and forgets their distances. -/
theorem removeSendersOfMsgFor_eq {r : Uuid} {ds : List DemandDg} {s : Patch}
    {ways : List (List WayInfo)}
    (h : (ds.mapM fun d => do
      let uuids ← sendersFor s.dg.ids d
      return waysTo r d uuids) = .ok ways) :
    removeSendersOfMsgFor swap r ds s =
      (undoWays swap ways.flatten s).map (·.recording id (forget r ds)) := by
  induction ds generalizing s ways with
  | nil =>
    cases h
    rfl
  | cons d ds ih =>
    rw [List.mapM_cons] at h
    obtain ⟨first, hfirst, h⟩ := eq_ok_of_bind h
    obtain ⟨rest, hrest, h⟩ := eq_ok_of_bind h
    obtain ⟨uuids, huuids, hways⟩ := eq_ok_of_bind hfirst
    cases h
    cases hways
    rw [List.flatten_cons, undoWays_append]
    change (removeSendersOf swap r s d >>= fun s => removeSendersOfMsgFor swap r ds s) = _
    rw [removeSendersOf_eq huuids]
    have hids := undoWays_ids swap (waysTo r d uuids) s
    cases hundo : undoWays swap (waysTo r d uuids) s with
    | error e => rfl
    | ok s₁ =>
      rw [hundo] at hids
      change removeSendersOfMsgFor swap r ds (s₁.recording id (forget r [d])) =
        (undoWays swap rest.flatten s₁).map _
      have hsame : (s₁.recording id (forget r [d])).dg.ids = s.dg.ids := hids
      rw [ih (hsame ▸ hrest), undoWays_recording]
      cases undoWays swap rest.flatten s₁ with
      | error e => rfl
      | ok s₂ =>
        change Except.ok ((s₂.recording id (forget r [d])).recording id (forget r ds)) = _
        congr 1
        unfold Patch.recording forget
        cases hnearest : d.flags.nearest <;> simp [hnearest]

theorem removeAllSendersOfMsgsFor_eq (swap : SwapHeader) {dg : RequiredDG} {r : Uuid}
    {own : List WayInfo} (h : ownWays dg r = .ok own) :
    removeAllSendersOfMsgsFor swap r ⟨dg, .empty, .empty⟩ =
      (undoWays swap own ⟨dg, .empty, .empty⟩).map
        (·.recording (·.erase r) (forget r (dg.getDemandFor r))) := by
  obtain ⟨ways, hways, hown⟩ := eq_ok_of_bind h
  cases hown
  unfold removeAllSendersOfMsgsFor
  dsimp only
  cases hfind : dg.dgs.find r with
  | none =>
    have hnone : dg.getDemandFor r = [] := by
      unfold getDemandFor
      rw [hfind]
      rfl
    rw [hnone] at hways ⊢
    cases hways
    have hdgs : dg.dgs.erase r = dg.dgs := SortedMap.erase_of_find_none hfind
    change _ = Except.ok (⟨{ dg with dgs := dg.dgs.erase r }, .empty, .empty⟩ : Patch)
    rw [hdgs]
  | some ds =>
    have hsome : dg.getDemandFor r = ds := by
      unfold getDemandFor
      rw [hfind]
      rfl
    rw [hsome] at hways ⊢
    let start : Patch := ⟨dg, .empty, .empty⟩
    change removeSendersOfMsgFor swap r ds (start.recording (·.erase r) id) = _
    rw [removeSendersOfMsgFor_eq (s := start.recording (·.erase r) id) hways,
      undoWays_recording swap (·.erase r) id]
    cases undoWays swap ways.flatten start <;> rfl

def Patch.without (s : Patch) (u : Uuid) : Patch :=
  { s with dg := { s.dg with
    whatIsSendingBy := s.dg.whatIsSendingBy.erase u
    ids := s.dg.ids.erase u } }

/-- Removing a client undoes the ways to it, and then those from it; with these gone, others may
    send in its place. -/
theorem removeClient_eq_undoWays {aId : Id} {dg : RequiredDG} {own sent : List WayInfo} {s : Patch}
    (hfind : dg.ids.find aId.uuid = some aId.name) (hvalid : isValidId aId = true)
    (h : undoneWays swap aId dg = .ok (own, s, sent)) :
    (∃ nearest, (undoWays swap own ⟨dg, .empty, .empty⟩).map
      (·.recording (·.erase aId.uuid) nearest) = .ok s) ∧
    ∃ added : List WayInfo, removeClient swap aId.uuid dg =
      (undoWays swap sent s).map fun s => (added.foldl (fun s w =>
        sendPacketFromTo swap w.from_ w.for_ w.what s) s).without aId.uuid := by
  obtain ⟨own', hown, h⟩ := eq_ok_of_bind h
  obtain ⟨s₁, hs₁, h⟩ := eq_ok_of_bind h
  obtain ⟨sent', hsent, h⟩ := eq_ok_of_bind h
  obtain ⟨⟨added, removed, dg₂⟩, htake, h⟩ := eq_ok_of_bind h
  cases h
  have hrec : Recorded s₁.dg dg₂ := by
    have hadd := addSenderIfNeed_from aId.uuid sent' s₁.dg
    change (addSenderIfNeed aId.uuid sent' s₁.dg >>= _) = _ at htake
    obtain ⟨⟨newAdded, dg'⟩, hadded, hpure⟩ := eq_ok_of_bind htake
    rw [hadded] at hadd
    cases hpure
    exact hadd.2
  refine ⟨?_, added, ?_⟩
  · have hall := removeAllSendersOfMsgsFor_eq swap hown
    rw [hs₁] at hall
    cases hundo : undoWays swap own ⟨dg, .empty, .empty⟩ with
    | error e =>
      rw [hundo] at hall
      cases hall
    | ok s₀ =>
      rw [hundo] at hall
      have hs₀ : s₁ = s₀.recording (·.erase aId.uuid)
        (forget aId.uuid (dg.getDemandFor aId.uuid)) := Except.ok.inj hall
      refine ⟨fun _ => dg₂.nearestInfo, congrArg Except.ok ?_⟩
      rw [hrec.eq, hs₀]
      rfl
  · unfold removeClient
    rw [hfind]
    dsimp only
    rw [if_pos hvalid, hs₁]
    change (removeAllReceiversForMsgsFrom swap aId s₁ >>= _) = _
    rw [removeAllReceiversForMsgsFrom_eq, hsent]
    change ((takeIntoAccountOnlyNearestSendersIfNeed aId.uuid [] sent' s₁.dg >>= _) >>= _) = _
    rw [htake]
    change (((undoWays swap sent { s₁ with dg := dg₂ } >>= _) >>= _) >>= _) = _
    cases undoWays swap sent { s₁ with dg := dg₂ } <;> rfl

theorem CellsOk.listed {dg : RequiredDG} {G : Regs} (h : CellsOk swap dg G) {s r : Uuid}
    {d : DemandDg} (hd : G s r (plain d)) {m : Msg} (hm : m ∈ msgsOf swap dg.msgsGenealogy d) :
    Listed dg s m r d.handler := by
  obtain ⟨ds, -, hmem, hok⟩ := h s m r
  have hpd : plain d ∈ ds := (hmem _).2 ⟨hd, by rwa [msgsOf_plain]⟩
  cases hc : dg.cell s m r with
  | none =>
    rw [hc] at hok
    change ds = [] at hok
    rw [hok] at hpd
    cases hpd
  | some c =>
    rw [hc] at hok
    exact ⟨c, hc, hok.2.1.symm.subset (List.mem_map.2 ⟨plain d, hpd, rfl⟩)⟩

/-- Ways that are sent by and all different are there when they are undone. -/
theorem eachSent_of_different {G : Regs} (ws : List WayInfo) {s : Patch}
    (h : CellsOk swap s.dg G) (hin : ∀ w ∈ ws, G w.from_ w.for_ (plain w.what))
    (hpair : ws.Pairwise fun w w' => ¬ SameWay w w') : EachSent swap ws s := by
  induction ws generalizing s G with
  | nil => trivial
  | cons w ws ih =>
    obtain ⟨hw, hws⟩ := List.pairwise_cons.1 hpair
    refine ⟨fun m hm => h.listed (hin w List.mem_cons_self) hm, fun s₁ hs₁ => ?_⟩
    obtain ⟨s', hs', -, hcells, -⟩ := unSendPacketFromTo_spec h (hin w List.mem_cons_self)
    obtain rfl := Except.ok.inj (hs'.symm.trans hs₁)
    refine ih hcells (fun x hx => ⟨hin x (List.mem_cons_of_mem _ hx), fun heq => ?_⟩) hws
    exact hw x hx ⟨heq.1.symm, heq.2.1.symm, heq.2.2.symm⟩

theorem ownWays_spec {dg : RequiredDG} (hk : Kept swap dg) (u : Uuid) :
    ∃ own, ownWays dg u = .ok own ∧
      (∀ w, w ∈ own ↔ w.for_ = u ∧ w.what ∈ dg.getDemandFor u ∧
        Selected dg.ids w.what w.from_ ∧ w.distance = 0) ∧
      own.Pairwise fun w w' => ¬ (w.from_ = w'.from_ ∧ w.what.handler = w'.what.handler) := by
  have hsenders : ∀ d : DemandDg, ∃ m, d ∈ dg.getDemandFor u → sendersFor dg.ids d = .ok m ∧
      ∀ v n, m.find v = some n ↔ Selected dg.ids d v ∧ n = depthOf dg.ids d v := fun d => by
    by_cases hd : d ∈ dg.getDemandFor u
    · obtain ⟨m, hm⟩ := sendersFor_spec (hk.conformable u d hd)
      exact ⟨m, fun _ => hm⟩
    · exact ⟨.empty, fun h => absurd h hd⟩
  choose senders hfind using hsenders
  have hmap : ((dg.getDemandFor u).mapM fun d => do
      let uuids ← sendersFor dg.ids d
      return waysTo u d uuids : Except Abort _) =
      .ok ((dg.getDemandFor u).map fun d => waysTo u d (senders d)) := by
    refine mapM_ok fun d hd => ?_
    rw [(hfind d hd).1]
    rfl
  refine ⟨(dg.getDemandFor u).flatMap fun d => waysTo u d (senders d), ?_, fun w => ?_, ?_⟩
  · rw [ownWays, hmap]
    rfl
  · rw [List.mem_flatMap]
    constructor
    · rintro ⟨d, hd, hw⟩
      obtain ⟨hsel, hf, hwhat, hdist⟩ := (waysTo_spec (hfind d hd).2 w).1 hw
      exact ⟨hf, hwhat ▸ hd, hwhat ▸ hsel, hdist⟩
    · rintro ⟨hf, hd, hsel, hdist⟩
      exact ⟨w.what, hd, (waysTo_spec (hfind _ hd).2 w).2 ⟨hsel, hf, rfl, hdist⟩⟩
  · refine List.pairwise_flatMap.2 ⟨fun d _ => ?_, ?_⟩
    · exact (waysFor_pairwise _ _ _).imp fun hne hh => hne hh.1
    · refine (List.pairwise_map.1 (hk.lists u).handlers).imp_of_mem ?_
      intro d d' hd hd' hne w hw w' hw' hh
      rw [((waysTo_spec (hfind d hd).2 w).1 hw).2.2.1,
        ((waysTo_spec (hfind d' hd').2 w').1 hw').2.2.1] at hh
      exact hne hh.2

theorem mem_undoneBy {g : Genealogy} {ws : List WayInfo} {x : Registration} :
    x ∈ undoneBy swap g ws ↔ ∃ w ∈ ws, w.from_ = x.sender ∧ w.for_ = x.receiver ∧
      w.what.handler = x.handler ∧ x.msg ∈ msgsOf swap g w.what := by
  simp only [undoneBy, List.mem_flatMap, List.mem_map]
  constructor
  · rintro ⟨w, hw, m, hm, rfl⟩
    exact ⟨w, hw, rfl, rfl, rfl, hm⟩
  · rintro ⟨w, hw, hf, ht, hh, hm⟩
    exact ⟨w, hw, x.msg, hm, by rw [hf, ht, hh]⟩

/-- Different ways undo different registrations. -/
theorem undoneBy_nodup {g : Genealogy} {ws : List WayInfo} (h : ws.Pairwise fun w w' =>
      ¬ (w.from_ = w'.from_ ∧ w.for_ = w'.for_ ∧ w.what.handler = w'.what.handler)) :
    (undoneBy swap g ws).Nodup := by
  refine List.pairwise_flatMap.2 ⟨fun w _ => ?_, h.imp ?_⟩
  · refine (msgsOf_nodup swap g w.what).map fun m m' heq => ?_
    exact congrArg Registration.msg heq
  · intro w w' hne x hx y hy heq
    obtain ⟨m, -, rfl⟩ := List.mem_map.1 hx
    obtain ⟨m', -, rfl⟩ := List.mem_map.1 hy
    injection heq with hf ht hh
    exact hne ⟨hf, ht, hh⟩

/-- The ways from a client, when each demand that it sends for is for one message. -/
theorem sentWays_spec {dg : RequiredDG} (hk : Kept swap dg) {aId : Id}
    (hfind : dg.ids.find aId.uuid = some aId.name)
    (honce : ∀ r, ∀ d ∈ dg.getDemandFor r, Selected dg.ids d aId.uuid →
      (msgsOf swap dg.msgsGenealogy d).length ≤ 1) :
    ∃ sent added dg', getDistance aId (dg.getWhatMsgSentFrom aId.uuid) = .ok sent ∧
      takeIntoAccountOnlyNearestSendersIfNeed aId.uuid [] sent dg = .ok (added, sent, dg') ∧
      Recorded dg dg' ∧ sent.Pairwise (fun w w' => ¬ SameRecord w w') ∧
      ∀ w, w ∈ sent ↔ w.from_ = aId.uuid ∧ w.what ∈ dg.getDemandFor w.for_ ∧
        Selected dg.ids w.what aId.uuid ∧ Live swap dg w.what ∧
        w.distance = depthOf dg.ids w.what aId.uuid := by
  have hpair : (sentBy dg aId).Pairwise fun w w' => ¬ SameRecord w w' :=
    (undo_pairwise hk aId).imp_of_mem fun {w w'} hw _ hlen hsame => by
      obtain ⟨-, hd, hsel, -, -⟩ := (mem_undo hk hfind).1 hw
      have := honce _ _ hd hsel
      have := hlen hsame
      omega
  obtain ⟨dg', hdg', hrec, -⟩ := @addSenderIfNeed_spec aId.uuid (sentBy dg aId) dg
    (fun w hw => conformable_sentBy hk hfind hw) (fun w hw => nearest_sentBy hk hfind hw)
    (hpair.imp fun hnot hsame => absurd hsame hnot)
  refine ⟨sentBy dg aId, (sentBy dg aId).flatMap (promoted dg.ids aId.uuid), dg',
    getDistance_sentBy hk hfind, ?_, hrec, hpair, fun w => mem_undo hk hfind⟩
  · simp only [takeIntoAccountOnlyNearestSendersIfNeed, removeSenderIfNeed, hdg', bind,
      Except.bind, pure, Except.pure, List.append_nil, List.nil_append]

/-- When a client is undone without anything coming twice: each demand of another receiver that
    it sends for is for one message. -/
def OnceOk (swap : SwapHeader) (dg : RequiredDG) (aUuid : Uuid) : Prop :=
  ∀ e ∈ demandsOf dg.dgs, e.1 ≠ aUuid → Selected dg.ids e.2 aUuid →
    (msgsOf swap dg.msgsGenealogy e.2).length ≤ 1

instance (swap : SwapHeader) (dg : RequiredDG) (u : Uuid) : Decidable (OnceOk swap dg u) :=
  inferInstanceAs (Decidable (∀ e ∈ demandsOf dg.dgs, _))

/-- Removing a client takes each of its registrations away once, finds every one of them, does
    not abort, and leaves what is computed from the other identifiers. -/
theorem runOps_removeClient_once (swap : SwapHeader) (g : Genealogy) (ops : List Op)
    (dg : RequiredDG) (h : EveryStep swap (StepOk swap) ops (start g))
    (hrun : runOps swap ops (start g) = .ok dg) (aId : Id)
    (hfind : dg.ids.find aId.uuid = some aId.name) (hvalid : isValidId aId = true)
    (honce : OnceOk swap dg aId.uuid) :
    ∃ own s sent s', undoneWays swap aId dg = .ok (own, s, sent) ∧
      EachSent swap own ⟨dg, .empty, .empty⟩ ∧ EachSent swap sent s ∧
      (∀ r k m, Listed dg aId.uuid m r k →
        (undoneBy swap dg.msgsGenealogy (own ++ sent)).count ⟨aId.uuid, r, k, m⟩ = 1) ∧
      removeClient swap aId.uuid dg = .ok s' ∧ s'.dg.ids = dg.ids.erase aId.uuid ∧
      Recomputed swap s'.dg := by
  obtain ⟨dg', hdg', hk, -⟩ := runOps_spec (kept_start g) h
  obtain rfl := Except.ok.inj (hrun.symm.trans hdg')
  have honce' : ∀ r, r ≠ aId.uuid → ∀ d ∈ dg.getDemandFor r, Selected dg.ids d aId.uuid →
      (msgsOf swap dg.msgsGenealogy d).length ≤ 1 := fun r hr d hd hsel =>
    honce (r, d) (mem_demandsOf.2 hd) hr hsel
  obtain ⟨own, hown, hmemOwn, hpairOwn⟩ := ownWays_spec hk aId.uuid
  obtain ⟨s₁, hs₁, hk₁, hids₁, hgen₁, hdemand₁, -⟩ :=
    removeAllSendersOfMsgsFor_spec (s := ⟨dg, .empty, .empty⟩) hk aId.uuid
  have hother : ∀ r d, d ∈ s₁.dg.getDemandFor r ↔ r ≠ aId.uuid ∧ d ∈ dg.getDemandFor r :=
    fun r d => by
      rw [hdemand₁]
      split_ifs with hr <;> simp [hr]
  obtain ⟨sent, added, dg₂, hsent, htake, hrec, hpairSent, hmemSent⟩ := sentWays_spec hk₁
    (by rw [hids₁]; exact hfind) fun r d hd hsel => by
      rw [hids₁] at hsel
      rw [hgen₁]
      exact honce' r ((hother r d).1 hd).1 d ((hother r d).1 hd).2 hsel
  simp only [hother, hids₁, Live, hgen₁] at hmemSent
  obtain ⟨s', hs', hks', -, hids', -⟩ := removeClient_spec (u := aId.uuid) hk
    fun r hr d hd hsel hlen => absurd (honce' r hr d hd hsel) (not_le.2 hlen)
  refine ⟨own, { s₁ with dg := dg₂ }, sent, s', ?_, ?_, ?_, fun r k m hlisted => ?_, hs', ?_,
    hks'.recomputed⟩
  · unfold undoneWays
    simp only [hown, hs₁, hsent, htake, bind, Except.bind, pure, Except.pure]
  · refine eachSent_of_different own hk.cells (fun w hw => ?_) (hpairOwn.imp fun hne hsame => ?_)
    · obtain ⟨hf, hd, hsel, -⟩ := (hmemOwn w).1 hw
      exact ⟨w.what, hf ▸ hd, rfl, hsel⟩
    · exact hne ⟨hsame.1, plain_handler hsame.2.2⟩
  · refine eachSent_of_different sent (hrec.cellsOk hk₁.cells) (fun w hw => ?_)
      (hpairSent.imp fun hne hsame => ?_)
    · obtain ⟨hf, ⟨hr, hd⟩, hsel, -⟩ := (hmemSent w).1 hw
      refine ⟨w.what, (hother _ _).2 ⟨hr, hd⟩, rfl, ?_⟩
      rw [hids₁, hf]
      exact hsel
    · exact hne ⟨hsame.2.1, plain_handler hsame.2.2⟩
  · refine List.count_eq_one_of_mem (undoneBy_nodup (List.pairwise_append.2
      ⟨hpairOwn.imp fun hne hh => hne ⟨hh.1, hh.2.2⟩, hpairSent.imp fun hne hh => hne hh.2,
        fun w hw w' hw' hh => ?_⟩)) (mem_undoneBy.2 ?_)
    · -- the receivers of the two parts are different
      exact ((hmemSent w').1 hw').2.1.1 (hh.2.1 ▸ ((hmemOwn w).1 hw).1)
    · obtain ⟨d, hd, hdk, hsel, hm⟩ := (hk.recomputed _ _ _ _).1 hlisted
      by_cases hr : r = aId.uuid
      · refine ⟨⟨aId.uuid, aId.uuid, d, 0⟩, List.mem_append_left _ ((hmemOwn _).2
          ⟨rfl, hr ▸ hd, hsel, rfl⟩), rfl, hr.symm, hdk, hm⟩
      · refine ⟨⟨aId.uuid, r, d, depthOf dg.ids d aId.uuid⟩, List.mem_append_right _
          ((hmemSent _).2 ⟨rfl, ⟨hr, hd⟩, hsel, List.ne_nil_of_mem hm, rfl⟩), rfl, rfl, hdk, hm⟩
  · rcases hids' with ⟨-, hinvalid⟩ | ⟨heq, -⟩
    · rw [hinvalid _ hfind] at hvalid
      cases hvalid
    · exact heq

theorem runOps_removeClient_once_replace :
    ∃ own s sent s', undoneWays noSwap ⟨3, ['s', '@', 'a', '.', 'b']⟩
        (tableOf noSwap .empty replaceOps) = .ok (own, s, sent) ∧
      EachSent noSwap own ⟨tableOf noSwap .empty replaceOps, .empty, .empty⟩ ∧
      EachSent noSwap sent s ∧
      (∀ r k m, Listed (tableOf noSwap .empty replaceOps) 3 m r k →
        (undoneBy noSwap (tableOf noSwap .empty replaceOps).msgsGenealogy (own ++ sent)).count
          ⟨3, r, k, m⟩ = 1) ∧
      removeClient noSwap 3 (tableOf noSwap .empty replaceOps) = .ok s' ∧
      s'.dg.ids = (tableOf noSwap .empty replaceOps).ids.erase 3 ∧ Recomputed noSwap s'.dg :=
  runOps_removeClient_once noSwap .empty replaceOps _ (by decide) rfl
    ⟨3, ['s', '@', 'a', '.', 'b']⟩ (by decide) (by decide) (by decide)

/-- The messages with the header `[1]` have those with the header `[2]` as heirs. -/
def family : Genealogy where
  tree := SortedMap.empty.insert ⟨['p']⟩ (SortedMap.empty.insert [1]
    ⟨⟨0, 0, 0⟩, [], [⟨['p'], ⟨⟨0, 0, 0⟩, [2]⟩, 0⟩]⟩)
  unique := by
    intro p m h f hp hh
    rw [SortedMap.find_insert] at hp
    split_ifs at hp with hpp
    · obtain rfl := Option.some.inj hp
      rw [SortedMap.find_insert] at hh
      split_ifs at hh with hhh
      · obtain rfl := Option.some.inj hh
        rw [Protocol.mk.inj hpp, hhh]
        decide
      · cases hh
    · cases hp

/-- A demand for a message and its heirs comes twice, and takes the place of another one for the
    heirs. -/
def familyOps : List Op :=
  [.addClient ⟨2, ['s']⟩, .setDemandsDGFor 1 [demandOf ['s'] 1 false,
    { demandOf ['s'] 2 false with handlerPriority := 5, what := ⟨⟨0, 0, 0⟩, [2]⟩ }]]

theorem removeClient_aborts_of_family :
    EveryStep noSwap (StepOk noSwap) familyOps (start family) ∧
      ∃ dg, runOps noSwap familyOps (start family) = .ok dg ∧ dg.ids.find 2 = some ['s'] ∧
        removeClient noSwap 2 dg = .error .noHandlerToRemove := by
  refine ⟨by decide, tableOf noSwap family familyOps, rfl, by decide, ?_⟩
  have habort : (removeClient noSwap 2 (tableOf noSwap family familyOps)).map (fun _ => ()) =
      .error .noHandlerToRemove := by
    decide
  cases hrun : removeClient noSwap 2 (tableOf noSwap family familyOps) with
  | error e =>
    rw [hrun] at habort
    exact congrArg _ (Except.error.inj habort)
  | ok s =>
    rw [hrun] at habort
    cases habort

end UdtKernel.RequiredDG
