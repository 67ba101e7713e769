import UdtKernel.RequiredDG.StageShares
import UdtKernel.Routing.FailSends
import UdtKernel.Routing.Lossless

set_option autoImplicit false

/-! What a kernel does with packets that come to it: `CRoutingService::MHandleFrom`, from their
receivers to what is given to `CKernelIo::MSendTo`. -/

namespace UdtKernel.HandleFrom
open UdtKernel.Lib UdtKernel.Distribute UdtKernel.Lossless
open UdtKernel.ReceiverStage (Kernel StageAbort fillMsgReceivers)
open UdtKernel.SwapEndian (Storages Message Swapping extractMsgThatHasToBeSwaped
  swapEndianIfNeed)

/-- What the others tell a kernel: `MNextDestinations`, whether a program is open here, and what
`MSendTo` reports and gives back. -/
structure Surroundings where
  next : Uuid → List Descriptor
  isLocal : Uuid → Bool
  sendTo : List RoutingUserData → List FailSend × List UserData

/-- The lists of `MHandleFrom`, and those that `MSendTo` is called with. -/
structure Handling where
  sent : List (List RoutingUserData)
  hasNotRoute : List UserData
  errors : List FailSend

def classifyMessages : List UserData → List UserData → List UserData →
    List UserData × List UserData
  | [], notRouted, routed => (notRouted, routed)
  | data :: rest, notRouted, routed =>
    if data.dataId.routing.uuids = [] then classifyMessages rest (notRouted ++ [data]) routed
    else classifyMessages rest notRouted (routed ++ [data])

def sendMessages (me : Surroundings) (aFrom : List UserData) (h : Handling) : Handling :=
  let a := distributeMsgByDescriptors me.next aFrom ⟨h.hasNotRoute, [], h.errors⟩
  if a.sendTo = [] then ⟨h.sent, a.hasNotRoute, a.errors⟩
  else
    let (noSent, failed) := me.sendTo a.sendTo
    ⟨h.sent ++ [a.sendTo], a.hasNotRoute ++ failed, a.errors ++ noSent⟩

/-- The packets with their bytes in storages, one for each. -/
def stored (ms : List UserData) : Storages × List Message :=
  (ms.map UserData.data, ms.zipIdx.map fun p => ⟨p.1.dataId, some p.2⟩)

def loaded (s : Storages) (m : Message) : UserData := ⟨m.dataId, SwapEndian.read s m.data⟩

/-- The part of `MHandleFrom` behind the receivers. -/
def sendRouted (me : Surroundings) (swaps : SwapEndian.ParserFactory) (aRoute : List UserData)
    (h : Handling) : Handling :=
  let (storages, ms) := stored aRoute
  let (hasRoute, hasToSwaped) := extractMsgThatHasToBeSwaped me.isLocal ms []
  let h := if hasRoute ≠ [] then sendMessages me (hasRoute.map (loaded storages)) h else h
  if hasToSwaped ≠ [] then
    let st := swapEndianIfNeed swaps storages hasToSwaped [] h.errors
    sendMessages me (st.to_.map (loaded st.storages)) { h with errors := st.errors }
  else h

/-- The part of `MHandleFrom` in front of that: what has no route comes behind its receivers. -/
def findReceivers (parsers : ReceiverStage.ParserFactory) (k : Kernel) (aData : List UserData) :
    Except StageAbort (Kernel × List UserData × List UserData × List FailSend) :=
  let (hasNotRoute, hasRoute) := classifyMessages aData [] []
  if hasNotRoute ≠ [] then fillMsgReceivers parsers k hasNotRoute hasRoute []
  else .ok (k, hasNotRoute, hasRoute, [])

/-- `MHandleFrom`, with what `MNoteFailSend` issues; what has no route is left for others. -/
def handleFrom (me : Surroundings) (parsers : ReceiverStage.ParserFactory)
    (swaps : SwapEndian.ParserFactory) (myId : Id) (k : Kernel) (aData : List UserData) :
    Except StageAbort (Kernel × Handling × List (Routing × FailSend)) := do
  let (k, hasNotRoute, hasRoute, errors) ← findReceivers parsers k aData
  let h := sendRouted me swaps hasRoute ⟨[], hasNotRoute, errors⟩
  .ok (k, h, FailSends.noteFailSends myId h.errors)

def pairs (l : List RoutingUserData) : List (Descriptor × UserData) :=
  l.flatMap fun r => r.data.map fun m => (r.desc, m)

def Handling.copies (h : Handling) : List (Descriptor × UserData) := h.sent.flatMap pairs

def perReceiver (c : Descriptor × UserData) : List (Descriptor × UserData) :=
  c.2.dataId.routing.uuids.map fun u => (c.1, withRouting c.2 [u])

/-- A packet whose byte order is changed, if it can be. -/
def swappedOf (swaps : SwapEndian.ParserFactory) (m : UserData) : Option UserData :=
  if SwapEndian.canSwap swaps m.dataId m.data then
    some ⟨{ m.dataId with
      what := SwapEndian.swappedHeader swaps m.dataId
      endian := shareEndian }, SwapEndian.swappedBytes swaps m.dataId m.data⟩
  else none

def isRouted (m : UserData) : Bool := m.dataId.routing.uuids ≠ []

def outputs (next : Uuid → List Descriptor) (m : UserData) : List (Descriptor × UserData) :=
  m.dataId.routing.uuids.filterMap fun u =>
    (outputDescriptor next u).map fun d => (d, withRouting m [u])

/-- What a receiver of a packet is sent, and where it is given out. -/
def forwardOf (me : Surroundings) (swaps : SwapEndian.ParserFactory) (m : UserData) (u : Uuid) :
    Option (Descriptor × UserData) :=
  (if m.dataId.endian ≠ shareEndian ∧ me.isLocal u then swappedOf swaps m else some m).bind
    fun x => (outputDescriptor me.next u).map fun d => (d, withRouting x [u])

def forwards (me : Surroundings) (swaps : SwapEndian.ParserFactory) (m : UserData) :
    List (Descriptor × UserData) :=
  m.dataId.routing.uuids.filterMap (forwardOf me swaps m)

section Distribution
variable {next : Uuid → List Descriptor}

theorem pairs_cons (r : RoutingUserData) (l : List RoutingUserData) :
    pairs (r :: l) = (r.data.map fun m => (r.desc, m)) ++ pairs l := List.flatMap_cons

/-- Splicing loses nothing and makes nothing. -/
theorem pairs_sortedSplice (what to_ : List RoutingUserData) :
    (pairs (sortedSplice what to_)).Perm (pairs to_ ++ pairs what) := by
  induction what, to_ using sortedSplice.induct with
  | case1 to_ =>
    rw [sortedSplice]
    exact List.Perm.of_eq (List.append_nil _).symm
  | case2 f fs =>
    rw [sortedSplice]
    exact List.Perm.refl _
  | case3 f fs t ts hlt ih =>
    rw [sortedSplice, if_pos hlt, pairs_cons, pairs_cons t ts, List.append_assoc]
    exact ih.append_left _
  | case4 f fs t ts hlt heq ih =>
    rw [sortedSplice, if_neg hlt, if_pos heq, pairs_cons, pairs_cons t ts, pairs_cons f fs,
      List.map_append, ← heq, List.append_assoc, List.append_assoc]
    refine List.Perm.append_left _ ?_
    refine (ih.append_left _).trans ?_
    rw [← List.append_assoc, ← List.append_assoc]
    exact List.perm_append_comm.append_right _
  | case5 f fs t ts hlt hne ih =>
    rw [sortedSplice, if_neg hlt, if_neg hne, pairs_cons, pairs_cons f fs]
    refine (ih.append_left _).trans ?_
    rw [← List.append_assoc, ← List.append_assoc]
    exact List.perm_append_comm.append_right _

theorem pairs_routingMsgToDescriptor (m : UserData) (descr : SortedMap Descriptor Routing) :
    pairs (routingMsgToDescriptor m descr) = descr.entries.map fun e =>
      (e.1, { m with dataId := { m.dataId with routing := e.2 } }) := by
  unfold pairs routingMsgToDescriptor
  rw [List.flatMap_map]
  exact List.map_eq_flatMap.symm

theorem pairs_distributeMsg (a : Distributed) (m : UserData) :
    (pairs (distributeMsg next a m).sendTo).Perm (pairs a.sendTo ++ (shareOf next m).copies) := by
  have hsame (error : ErrorType) (m : UserData) (a : Distributed) :
      (noteError m error a).sendTo = a.sendTo := by
    unfold noteError
    split_ifs <;> rfl
  by_cases hrouted : m.dataId.routing.uuids = []
  · unfold distributeMsg shareOf
    rw [if_neg (not_not.2 hrouted), if_pos hrouted, hsame, List.append_nil]
  by_cases hdescr : (getOutputDescriptors next m.dataId.routing).descr.entries = []
  · unfold distributeMsg shareOf
    dsimp only
    rw [if_pos hrouted, if_neg hrouted, if_neg (not_not.2 hdescr), if_pos hdescr, hsame,
      List.append_nil]
  · have houtput : routingMsgToDescriptor (withRouting m (getOutputDescriptors next
        m.dataId.routing).remains) (getOutputDescriptors next m.dataId.routing).descr ≠ [] := by
      unfold routingMsgToDescriptor
      exact fun hnil => hdescr (List.map_eq_nil_iff.1 hnil)
    unfold distributeMsg shareOf
    dsimp only
    rw [if_pos hrouted, if_neg hrouted, if_pos hdescr, if_neg hdescr, hsame, if_pos houtput]
    refine (pairs_sortedSplice _ _).trans ?_
    rw [pairs_routingMsgToDescriptor]

theorem pairs_distribute (what : List UserData) (a : Distributed) :
    (pairs (distributeMsgByDescriptors next what a).sendTo).Perm
      (pairs a.sendTo ++ what.flatMap fun m => (shareOf next m).copies) := by
  induction what generalizing a with
  | nil => exact List.Perm.of_eq (List.append_nil _).symm
  | cons m what ih =>
    refine (ih (distributeMsg next a m)).trans ?_
    rw [List.flatMap_cons, ← List.append_assoc]
    exact (pairs_distributeMsg a m).append_right _

/-- Each receiver with a descriptor is in the list of the descriptor. -/
theorem outputDescriptorsLoop_perm (sender : Id) (us : List Uuid) (o : OutputDescriptors) :
    ((outputDescriptorsLoop next sender us o).descr.entries.flatMap
        fun e => e.2.uuids.map fun u => (e.1, u)).Perm
      ((o.descr.entries.flatMap fun e => e.2.uuids.map fun u => (e.1, u)) ++
        us.filterMap fun u => (outputDescriptor next u).map fun d => (d, u)) := by
  induction us generalizing o with
  | nil => exact List.Perm.of_eq (List.append_nil _).symm
  | cons u us ih =>
    unfold outputDescriptorsLoop
    cases hu : outputDescriptor next u with
    | none =>
      rw [List.filterMap_cons_none (by rw [hu]; rfl)]
      exact ih _
    | some d =>
      rw [List.filterMap_cons_some (by rw [hu]; rfl)]
      refine (ih _).trans ?_
      refine List.Perm.trans (List.Perm.append_right _ ?_)
        (List.Perm.of_eq (List.append_cons _ _ _).symm)
      have hfind : (o.descr.alter d fun r => some (pushRoute sender u r)).find d =
          some (pushRoute sender u (o.descr.find d)) := SortedMap.find_alter_self ..
      have herase : (o.descr.alter d fun r => some (pushRoute sender u r)).erase d =
          o.descr.erase d := SortedMap.ext_find fun k => by
        rw [SortedMap.find_erase, SortedMap.find_erase, SortedMap.find_alter]
        split_ifs <;> rfl
      have hentries := SortedMap.entries_perm hfind
      rw [herase] at hentries
      refine (hentries.flatMap_right _).trans ?_
      rw [List.flatMap_cons]
      cases hold : o.descr.find d with
      | none =>
        rw [SortedMap.erase_of_find_none hold]
        exact List.perm_append_comm
      | some r =>
        refine List.Perm.trans ?_ (((SortedMap.entries_perm hold).flatMap_right _).append_right
          _).symm
        rw [List.flatMap_cons]
        change ((r.uuids ++ [u]).map _ ++ _).Perm _
        rw [List.map_append, List.append_assoc, List.append_assoc]
        exact List.perm_append_comm.append_left _

theorem getOutputDescriptors_from {r : Routing} {e : Descriptor × Routing}
    (h : e ∈ (getOutputDescriptors next r).descr.entries) :
    e.2.from_ = r.from_ ∧ e.2.uuids ≠ [] ∧ ∀ u ∈ e.2.uuids, outputDescriptor next u = some e.1 := by
  obtain ⟨d, v⟩ := e
  rw [SortedMap.mem_entries_iff, getOutputDescriptors_find] at h
  split_ifs at h with hnone
  obtain rfl := Option.some.inj h
  exact ⟨rfl, hnone, fun u hu => routable_of_goingBy hu⟩

/-- The copies of a packet are one for each receiver that has a descriptor. -/
theorem copies_perReceiver (m : UserData) :
    ((shareOf next m).copies.flatMap perReceiver).Perm (outputs next m) := by
  have hloop : ((getOutputDescriptors next m.dataId.routing).descr.entries.flatMap
        fun e => e.2.uuids.map fun u => (e.1, u)).Perm
      (m.dataId.routing.uuids.filterMap fun u =>
        (outputDescriptor next u).map fun d => (d, u)) := outputDescriptorsLoop_perm _ _ _
  have hleft : (shareOf next m).copies.flatMap perReceiver =
      ((getOutputDescriptors next m.dataId.routing).descr.entries.flatMap
        fun e => e.2.uuids.map fun u => (e.1, u)).map fun p => (p.1, withRouting m [p.2]) := by
    rw [List.map_flatMap]
    unfold shareOf
    by_cases hrouted : m.dataId.routing.uuids = []
    · have hnone : (getOutputDescriptors next m.dataId.routing).descr.entries = [] := by
        rw [descr_entries_eq_nil_iff, hrouted]
        exact fun u hu => absurd hu List.not_mem_nil
      rw [if_pos hrouted, hnone]
      rfl
    · rw [if_neg hrouted]
      dsimp only
      by_cases hdescr : (getOutputDescriptors next m.dataId.routing).descr.entries = []
      · rw [if_pos hdescr, hdescr]
        rfl
      · rw [if_neg hdescr]
        dsimp only
        rw [List.flatMap_map]
        refine List.flatMap_congr fun e he => ?_
        unfold perReceiver
        rw [List.map_map]
        refine List.map_congr_left fun u _ => ?_
        change (e.1, withRouting _ [u]) = (e.1, withRouting m [u])
        unfold withRouting setRouting
        dsimp only
        rw [(getOutputDescriptors_from he).1]
  rw [hleft]
  refine (hloop.map _).trans (List.Perm.of_eq ?_)
  unfold outputs
  rw [List.map_filterMap]
  refine List.filterMap_congr fun u _ => ?_
  rw [Option.map_map]
  rfl

end Distribution

section Swapping
open UdtKernel.SwapEndian (read read_of_extends swapTurn swapTurn_swapped swapTurn_failed
  swapTurn_extends)
variable {swaps : SwapEndian.ParserFactory}

/-- Packets of the other byte order become those that could be swapped, whatever storages they
share. -/
theorem foldl_swapTurn (before : Storages) (ms : List Message) (st : Swapping)
    (hbefore : before <+: st.storages) (hvalid : ∀ m ∈ ms, ∀ r ∈ m.data, r < before.length)
    (hforeign : ∀ m ∈ ms, m.dataId.endian ≠ shareEndian) :
    ∃ xs, (ms.foldl (swapTurn swaps) st).to_ = st.to_ ++ xs ∧
      st.storages <+: (ms.foldl (swapTurn swaps) st).storages ∧
      ∀ after, (ms.foldl (swapTurn swaps) st).storages <+: after →
        xs.map (loaded after) = (ms.map (loaded before)).filterMap (swappedOf swaps) := by
  induction ms generalizing st with
  | nil => exact ⟨[], (List.append_nil _).symm, List.prefix_refl _, fun _ _ => rfl⟩
  | cons m ms ih =>
    have hm := hforeign m List.mem_cons_self
    have hextends : st.storages <+: (swapTurn swaps st m).storages := swapTurn_extends hm
    have hread : read st.storages m.data = read before m.data :=
      read_of_extends hbefore (hvalid m List.mem_cons_self)
    obtain ⟨xs, hto, hstorages, hxs⟩ := ih (swapTurn swaps st m) (hbefore.trans hextends)
      (fun x hx => hvalid x (List.mem_cons_of_mem _ hx))
      (fun x hx => hforeign x (List.mem_cons_of_mem _ hx))
    rw [List.foldl_cons, List.map_cons]
    cases hcan : SwapEndian.canSwap swaps m.dataId (read before m.data) with
    | true =>
      obtain ⟨new, x, hturn, hx, hlt, hbytes⟩ := swapTurn_swapped hm (hread ▸ hcan)
      have hsome : swappedOf swaps (loaded before m) = some ⟨x.dataId,
          SwapEndian.swappedBytes swaps m.dataId (read before m.data)⟩ := by
        unfold swappedOf loaded
        rw [if_pos hcan, hx]
      refine ⟨x :: xs, ?_, hextends.trans hstorages, fun after hafter => ?_⟩
      · rw [hto, hturn, List.append_assoc]
        rfl
      · rw [List.filterMap_cons_some hsome, List.map_cons, hxs after hafter]
        refine congrArg₂ List.cons ?_ rfl
        unfold loaded
        rw [hturn] at hstorages
        rw [read_of_extends (hstorages.trans (hturn ▸ hafter)) hlt, hbytes, hread]
    | false =>
      obtain ⟨new, x, hturn, -⟩ := swapTurn_failed hm (hread ▸ hcan)
      have hnone : swappedOf swaps (loaded before m) = none := by
        unfold swappedOf loaded
        rw [if_neg (ne_true_of_eq_false hcan)]
      refine ⟨xs, ?_, hextends.trans hstorages, fun after hafter => ?_⟩
      · rw [hto, hturn]
      · rw [List.filterMap_cons_none hnone, hxs after hafter]

end Swapping

section Handling
open UdtKernel.SwapEndian (keptUuids takenUuids keptOf takenOf extract_eq kept_append_taken
  mem_keptUuids mem_takenUuids taken_foreign)
variable {me : Surroundings} {swaps : SwapEndian.ParserFactory}

theorem sendMessages_copies (what : List UserData) (h : Handling) :
    ((sendMessages me what h).copies.flatMap perReceiver).Perm
      (h.copies.flatMap perReceiver ++ what.flatMap (outputs me.next)) := by
  have hpairs : ((pairs (distributeMsgByDescriptors me.next what
        ⟨h.hasNotRoute, [], h.errors⟩).sendTo).flatMap perReceiver).Perm
      ((what.flatMap fun m => (shareOf me.next m).copies).flatMap perReceiver) :=
    (pairs_distribute what ⟨h.hasNotRoute, [], h.errors⟩).flatMap_right perReceiver
  have houtputs : ((what.flatMap fun m => (shareOf me.next m).copies).flatMap perReceiver).Perm
      (what.flatMap (outputs me.next)) := by
    rw [List.flatMap_assoc]
    exact List.Perm.flatMap_left _ fun m _ => copies_perReceiver m
  have hsent := hpairs.trans houtputs
  unfold sendMessages
  dsimp only
  by_cases hnone : (distributeMsgByDescriptors me.next what
      ⟨h.hasNotRoute, [], h.errors⟩).sendTo = []
  · rw [hnone] at hsent
    rw [if_pos hnone, List.nil_perm.1 hsent, List.append_nil]
    rfl
  · rw [if_neg hnone]
    unfold Handling.copies
    dsimp only
    rw [List.flatMap_append, List.flatMap_append, List.flatMap_singleton]
    exact hsent.append_left _

theorem stored_loaded (l : List UserData) : (stored l).2.map (loaded (stored l).1) = l := by
  unfold stored loaded
  dsimp only
  rw [List.map_map]
  refine List.ext_getElem (by rw [List.length_map, List.length_zipIdx]) fun i hi hl => ?_
  rw [List.getElem_map, List.getElem_zipIdx]
  change (⟨l[i].dataId, (l.map UserData.data).getD (0 + i) []⟩ : UserData) = l[i]
  rw [Nat.zero_add, List.getD_eq_getElem?_getD, List.getElem?_map, List.getElem?_eq_getElem hl]
  rfl

theorem stored_valid {l : List UserData} {m : Message} (h : m ∈ (stored l).2) :
    ∀ r ∈ m.data, r < (stored l).1.length := by
  unfold stored at h ⊢
  obtain ⟨p, hp, rfl⟩ := List.mem_map.1 h
  intro r hr
  obtain rfl := Option.some.inj hr
  rw [List.length_map]
  exact (List.mem_zipIdx' hp).1

theorem swappedOf_withRouting (m : UserData) (us : List Uuid) :
    swappedOf swaps (withRouting m us) = (swappedOf swaps m).map fun x => withRouting x us := by
  unfold swappedOf
  by_cases hcan : SwapEndian.canSwap swaps m.dataId m.data = true
  · have hsame : SwapEndian.canSwap swaps (withRouting m us).dataId (withRouting m us).data =
        true := hcan
    rw [if_pos hcan, if_pos hsame]
    rfl
  · have hsame : ¬SwapEndian.canSwap swaps (withRouting m us).dataId (withRouting m us).data =
        true := hcan
    rw [if_neg hcan, if_neg hsame]
    rfl

/-- What is sent of a packet that is left as it is. -/
theorem outputs_kept (s : Storages) (m : Message) :
    ((keptOf me.isLocal m).map (loaded s)).toList.flatMap (outputs me.next) =
      (keptUuids me.isLocal m).filterMap fun u =>
        (outputDescriptor me.next u).map fun d => (d, withRouting (loaded s m) [u]) := by
  unfold keptOf
  split_ifs with h
  · rw [h.2]
    rfl
  · rw [Option.map_some, Option.toList_some, List.flatMap_singleton]
    rfl

/-- What is sent of a packet that is swapped. -/
theorem outputs_taken (s : Storages) (m : Message) :
    (((takenOf me.isLocal m).map (loaded s)).bind (swappedOf swaps)).toList.flatMap
        (outputs me.next) =
      (takenUuids me.isLocal m).filterMap fun u => (swappedOf swaps (loaded s m)).bind fun x =>
        (outputDescriptor me.next u).map fun d => (d, withRouting x [u]) := by
  unfold takenOf
  split_ifs with h
  · rw [h]
    rfl
  · have hload : loaded s (SwapEndian.withRouting m (takenUuids me.isLocal m)) =
        withRouting (loaded s m) (takenUuids me.isLocal m) := rfl
    rw [Option.map_some, Option.bind_some, hload, swappedOf_withRouting]
    cases swappedOf swaps (loaded s m) with
    | none => exact (List.filterMap_none _).symm
    | some x =>
      rw [Option.map_some, Option.toList_some, List.flatMap_singleton]
      rfl

/-- Both parts of a packet together. -/
theorem outputs_forwards (s : Storages) (m : Message) :
    (((keptOf me.isLocal m).map (loaded s)).toList.flatMap (outputs me.next) ++
      (((takenOf me.isLocal m).map (loaded s)).bind (swappedOf swaps)).toList.flatMap
        (outputs me.next)).Perm (forwards me swaps (loaded s m)) := by
  have hkept : ∀ u ∈ keptUuids me.isLocal m, forwardOf me swaps (loaded s m) u =
      (outputDescriptor me.next u).map fun d => (d, withRouting (loaded s m) [u]) := by
    intro u hu
    have hnot : ¬((loaded s m).dataId.endian ≠ shareEndian ∧ me.isLocal u = true) :=
      (mem_keptUuids.1 hu).2
    unfold forwardOf
    rw [if_neg hnot]
    rfl
  have htaken : ∀ u ∈ takenUuids me.isLocal m, forwardOf me swaps (loaded s m) u =
      (swappedOf swaps (loaded s m)).bind fun x =>
        (outputDescriptor me.next u).map fun d => (d, withRouting x [u]) := by
    intro u hu
    have hforeign : (loaded s m).dataId.endian ≠ shareEndian ∧ me.isLocal u = true :=
      (mem_takenUuids.1 hu).2
    unfold forwardOf
    rw [if_pos hforeign]
  rw [outputs_kept, outputs_taken, ← List.filterMap_congr hkept, ← List.filterMap_congr htaken,
    ← List.filterMap_append]
  exact ((kept_append_taken m).filterMap _).symm

theorem flatMap_filterMap_toList {α β γ : Type} (f : α → Option β) (g : β → List γ)
    (l : List α) : (l.filterMap f).flatMap g = l.flatMap fun a => (f a).toList.flatMap g := by
  induction l with
  | nil => rfl
  | cons a l ih =>
    rw [List.flatMap_cons, ← ih]
    cases h : f a with
    | none =>
      rw [List.filterMap_cons_none h]
      rfl
    | some b =>
      rw [List.filterMap_cons_some h, List.flatMap_cons, Option.toList_some, List.flatMap_singleton]

/-- The two calls of `MSendMessages` send what the two parts of the packets come to. -/
theorem sendRouted_copies (me : Surroundings) (swaps : SwapEndian.ParserFactory)
    (aRoute : List UserData) (h : Handling) :
    ((sendRouted me swaps aRoute h).copies.flatMap perReceiver).Perm
      (h.copies.flatMap perReceiver ++
        ((((stored aRoute).2.filterMap (keptOf me.isLocal)).map
            (loaded (stored aRoute).1)).flatMap (outputs me.next) ++
          ((((stored aRoute).2.filterMap (takenOf me.isLocal)).map
            (loaded (stored aRoute).1)).filterMap (swappedOf swaps)).flatMap
              (outputs me.next))) := by
  have hfirst (hs : List Message) (t : Storages) (h : Handling) :
      ((if hs ≠ [] then sendMessages me (hs.map (loaded t)) h else h).copies.flatMap
        perReceiver).Perm (h.copies.flatMap perReceiver ++
          (hs.map (loaded t)).flatMap (outputs me.next)) := by
    by_cases hnone : hs = []
    · rw [if_neg (not_not.2 hnone), hnone]
      exact List.Perm.of_eq (List.append_nil _).symm
    · rw [if_pos hnone]
      exact sendMessages_copies _ h
  unfold sendRouted
  dsimp only
  rw [extract_eq, List.nil_append]
  dsimp only
  rw [← List.append_assoc]
  by_cases hnone : (stored aRoute).2.filterMap (takenOf me.isLocal) = []
  · rw [if_neg (not_not.2 hnone), hnone]
    refine (hfirst _ _ h).trans (List.Perm.of_eq ?_)
    exact (List.append_nil _).symm
  · rw [if_pos hnone]
    have hvalid : ∀ m ∈ (stored aRoute).2.filterMap (takenOf me.isLocal),
        (∀ r ∈ m.data, r < (stored aRoute).1.length) ∧ m.dataId.endian ≠ shareEndian := by
      intro m hm
      obtain ⟨x, hx, htaken⟩ := List.mem_filterMap.1 hm
      unfold takenOf at htaken
      split_ifs at htaken with huuids
      rw [← Option.some.inj htaken]
      exact ⟨stored_valid (m := x) hx, taken_foreign (m := x) huuids⟩
    unfold swapEndianIfNeed
    generalize hstart : Swapping.mk (stored aRoute).1 [] [] _ = st
    have hbefore : (stored aRoute).1 <+: st.storages := hstart ▸ List.prefix_refl _
    obtain ⟨xs, hto, -, hxs⟩ := foldl_swapTurn (stored aRoute).1 _ st hbefore
      (fun m hm => (hvalid m hm).1) fun m hm => (hvalid m hm).2
    rw [hto, ← hstart, List.nil_append, hstart, hxs _ (List.prefix_refl _)]
    refine (sendMessages_copies _ _).trans (List.Perm.append_right _ ?_)
    exact hfirst _ _ h

/-- A kernel sends each receiver of each packet one copy by the descriptor that leads to it, in the
byte order of the machine if the receiver is a program of this kernel; a receiver without a
descriptor, or whose copy cannot be swapped, is sent nothing. -/
theorem sendRouted_forwards (me : Surroundings) (swaps : SwapEndian.ParserFactory)
    (aRoute : List UserData) (h : Handling) :
    ((sendRouted me swaps aRoute h).copies.flatMap perReceiver).Perm
      (h.copies.flatMap perReceiver ++ aRoute.flatMap (forwards me swaps)) := by
  refine (sendRouted_copies me swaps aRoute h).trans (List.Perm.append_left _ ?_)
  rw [List.map_filterMap, List.map_filterMap, List.filterMap_filterMap, flatMap_filterMap_toList,
    flatMap_filterMap_toList]
  refine (List.flatMap_append_perm _ _ _).trans ?_
  refine (List.Perm.flatMap_left _ fun m _ =>
    outputs_forwards (stored aRoute).1 m).trans (List.Perm.of_eq ?_)
  conv_rhs => rw [← stored_loaded aRoute]
  rw [List.flatMap_map]

theorem copies_routed {next : Uuid → List Descriptor} {m : UserData}
    {c : Descriptor × UserData} (h : c ∈ (shareOf next m).copies) :
    c.2.dataId.routing.uuids ≠ [] := by
  unfold shareOf at h
  split_ifs at h with hrouted
  · cases h
  · dsimp only at h
    split_ifs at h with hdescr
    · cases h
    · obtain ⟨e, he, rfl⟩ := List.mem_map.1 h
      exact (getOutputDescriptors_from he).2.1

theorem sendMessages_routed {what : List UserData} {h : Handling}
    (hrouted : ∀ c ∈ h.copies, c.2.dataId.routing.uuids ≠ []) :
    ∀ c ∈ (sendMessages me what h).copies, c.2.dataId.routing.uuids ≠ [] := by
  unfold sendMessages
  dsimp only
  split_ifs with hnone
  · exact hrouted
  · intro c hc
    unfold Handling.copies at hc
    rw [List.flatMap_append, List.flatMap_singleton, List.mem_append] at hc
    rcases hc with hc | hc
    · exact hrouted c hc
    · obtain ⟨m, -, hm⟩ := List.mem_flatMap.1 ((pairs_distribute _ _).mem_iff.1 hc)
      exact copies_routed hm

/-- No copy is sent to nobody. -/
theorem sendRouted_routed (aRoute : List UserData) {h : Handling}
    (hrouted : ∀ c ∈ h.copies, c.2.dataId.routing.uuids ≠ []) :
    ∀ c ∈ (sendRouted me swaps aRoute h).copies, c.2.dataId.routing.uuids ≠ [] := by
  unfold sendRouted
  dsimp only
  split_ifs with hfirst hsecond hsecond
  · exact sendMessages_routed (sendMessages_routed hrouted)
  · exact sendMessages_routed hrouted
  · exact sendMessages_routed hrouted
  · exact hrouted

theorem classifyMessages_eq (l notRouted routed : List UserData) :
    classifyMessages l notRouted routed =
      (notRouted ++ l.filter (fun m => !isRouted m), routed ++ l.filter isRouted) := by
  induction l generalizing notRouted routed with
  | nil =>
    unfold classifyMessages
    rw [List.filter_nil, List.append_nil, List.filter_nil, List.append_nil]
  | cons m l ih =>
    unfold classifyMessages
    by_cases hm : m.dataId.routing.uuids = []
    · have hnot : isRouted m = false := decide_eq_false (not_not.2 hm)
      rw [if_pos hm, ih, List.filter_cons, List.filter_cons, hnot, List.append_assoc]
      rfl
    · have hrouted : isRouted m = true := decide_eq_true hm
      rw [if_neg hm, ih, List.filter_cons, List.filter_cons, hrouted, List.append_assoc]
      rfl

/-- Packets with receivers go on as they are, behind them what the others come to. -/
theorem findReceivers_ok {parsers : ReceiverStage.ParserFactory}
    (hparsers : ReceiverStage.AllContiguous parsers) (k : Kernel) (aData : List UserData) :
    ∃ k' notRoute found errors, findReceivers parsers k aData =
      .ok (k', notRoute, aData.filter isRouted ++ found, errors) := by
  unfold findReceivers
  rw [classifyMessages_eq, List.nil_append, List.nil_append]
  dsimp only
  by_cases hnone : aData.filter (fun m => !isRouted m) = []
  · rw [if_neg (not_not.2 hnone), hnone]
    exact ⟨k, [], [], [], congrArg (fun l => Except.ok (k, [], l, [])) (List.append_nil _).symm⟩
  · obtain ⟨k', ss, xss, back, hfill, -⟩ := ReceiverStage.fillMsgReceivers_went hparsers k
      (aData.filter fun m => !isRouted m) (aData.filter isRouted) []
    rw [if_pos hnone, hfill]
    exact ⟨_, _, _, _, rfl⟩

/-- What the packets without receivers come to, when none gets the bytes of another one. -/
theorem findReceivers_fates {parsers : ReceiverStage.ParserFactory}
    (hparsers : ReceiverStage.AllContiguous parsers) {k : Kernel} {aData : List UserData}
    (hapart : ReceiverStage.Apart k (aData.filter fun m => !isRouted m)) :
    ∃ k' notRoute fates errors, findReceivers parsers k aData =
        .ok (k', notRoute, aData.filter isRouted ++ fates.flatMap fun f => f.2.out, errors) ∧
      List.Forall₂ (ReceiverStage.Fate parsers k) (aData.filter fun m => !isRouted m) fates := by
  unfold findReceivers
  rw [classifyMessages_eq, List.nil_append, List.nil_append]
  dsimp only
  by_cases hnone : aData.filter (fun m => !isRouted m) = []
  · rw [if_neg (not_not.2 hnone), hnone]
    refine ⟨k, [], [], [], ?_, List.Forall₂.nil⟩
    rw [List.flatMap_nil, List.append_nil]
  · obtain ⟨k', ss, xss, back, hfill, hall, -⟩ := ReceiverStage.fillMsgReceivers_went hparsers k
      (aData.filter fun m => !isRouted m) (aData.filter isRouted) []
    obtain ⟨fates, rfl, hforall, -⟩ := hall.fates hapart
    simp only [List.flatMap_map] at hfill
    rw [if_pos hnone, hfill]
    exact ⟨_, _, fates, _, rfl, hforall⟩

theorem findReceivers_routed (parsers : ReceiverStage.ParserFactory) (k : Kernel)
    {aData : List UserData} (h : ∀ m ∈ aData, m.dataId.routing.uuids ≠ []) :
    findReceivers parsers k aData = .ok (k, [], aData, []) := by
  have hnone : aData.filter (fun m => !isRouted m) = [] := by
    refine List.filter_eq_nil_iff.2 fun m hm hnot => ?_
    have hrouted : isRouted m = true := decide_eq_true (h m hm)
    rw [hrouted] at hnot
    exact Bool.false_ne_true hnot
  have hall : aData.filter isRouted = aData :=
    List.filter_eq_self.2 fun m hm => decide_eq_true (h m hm)
  unfold findReceivers
  rw [classifyMessages_eq, List.nil_append, List.nil_append, hnone, hall]
  rfl

/-- What `MHandleFrom` gives out, by the packets that have receivers in the end. -/
theorem handleFrom_sends {parsers : ReceiverStage.ParserFactory} {k k' : Kernel}
    {aData notRoute route : List UserData} {errors : List FailSend}
    (hfind : findReceivers parsers k aData = .ok (k', notRoute, route, errors))
    (me : Surroundings) (swaps : SwapEndian.ParserFactory) (myId : Id) :
    ∃ h, handleFrom me parsers swaps myId k aData =
        .ok (k', h, FailSends.noteFailSends myId h.errors) ∧
      (h.copies.flatMap perReceiver).Perm (route.flatMap (forwards me swaps)) ∧
      ∀ c ∈ h.copies, c.2.dataId.routing.uuids ≠ [] := by
  refine ⟨sendRouted me swaps route ⟨[], notRoute, errors⟩, ?_, ?_, ?_⟩
  · unfold handleFrom
    rw [hfind]
    rfl
  · exact sendRouted_forwards me swaps route ⟨[], notRoute, errors⟩
  · exact sendRouted_routed route fun c hc => absurd hc List.not_mem_nil

def twoPrograms : Surroundings where
  next u := if u = 2 then [4] else if u = 6 then [8] else []
  isLocal u := u = 2
  sendTo _ := ([], [])

/-- A message for 2 that comes in two packets, and a packet of the other byte order for 6 and 2. -/
def threePackets : List UserData :=
  [ReceiverStage.pairPacket [1], ⟨⟨2, ['n'], 0, [], [], [], ⟨⟨1, []⟩, [6, 2]⟩, .default, .big,
    ⟨⟨0, 0, 0⟩, []⟩⟩, [7, 8]⟩, ReceiverStage.pairPacket [5]]

/-- The storage of the first packet has no room. -/
theorem three_apart : ReceiverStage.Apart ReceiverStage.onePairKernel
    (threePackets.filter fun m => !isRouted m) := by
  refine ⟨fun m _ s hs => (nomatch hs), ?_⟩
  change List.Pairwise _ [ReceiverStage.pairPacket [1], ReceiverStage.pairPacket [5]]
  rw [List.pairwise_pair]
  intro _ _ room hroom
  obtain rfl := Option.some.inj hroom
  exact Nat.one_pos

/-- The message is joined, and the copy for 2 is swapped. -/
example : (handleFrom twoPrograms ReceiverStage.pairFactory
    (fun _ => some SwapEndian.numberParser) ⟨3, []⟩ ReceiverStage.onePairKernel
      threePackets).toOption.map (fun r => r.2.1.copies.map fun c => (c.1, c.2.data)) =
        some [(4, [1, 5]), (8, [7, 8]), (4, [8, 7])] := by
  decide +kernel

end Handling

end UdtKernel.HandleFrom
