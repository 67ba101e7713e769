import UdtKernel.RequiredDG.Handlers
import UdtKernel.RequiredDG.StageShares

set_option autoImplicit false

/-! How packets for a local program get the handlers of their message: `MFillMsgHandlersFor`, which
agrees with the stage that finds the receivers of a message. -/

namespace UdtKernel.HandlerStage
open UdtKernel.Lib UdtKernel.RequiredDG UdtKernel.SwapEndian

def eIncorrectUsingOfUdt1 : ErrorType := 2 ^ 21

inductive HandlerAbort where
  | notOneReceiver
  deriving DecidableEq

def isOnlyRealHandlers (c : MsgHandlers) : Bool := c.real = c.handlers.length

def isOnlyNonRealHandlers (c : MsgHandlers) : Bool := c.real = 0

/-- `MGetHandlers`, for the one receiver. -/
def getHandlers (dg : RequiredDG) (aMsgInfo : UserDataInfo) (for_ : Uuid) : Option MsgHandlers :=
  let expected := dg.expectedFor aMsgInfo.routing.from_.uuid (protocolOf aMsgInfo)
  if expected.entries = [] then none
  else
    match (expected.find aMsgInfo.what.messageHeader).bind fun r => r.receivers.find for_ with
    | none => none
    | some c => if c.handlers = [] then none else some c

/-- The part behind the byte order: the handlers are put into the packet, or it fails. -/
def putHandlers (dg : RequiredDG) (for_ : Uuid) (i : UserDataInfo) : ErrorType × UserDataInfo :=
  match getHandlers dg i for_ with
  | none => (eHandlerIsNotExist, i)
  | some c =>
    if isOnlyRealHandlers c || isOnlyNonRealHandlers c then
      (eNoError, { i with eventsList := c.handlers })
    -- sent to others by their uuids, and to this one only as a registrar
    else if for_ ∉ i.destination then (eIncorrectUsingOfUdt1, i)
    else (eNoError, { i with eventsList := c.handlers })

/-- The table in which `MGetOrCreateExpectedListFor` has found or created the list for a packet. -/
def createList (dg : RequiredDG) (i : UserDataInfo) : RequiredDG :=
  let from_ := i.routing.from_.uuid
  dg.setExpected from_ (protocolOf i) (dg.expectedFor from_ (protocolOf i))

/-- The lists of the loop, with the table and the storages of the packets. -/
structure Lists where
  dg : RequiredDG
  storages : Storages
  fails : List Message
  to_ : List Message
  errors : List FailSend

def place (l : Lists) (dg : RequiredDG) (storages : Storages) (error : ErrorType)
    (data : Message) : Lists :=
  if error ≠ eNoError then
    { l with
      dg := dg
      storages := storages
      fails := l.fails ++ [data]
      errors := l.errors ++ [(FailSend.ofInfo data.dataId).setError error] }
  else { l with dg := dg, storages := storages, to_ := l.to_ ++ [data] }

def turn (factory : ParserFactory) (l : Lists) (data : Message) : Except HandlerAbort Lists :=
  match data.dataId.routing.uuids with
  | [for_] =>
    let (error, storages, data) := swapEndian factory l.storages data
    if error ≠ eNoError then .ok (place l l.dg storages error data)
    else
      let dg := createList l.dg data.dataId
      let (error, info) := putHandlers dg for_ data.dataId
      .ok (place l dg storages error { data with dataId := info })
  | _ => .error .notOneReceiver

/-- `MFillMsgHandlersFor`: what fails is moved back to `aFrom`. -/
def fillMsgHandlersFor (factory : ParserFactory) (dg : RequiredDG) (s : Storages)
    (aFrom aTo : List Message) (aError : List FailSend) :
    Except HandlerAbort (RequiredDG × Storages × List Message × List Message × List FailSend) := do
  let l ← aFrom.foldlM (turn factory) ⟨dg, s, [], aTo, aError⟩
  .ok (l.dg, l.storages, l.fails, l.to_, l.errors)

/-- What a packet is after its byte order was changed. -/
def swappedInfo (factory : ParserFactory) (i : UserDataInfo) : UserDataInfo :=
  if i.endian = shareEndian then i
  else { i with what := swappedHeader factory i, endian := shareEndian }

/-- What is wrong with a packet with these bytes for a receiver, if anything is: its byte order
cannot be changed, there is no handler, or there are handlers of both kinds and it was sent to other
programs. -/
def problem (factory : ParserFactory) (dg : RequiredDG) (for_ : Uuid) (i : UserDataInfo)
    (bytes : List Byte) : ErrorType :=
  if i.endian ≠ shareEndian ∧ canSwap factory i bytes = false then eCannotSwapEndian
  else
    match getHandlers dg (swappedInfo factory i) for_ with
    | none => eHandlerIsNotExist
    | some c =>
      if c.real ≠ 0 ∧ c.real ≠ c.handlers.length ∧ for_ ∉ i.destination then
        eIncorrectUsingOfUdt1
      else eNoError

/-- The table has the same entries, and more empty lists at most. -/
structure SameEntries (dg dg' : RequiredDG) : Prop where
  expected : ∀ u p, dg'.expectedFor u p = dg.expectedFor u p
  frame : Frame dg dg'

/-- What becomes of a packet, with the error or none: it goes on with the handlers of its receiver
and its bytes in the order of the machine, or it comes back with what is wrong with it. -/
structure Handled (factory : ParserFactory) (dg : RequiredDG) (before after : Storages)
    (m : Message) (r : ErrorType × Message) : Prop where
  error : ∃ for_, m.dataId.routing.uuids = [for_] ∧
    r.1 = problem factory dg for_ m.dataId (read before m.data)
  buffer : r.2.data = m.data
  goesOn : r.1 = eNoError → ∃ for_ c, m.dataId.routing.uuids = [for_] ∧
    getHandlers dg (swappedInfo factory m.dataId) for_ = some c ∧ c.handlers ≠ [] ∧
    r.2.dataId = { swappedInfo factory m.dataId with eventsList := c.handlers } ∧
    read after m.data = if m.dataId.endian = shareEndian then read before m.data
      else swappedBytes factory m.dataId (read before m.data)
  comesBack : r.1 ≠ eNoError → ∃ header endian,
    r.2.dataId = { m.dataId with what := header, endian := endian }

/-- No packet of the other byte order shares its storage. -/
def Apart (m n : Message) : Prop :=
  m.data = n.data → m.data = none ∨ m.dataId.endian = shareEndian ∧ n.dataId.endian = shareEndian

theorem Apart.symm {m n : Message} (h : Apart m n) : Apart n m := fun heq =>
  (h heq.symm).imp (fun hnone => heq.trans hnone) And.symm

theorem read_write_of_ne {s : Storages} {b c : Buffer} (h : b = c → b = none) (bytes : List Byte) :
    read (write s b bytes) c = read s c := by
  cases b with
  | none => rfl
  | some r =>
    cases c with
    | none => rfl
    | some q =>
      have hne : r ≠ q := fun heq => by
        have hnone := h (congrArg some heq)
        cases hnone
      change (s.set r bytes).getD q [] = s.getD q []
      rw [List.getD_eq_getElem?_getD, List.getD_eq_getElem?_getD, List.getElem?_set_ne hne]

theorem read_write_self {s : Storages} {b : Buffer} {bytes : List Byte}
    (hvalid : ∀ r ∈ b, r < s.length) (hnone : b = none → bytes = []) :
    read (write s b bytes) b = bytes := by
  cases b with
  | none => exact (hnone rfl).symm
  | some r =>
    change (s.set r bytes).getD r [] = bytes
    rw [List.getD_eq_getElem?_getD, List.getElem?_set_self (hvalid r rfl)]
    rfl

theorem length_write (s : Storages) (b : Buffer) (bytes : List Byte) :
    (write s b bytes).length = s.length := by
  cases b with
  | none => rfl
  | some r => exact List.length_set

variable {factory : ParserFactory} {dg dg' : RequiredDG}

theorem SameEntries.refl (dg : RequiredDG) : SameEntries dg dg := ⟨fun _ _ => rfl, Frame.refl dg⟩

theorem SameEntries.trans {dg'' : RequiredDG} (h : SameEntries dg dg')
    (h' : SameEntries dg' dg'') : SameEntries dg dg'' :=
  ⟨fun u p => (h'.expected u p).trans (h.expected u p), h.frame.trans h'.frame⟩

theorem SameEntries.putHandlers (h : SameEntries dg dg') (for_ : Uuid) (i : UserDataInfo) :
    HandlerStage.putHandlers dg' for_ i = HandlerStage.putHandlers dg for_ i := by
  unfold HandlerStage.putHandlers getHandlers
  rw [h.expected]

theorem createList_same (dg : RequiredDG) (i : UserDataInfo) :
    SameEntries dg (createList dg i) := by
  refine ⟨fun u p => ?_, ⟨rfl, rfl, rfl, rfl⟩⟩
  unfold createList
  rw [expectedFor_setExpected]
  split_ifs with hself
  · rw [hself.1, hself.2]
  · rfl

theorem swappedBytes_length (i : UserDataInfo) (bytes : List Byte) :
    (swappedBytes factory i bytes).length = bytes.length := by
  unfold swappedBytes
  cases factory (protocolOf i) with
  | none => rfl
  | some p => exact p.swapMessage_length _ _

/-- What the change of the byte order makes of a packet; only its own storage may change. -/
theorem swapEndian_cases (factory : ParserFactory) (s : Storages) (m : Message) :
    m.dataId.endian = shareEndian ∧ swapEndian factory s m = (eNoError, s, m) ∨
    m.dataId.endian ≠ shareEndian ∧ canSwap factory m.dataId (read s m.data) = true ∧
      swapEndian factory s m = (eNoError,
        write s m.data (swappedBytes factory m.dataId (read s m.data)),
        { m with dataId := swappedInfo factory m.dataId }) ∨
    m.dataId.endian ≠ shareEndian ∧ canSwap factory m.dataId (read s m.data) = false ∧
      ∃ t header, (t = s ∨ ∃ bytes, t = write s m.data bytes) ∧
        swapEndian factory s m =
          (eCannotSwapEndian, t, { m with dataId := { m.dataId with what := header } }) := by
  by_cases hnative : m.dataId.endian = shareEndian
  · refine Or.inl ⟨hnative, ?_⟩
    unfold swapEndian
    exact if_neg (not_not.2 hnative)
  have hproto : ∀ w, protocolOf { m.dataId with what := w } = protocolOf m.dataId := fun _ => rfl
  cases hp : factory (protocolOf m.dataId) with
  | none =>
    refine Or.inr (Or.inr ⟨hnative, ?_, s, m.dataId.what, Or.inl rfl, ?_⟩)
    · unfold canSwap
      rw [hp]
    · simp only [swapEndian, if_pos hnative, swapHeaderEndian, hp, Bool.false_eq_true, if_false]
  | some p =>
    have hcan : canSwap factory m.dataId (read s m.data) = ((p.swapHeader m.dataId.what).1 &&
        (p.swapMessage (p.swapHeader m.dataId.what).2 (read s m.data)).1) := by
      unfold canSwap
      rw [hp]
    cases hheader : (p.swapHeader m.dataId.what).1 with
    | false =>
      rw [hheader, Bool.false_and] at hcan
      refine Or.inr (Or.inr ⟨hnative, hcan, s, (p.swapHeader m.dataId.what).2, Or.inl rfl, ?_⟩)
      simp only [swapEndian, if_pos hnative, swapHeaderEndian, hp, hheader, Bool.false_eq_true,
        if_false]
    | true =>
      rw [hheader, Bool.true_and] at hcan
      cases hmessage : (p.swapMessage (p.swapHeader m.dataId.what).2 (read s m.data)).1 with
      | false =>
        rw [hmessage] at hcan
        refine Or.inr (Or.inr ⟨hnative, hcan, write s m.data (p.swapMessage
          (p.swapHeader m.dataId.what).2 (read s m.data)).2, (p.swapHeader m.dataId.what).2,
          Or.inr ⟨_, rfl⟩, ?_⟩)
        simp only [swapEndian, if_pos hnative, swapHeaderEndian, swapMessageEndian, hproto, hp,
          hheader, hmessage, if_true, Bool.false_eq_true, if_false]
      | true =>
        rw [hmessage] at hcan
        refine Or.inr (Or.inl ⟨hnative, hcan, ?_⟩)
        simp only [swapEndian, if_pos hnative, swapHeaderEndian, swapMessageEndian, hproto, hp,
          hheader, hmessage, if_true, swappedBytes, swappedInfo, if_neg hnative, swappedHeader]

/-- A packet that gets its handlers gets all of them. -/
theorem putHandlers_cases (dg : RequiredDG) (for_ : Uuid) (i : UserDataInfo) :
    (putHandlers dg for_ i).1 ≠ eNoError ∧ (putHandlers dg for_ i).2 = i ∨
      (putHandlers dg for_ i).1 = eNoError ∧ ∃ c, getHandlers dg i for_ = some c ∧
        c.handlers ≠ [] ∧ (putHandlers dg for_ i).2 = { i with eventsList := c.handlers } := by
  unfold putHandlers
  cases hget : getHandlers dg i for_ with
  | none => exact Or.inl ⟨show eHandlerIsNotExist ≠ eNoError by decide, rfl⟩
  | some c =>
    have hne : c.handlers ≠ [] := by
      unfold getHandlers at hget
      dsimp only at hget
      split_ifs at hget
      split at hget
      · cases hget
      · split_ifs at hget with hc
        cases hget
        exact hc
    dsimp only
    split_ifs
    · exact Or.inr ⟨rfl, c, rfl, hne, rfl⟩
    · exact Or.inr ⟨rfl, c, rfl, hne, rfl⟩
    · exact Or.inl ⟨show eIncorrectUsingOfUdt1 ≠ eNoError by decide, rfl⟩

theorem swappedInfo_destination (factory : ParserFactory) (i : UserDataInfo) :
    (swappedInfo factory i).destination = i.destination := by
  unfold swappedInfo
  split_ifs
  · rfl
  · rfl

theorem problem_of_right {for_ : Uuid} {i : UserDataInfo} {bytes : List Byte}
    (hright : ¬(i.endian ≠ shareEndian ∧ canSwap factory i bytes = false)) :
    problem factory dg for_ i bytes = (putHandlers dg for_ (swappedInfo factory i)).1 := by
  unfold problem putHandlers
  rw [if_neg hright]
  cases getHandlers dg (swappedInfo factory i) for_ with
  | none => rfl
  | some c =>
    dsimp only [isOnlyRealHandlers, isOnlyNonRealHandlers]
    rw [swappedInfo_destination]
    by_cases hall : c.real = c.handlers.length
    · simp [hall]
    · by_cases hnone : c.real = 0
      · simp [hnone]
      · by_cases hmem : for_ ∈ i.destination
        · simp [hall, hnone, hmem]
        · simp [hall, hnone, hmem]

/-- A packet whose byte order is right gets its handlers, or comes back. -/
theorem handled_of_put {before t : Storages} {m : Message} {for_ : Uuid}
    (hone : m.dataId.routing.uuids = [for_])
    (hright : ¬(m.dataId.endian ≠ shareEndian ∧
      canSwap factory m.dataId (read before m.data) = false))
    (hbytes : read t m.data = if m.dataId.endian = shareEndian then read before m.data
      else swappedBytes factory m.dataId (read before m.data)) :
    Handled factory dg before t m ((putHandlers dg for_ (swappedInfo factory m.dataId)).1,
      ⟨(putHandlers dg for_ (swappedInfo factory m.dataId)).2, m.data⟩) := by
  have hproblem : problem factory dg for_ m.dataId (read before m.data) =
      (putHandlers dg for_ (swappedInfo factory m.dataId)).1 := problem_of_right hright
  rcases putHandlers_cases dg for_ (swappedInfo factory m.dataId) with
    ⟨herror, hsame⟩ | ⟨hok, c, hget, hne, hput⟩
  · refine ⟨⟨for_, hone, hproblem.symm⟩, rfl, fun h => absurd h herror, fun _ => ?_⟩
    change ∃ header endian, (putHandlers dg for_ (swappedInfo factory m.dataId)).2 = _
    rw [hsame]
    unfold swappedInfo
    split_ifs
    · exact ⟨m.dataId.what, m.dataId.endian, rfl⟩
    · exact ⟨_, _, rfl⟩
  · exact ⟨⟨for_, hone, hproblem.symm⟩, rfl, fun _ => ⟨for_, c, hone, hget, hne, hput, hbytes⟩,
      fun h => absurd hok h⟩

theorem Handled.of_read {s s' t t' : Storages} {m : Message} {r : ErrorType × Message}
    (h : Handled factory dg s t m r) (hs : read s' m.data = read s m.data)
    (ht : read t' m.data = read t m.data) : Handled factory dg s' t' m r := by
  refine ⟨?_, h.buffer, ?_, h.comesBack⟩
  · rw [hs]
    exact h.error
  · rw [hs, ht]
    exact h.goesOn

/-- A turn: what becomes of its packet, and that no packet apart from it is touched. -/
theorem turn_handled (factory : ParserFactory) (dg : RequiredDG) (l : Lists)
    (hsame : SameEntries dg l.dg) {m : Message} {for_ : Uuid}
    (hone : m.dataId.routing.uuids = [for_]) (hvalid : ∀ r ∈ m.data, r < l.storages.length) :
    ∃ r dg' t, Handled factory dg l.storages t m r ∧ SameEntries dg dg' ∧
      turn factory l m = .ok (place l dg' t r.1 r.2) ∧ t.length = l.storages.length ∧
      ∀ n, Apart m n → read t n.data = read l.storages n.data := by
  have hcreated (i : UserDataInfo) : SameEntries dg (createList l.dg i) :=
    hsame.trans (createList_same l.dg i)
  unfold turn
  rw [hone]
  rcases swapEndian_cases factory l.storages m with
    ⟨hnative, hswap⟩ | ⟨hforeign, hcan, hswap⟩ | ⟨hforeign, hcan, t, header, ht, hswap⟩
  · have hinfo : swappedInfo factory m.dataId = m.dataId := if_pos hnative
    have hhandled : Handled factory dg l.storages l.storages m _ :=
      handled_of_put hone (fun h => h.1 hnative) (if_pos hnative).symm
    rw [hinfo] at hhandled
    refine ⟨_, _, _, hhandled, hcreated m.dataId, ?_, rfl, fun n _ => rfl⟩
    rw [hswap, ← (hcreated m.dataId).putHandlers]
    rfl
  · have hbytes : read (write l.storages m.data (swappedBytes factory m.dataId
        (read l.storages m.data))) m.data =
          swappedBytes factory m.dataId (read l.storages m.data) := by
      refine read_write_self hvalid fun hnone => ?_
      rw [← List.length_eq_zero_iff, swappedBytes_length, hnone]
      rfl
    refine ⟨_, _, _, handled_of_put hone (fun h => ?_) (hbytes.trans (if_neg hforeign).symm),
      hcreated (swappedInfo factory m.dataId), ?_, length_write _ _ _,
      fun n hn => read_write_of_ne (fun heq => ?_) _⟩
    · rw [hcan] at h
      cases h.2
    · rw [hswap, ← (hcreated (swappedInfo factory m.dataId)).putHandlers]
      rfl
    · exact (hn heq).resolve_right fun h => hforeign h.1
  · refine ⟨(eCannotSwapEndian, ⟨{ m.dataId with what := header }, m.data⟩), l.dg, t, ?_, hsame,
      ?_, ?_, fun n hn => ?_⟩
    · exact ⟨⟨for_, hone, (if_pos ⟨hforeign, hcan⟩).symm⟩, rfl,
        fun h => absurd h (show eCannotSwapEndian ≠ eNoError by decide),
        fun _ => ⟨header, m.dataId.endian, rfl⟩⟩
    · rw [hswap]
      rfl
    · rcases ht with rfl | ⟨bytes, rfl⟩
      · rfl
      · exact length_write _ _ _
    · rcases ht with rfl | ⟨bytes, rfl⟩
      · rfl
      · exact read_write_of_ne (fun heq => (hn heq).resolve_right fun h => hforeign h.1) _

/-- The loop over all packets. -/
theorem turns_handled (factory : ParserFactory) (dg : RequiredDG) (ms : List Message) (l : Lists)
    (hsame : SameEntries dg l.dg)
    (hone : ∀ m ∈ ms, ∃ for_, m.dataId.routing.uuids = [for_])
    (hvalid : ∀ m ∈ ms, ∀ r ∈ m.data, r < l.storages.length) (hapart : ms.Pairwise Apart) :
    ∃ rs l', ms.foldlM (turn factory) l = .ok l' ∧ SameEntries dg l'.dg ∧
      List.Forall₂ (Handled factory dg l.storages l'.storages) ms rs ∧
      l'.fails = l.fails ++ (rs.filter fun r => r.1 ≠ eNoError).map Prod.snd ∧
      l'.to_ = l.to_ ++ (rs.filter fun r => r.1 = eNoError).map Prod.snd ∧
      l'.errors = l.errors ++ (rs.filter fun r => r.1 ≠ eNoError).map (fun r =>
        ⟨r.2.dataId, r.1⟩) ∧
      ∀ n, (∀ m ∈ ms, Apart m n) → read l'.storages n.data = read l.storages n.data := by
  induction ms generalizing l with
  | nil =>
    refine ⟨[], l, rfl, hsame, List.Forall₂.nil, ?_, ?_, ?_, fun n _ => rfl⟩
    · exact (List.append_nil _).symm
    · exact (List.append_nil _).symm
    · exact (List.append_nil _).symm
  | cons m ms ih =>
    obtain ⟨hfirst, hrest⟩ := List.pairwise_cons.1 hapart
    obtain ⟨for_, hfor⟩ := hone m List.mem_cons_self
    obtain ⟨r, dg', t, hhandled, hsame', hturn, hlength, hother⟩ :=
      turn_handled factory dg l hsame hfor (hvalid m List.mem_cons_self)
    have hplaced : (place l dg' t r.1 r.2).dg = dg' ∧ (place l dg' t r.1 r.2).storages = t := by
      unfold place
      split_ifs
      · exact ⟨rfl, rfl⟩
      · exact ⟨rfl, rfl⟩
    obtain ⟨hdg, hstorages⟩ := hplaced
    obtain ⟨rs, l', hloop, hsame'', hall, hfails, hto, herrors, hread⟩ :=
      ih (place l dg' t r.1 r.2) (hdg.symm ▸ hsame')
        (fun n hn => hone n (List.mem_cons_of_mem _ hn))
      (fun n hn => by
        rw [hstorages, hlength]
        exact hvalid n (List.mem_cons_of_mem _ hn)) hrest
    rw [hstorages] at hall hread
    have hset : (FailSend.ofInfo r.2.dataId).setError r.1 = ⟨r.2.dataId, r.1⟩ := by
      simp [FailSend.ofInfo, FailSend.setError, eNoError]
    have hlater : List.Forall₂ (Handled factory dg l.storages l'.storages) ms rs := by
      obtain ⟨hsame, hzip⟩ := List.forall₂_iff_zip.1 hall
      refine List.forall₂_iff_zip.2 ⟨hsame, fun {n q} hnq => ?_⟩
      exact (hzip hnq).of_read (hother n (hfirst n (List.of_mem_zip hnq).1)).symm rfl
    refine ⟨r :: rs, l', ?_, hsame'', List.Forall₂.cons ?_ hlater, ?_⟩
    · rw [List.foldlM_cons, hturn]
      exact hloop
    · exact hhandled.of_read rfl (hread m fun n hn => (hfirst n hn).symm)
    have hreads : ∀ n, (∀ o ∈ m :: ms, Apart o n) →
        read l'.storages n.data = read l.storages n.data := fun n hn => by
      rw [hread n fun o ho => hn o (List.mem_cons_of_mem _ ho)]
      exact hother n (hn m List.mem_cons_self)
    by_cases herror : r.1 = eNoError
    · have hplace : place l dg' t r.1 r.2 = ⟨dg', t, l.fails, l.to_ ++ [r.2], l.errors⟩ :=
        if_neg (not_not.2 herror)
      rw [hplace] at hfails hto herrors
      rw [List.filter_cons_of_neg (by simp [herror]), List.filter_cons_of_pos (by simp [herror])]
      refine ⟨hfails, ?_, herrors, hreads⟩
      rw [hto, List.map_cons, List.append_assoc]
      rfl
    · have hplace : place l dg' t r.1 r.2 =
          ⟨dg', t, l.fails ++ [r.2], l.to_, l.errors ++ [⟨r.2.dataId, r.1⟩]⟩ := by
        unfold place
        rw [if_pos herror, hset]
      rw [hplace] at hfails hto herrors
      rw [List.filter_cons_of_pos (by simp [herror]), List.filter_cons_of_neg (by simp [herror])]
      refine ⟨?_, hto, ?_, hreads⟩
      · rw [hfails, List.map_cons, List.append_assoc]
        rfl
      · rw [herrors, List.map_cons, List.append_assoc]
        rfl

/-- `MFillMsgHandlersFor` puts every packet into one of the two lists, in order: with the handlers
of its receiver, or with one report of what is wrong; the table gets empty lists at most. -/
theorem fillMsgHandlersFor_handled (factory : ParserFactory) (dg : RequiredDG) (s : Storages)
    (aFrom aTo : List Message) (aError : List FailSend)
    (hone : ∀ m ∈ aFrom, ∃ for_, m.dataId.routing.uuids = [for_])
    (hvalid : ∀ m ∈ aFrom, ∀ r ∈ m.data, r < s.length) (hapart : aFrom.Pairwise Apart) :
    ∃ dg' t rs, fillMsgHandlersFor factory dg s aFrom aTo aError =
        .ok (dg', t, (rs.filter fun r => r.1 ≠ eNoError).map Prod.snd,
          aTo ++ (rs.filter fun r => r.1 = eNoError).map Prod.snd,
          aError ++ (rs.filter fun r => r.1 ≠ eNoError).map fun r => ⟨r.2.dataId, r.1⟩) ∧
      List.Forall₂ (Handled factory dg s t) aFrom rs ∧ SameEntries dg dg' := by
  obtain ⟨rs, l', hloop, hsame, hall, hfails, hto, herrors, -⟩ :=
    turns_handled factory dg aFrom ⟨dg, s, [], aTo, aError⟩ (SameEntries.refl dg) hone hvalid hapart
  refine ⟨l'.dg, l'.storages, rs, ?_, hall, hsame⟩
  unfold fillMsgHandlersFor
  rw [hloop]
  change Except.ok (l'.dg, l'.storages, l'.fails, l'.to_, l'.errors) = _
  rw [hfails, hto, herrors]
  rfl

/-- The handlers 7 and 8 of the program 2 for the messages of type 1 of the program 1. -/
def twoHandlersTable : RequiredDG :=
  (start .empty).setExpected 1 ['p'] (SortedMap.empty.insert [1]
    ⟨SortedMap.empty.insert 2 ⟨[7, 8], [3, 3], ⟨0, 0, 0⟩, 2, rfl, by simp⟩, 2⟩)

def packetForTwo (aType : Header) (aEndian : Endian) (aData : Buffer) : Message :=
  ⟨⟨1, ['p'], 0, [], [], [], ⟨⟨1, []⟩, [2]⟩, .default, aEndian, ⟨⟨0, 0, 0⟩, aType⟩⟩, aData⟩

/-- A message of the other byte order, one that nobody handles, and one that is right. -/
def packetsForTwo : List Message :=
  [packetForTwo [1] .big (some 0), packetForTwo [6] .little (some 1),
    packetForTwo [1] .little (some 1)]

theorem fillMsgHandlersFor_handled_two :
    ∃ dg' t rs, fillMsgHandlersFor (fun _ => some numberParser) twoHandlersTable [[1, 2], [3, 4]]
          packetsForTwo [] [] =
        .ok (dg', t, (rs.filter fun r => r.1 ≠ eNoError).map Prod.snd,
          [] ++ (rs.filter fun r => r.1 = eNoError).map Prod.snd,
          [] ++ (rs.filter fun r => r.1 ≠ eNoError).map fun r => ⟨r.2.dataId, r.1⟩) ∧
      List.Forall₂ (Handled (fun _ => some numberParser) twoHandlersTable [[1, 2], [3, 4]] t)
        packetsForTwo rs ∧ SameEntries twoHandlersTable dg' :=
  fillMsgHandlersFor_handled (fun _ => some numberParser) twoHandlersTable [[1, 2], [3, 4]]
    packetsForTwo [] [] (by simp [packetsForTwo, packetForTwo])
    (by simp [packetsForTwo, packetForTwo])
    (by simp [packetsForTwo, packetForTwo, Apart, shareEndian])

example : (fillMsgHandlersFor (fun _ => some numberParser) twoHandlersTable [[1, 2], [3, 4]]
    packetsForTwo [] []).toOption.map (fun r => (r.2.1, r.2.2.1.map Message.data,
      r.2.2.2.1.map fun m => m.dataId.eventsList, r.2.2.2.2.map FailSend.error)) =
        some ([[2, 1], [3, 4]], [some 1], [[7, 8], [7, 8]], [eHandlerIsNotExist]) := by
  decide +kernel

/-- An invariant of what the cells of a table hold: what registering and unregistering keep, every
operation on a table keeps. -/
structure OfCells (I : RequiredDG → Prop) : Prop where
  congr : ∀ dg dg', (∀ s m r, dg'.cell s m r = dg.cell s m r) → I dg → I dg'
  registering : ∀ d f t s, I s.dg → I (registeringReceiverForMsg d f t s).dg
  unRegistering : ∀ d f t s, I s.dg →
    Outcome (fun _ => True) (fun s' => I s'.dg) (unRegisteringReceiverForMsg d f t s)
  erase : ∀ dg u, I dg → I { dg with whatIsSendingBy := dg.whatIsSendingBy.erase u }

namespace OfCells

variable {I : RequiredDG → Prop} {s : Patch}

theorem sendPacketFromTo (h : OfCells I) (swap : SwapHeader) (f t : Uuid) (d : DemandDg)
    (hs : I s.dg) : I (RequiredDG.sendPacketFromTo swap f t d s).dg := by
  rw [sendPacketFromTo_eq]
  have htouch : I (touch s f d.protocol).dg :=
    h.congr _ _ (fun _ _ _ => touch_cell _ _ _ _ _ _) hs
  generalize covered swap s.dg.msgsGenealogy d = es
  generalize touch s f d.protocol = s₁ at htouch
  induction es generalizing s₁ with
  | nil => exact htouch
  | cons e es ih => exact ih _ (h.registering e f t s₁ htouch)

theorem unSendPacketFromTo (h : OfCells I) (swap : SwapHeader) (f t : Uuid) (d : DemandDg)
    (hs : I s.dg) : Outcome (fun _ => True) (fun s' => I s'.dg)
      (RequiredDG.unSendPacketFromTo swap f t d s) := by
  rw [unSendPacketFromTo_eq]
  exact Outcome.foldlM (P := fun s : Patch => I s.dg)
    (h.congr _ _ (fun _ _ _ => touch_cell _ _ _ _ _ _) hs) fun s hs e _ =>
      h.unRegistering e f t s hs

theorem removeSendersOfMsgFor (h : OfCells I) (swap : SwapHeader) (r : Uuid) (ds : List DemandDg)
    (hs : I s.dg) : Outcome (fun _ => True) (fun s' => I s'.dg)
      (RequiredDG.removeSendersOfMsgFor swap r ds s) := by
  refine Outcome.foldlM (P := fun s : Patch => I s.dg) hs fun s hs d _ => ?_
  refine Outcome.bind (P := fun _ => True) (Outcome.trivial _) fun m _ => ?_
  refine Outcome.foldlM (P := fun s : Patch => I s.dg) ?_
    fun s hs u _ => h.unSendPacketFromTo swap u r d hs
  dsimp only
  split_ifs
  · exact h.congr _ _ (recorded_eraseNearest _ _ _).cell hs
  · exact hs

theorem addSendersOfMsgFor (h : OfCells I) (swap : SwapHeader) (r : Uuid) (ds : List DemandDg)
    (hs : I s.dg) : Outcome (fun _ => True) (fun s' => I s'.dg)
      (RequiredDG.addSendersOfMsgFor swap r ds s) := by
  refine Outcome.foldlM (P := fun s : Patch => I s.dg) hs fun s hs d _ => ?_
  refine Outcome.bind (P := fun _ => True) (Outcome.trivial _) fun m _ => ?_
  refine List.foldlRecOn (motive := fun s : Patch => I s.dg) m.keys _ ?_
    fun s hs u _ => h.sendPacketFromTo swap u r d hs
  dsimp only
  split_ifs
  · exact h.congr _ _ (recorded_setNearest _ _ _ _).cell hs
  · exact hs

theorem updateSendInfoFor (h : OfCells I) (swap : SwapHeader) (added removed : List WayInfo)
    (hs : I s.dg) : Outcome (fun _ => True) (fun s' => I s'.dg)
      (RequiredDG.updateSendInfoFor swap added removed s) := by
  unfold RequiredDG.updateSendInfoFor
  refine Outcome.bind (P := fun s : Patch => I s.dg)
    (Outcome.foldlM (P := fun s : Patch => I s.dg) hs
      fun s hs w _ => h.unSendPacketFromTo swap w.from_ w.for_ w.what hs) fun s hs => ?_
  exact List.foldlRecOn (motive := fun s : Patch => I s.dg) added _ hs
    fun s hs w _ => h.sendPacketFromTo swap w.from_ w.for_ w.what hs

theorem takeIntoAccount (h : OfCells I) (u : Uuid) (added removed : List WayInfo)
    {dg : RequiredDG} (hs : I dg) : Outcome (fun _ => True) (fun res => I res.2.2)
      (takeIntoAccountOnlyNearestSendersIfNeed u added removed dg) := by
  refine Outcome.bind (removeSenderIfNeed_from added dg) ?_
  rintro ⟨added', evicted, dg₁⟩ ⟨-, hrec₁⟩
  refine Outcome.bind (addSenderIfNeed_from u removed dg₁) ?_
  rintro ⟨promoted, dg₂⟩ ⟨-, hrec₂⟩
  exact h.congr _ _ (hrec₁.trans hrec₂).cell hs

theorem removeAllSendersOfMsgsFor (h : OfCells I) (swap : SwapHeader) (u : Uuid) (hs : I s.dg) :
    Outcome (fun _ => True) (fun s' => I s'.dg)
      (RequiredDG.removeAllSendersOfMsgsFor swap u s) := by
  unfold RequiredDG.removeAllSendersOfMsgsFor
  cases s.dg.dgs.find u with
  | none => exact hs
  | some ds => exact h.removeSendersOfMsgFor swap u ds (h.congr s.dg _ (fun _ _ _ => rfl) hs)

theorem removeAllReceiversForMsgsFrom (h : OfCells I) (swap : SwapHeader) (aFrom : Id)
    (hs : I s.dg) : Outcome (fun _ => True) (fun s' => I s'.dg)
      (RequiredDG.removeAllReceiversForMsgsFrom swap aFrom s) := by
  rw [removeAllReceiversForMsgsFrom_eq]
  refine Outcome.bind (P := fun _ => True) (Outcome.trivial _) fun ws _ => ?_
  refine Outcome.bind (h.takeIntoAccount aFrom.uuid [] ws hs) ?_
  rintro ⟨added, removed, dg⟩ hdg
  refine Outcome.bind (h.updateSendInfoFor swap added removed (s := { s with dg := dg }) hdg)
    fun s' hs' => ?_
  exact h.erase _ _ hs'

/-- Every operation keeps what the cells are. -/
theorem apply (h : OfCells I) (swap : SwapHeader) (op : Op) {dg : RequiredDG} (hdg : I dg) :
    Outcome (fun _ => True) (fun s => I s.dg) (RequiredDG.apply swap op dg) := by
  cases op with
  | addClient aId =>
    refine Outcome.bind (P := fun s : Patch => I s.dg) ?_ fun s hs => ?_
    · refine Outcome.bind (P := fun _ => True) (Outcome.trivial _) fun ws _ => ?_
      refine Outcome.bind (h.takeIntoAccount aId.uuid ws [] hdg) ?_
      rintro ⟨added, removed, dg'⟩ hdg'
      exact h.updateSendInfoFor swap added removed hdg'
    · split_ifs
      · exact True.intro
      · exact h.congr s.dg _ (fun _ _ _ => rfl) hs
  | removeClient aUuid =>
    change Outcome _ _ (removeClient swap aUuid dg)
    unfold removeClient
    cases dg.ids.find aUuid with
    | none => exact hdg
    | some name =>
      dsimp only
      split_ifs
      · refine Outcome.bind (h.removeAllSendersOfMsgsFor swap aUuid
          (s := ⟨dg, .empty, .empty⟩) hdg) fun s hs => ?_
        refine Outcome.bind (h.removeAllReceiversForMsgsFrom swap ⟨aUuid, name⟩ hs)
          fun s hs => ?_
        exact h.congr s.dg _ (fun _ _ _ => rfl) hs
      · exact hdg
  | setDemandsDGFor aFor aReqDgs =>
    change Outcome _ _ (setDemandsDGFor swap aFor aReqDgs dg)
    unfold setDemandsDGFor
    split_ifs
    · exact h.removeAllSendersOfMsgsFor swap aFor hdg
    · refine Outcome.bind (h.removeSendersOfMsgFor swap aFor _
        (h.congr dg _ (fun _ _ _ => rfl) hdg)) fun s hs => ?_
      exact h.addSendersOfMsgFor swap aFor _ hs

end OfCells

def Populated (dg : RequiredDG) : Prop := ∀ s m r c, dg.cell s m r = some c → c.handlers ≠ []

theorem addHandler_ne_nil (c : MsgHandlers) (d : DemandDg) : (c.addHandler d).2.handlers ≠ [] := by
  have hput (c : MsgHandlers) (h p : ℕ) : (c.put h p).handlers ≠ [] := fun hnil => by
    have hperm := c.put_perm h p
    rw [hnil] at hperm
    cases hperm.nil_eq
  rw [MsgHandlers.addHandler_handlers]
  unfold MsgHandlers.place
  cases hi : c.handlers.idxOf? d.handler with
  | none => exact hput _ _ _
  | some i =>
    dsimp only
    split_ifs
    · exact hput _ _ _
    · intro hnil
      rw [hnil] at hi
      cases hi

theorem populated_ofCells : OfCells Populated where
  congr := fun dg dg' hsame h s m r c hc => h s m r c (by rw [← hsame]; exact hc)
  registering := fun d f t s h u m r c hc => by
    rw [registering_cell] at hc
    split_ifs at hc with hself
    · obtain rfl := Option.some.inj hc
      exact addHandler_ne_nil _ d
    · exact h u m r c hc
  unRegistering := fun d f t s h => by
    cases hcell : s.dg.cell f d.msg t with
    | none =>
      obtain ⟨s', hs', -, hsame, -⟩ := unRegistering_idle (d := d) (by rw [hcell]; trivial)
      rw [hs']
      exact fun u m r c hc => h u m r c (by rw [← hsame]; exact hc)
    | some c =>
      cases hc : c.removeHandler d with
      | error e =>
        unfold unRegisteringReceiverForMsg
        change ((s.dg.expectedFor f d.protocol).find d.what.messageHeader).bind _ = some c at hcell
        cases hr : (s.dg.expectedFor f d.protocol).find d.what.messageHeader with
        | none =>
          rw [hr] at hcell
          cases hcell
        | some x =>
          rw [hr, Option.bind_some] at hcell
          simp only [hr, hcell, hc]
          trivial
      | ok res =>
        obtain ⟨b, c'⟩ := res
        obtain ⟨s', hs', -, hsame, -⟩ := unRegistering_present hcell hc
        rw [hs']
        intro u m r x hx
        rw [hsame] at hx
        split_ifs at hx with hself hnil
        · obtain rfl := Option.some.inj hx
          exact hnil
        · exact h u m r x hx
  erase := fun dg v h s m r c hc => h s m r c (by
    unfold cell expectedFor at hc ⊢
    dsimp only at hc
    rw [SortedMap.find_erase] at hc
    split_ifs at hc
    · cases hc
    · exact hc)

open ReceiverStage (Kernel Went senderOf uuidsFor AllContiguous messageShare)

/-- What is done with the table; `free` is the end of the packets that came back and had the storage
of the data buffered for a stream. -/
inductive StageOp where
  | change (op : Op)
  | receive (aFrom : List UserData)
  | free (aFrom : Uuid) (aProtocol : Text)

inductive Failure where
  | table (a : Abort)
  | stage (a : ReceiverStage.StageAbort)

def StageOp.apply (swap : SwapHeader) (parsers : ReceiverStage.ParserFactory) (op : StageOp)
    (k : Kernel) : Except Failure Kernel :=
  match op with
  | .change op => do
    let s ← (RequiredDG.apply swap op k.dg).mapError .table
    return { k with dg := s.dg }
  | .receive aFrom => do
    let r ← (ReceiverStage.fillMsgReceivers parsers k aFrom [] []).mapError .stage
    return r.1
  | .free aFrom aProtocol => .ok (k.setShared aFrom aProtocol none)

def msgOf (i : UserDataInfo) : RequiredDG.Msg := (protocolOf i, i.what.messageHeader)

theorem expectedFor_eq (k : Kernel) (s : Uuid) (t : Text) :
    k.dg.expectedFor s t = (k.routing s t).expected := by
  unfold expectedFor Kernel.routing
  cases (k.dg.whatIsSendingBy.find s).bind fun protocols => protocols.find ⟨t⟩ with
  | none => rfl
  | some r => rfl

theorem uuidsFor_eq (k : Kernel) (m : UserData) :
    uuidsFor k m = k.dg.expectedFor (senderOf m) (protocolOf m.dataId) := by
  unfold uuidsFor protocolOf
  split_ifs
  · exact (expectedFor_eq k _ _).symm
  · exact (expectedFor_eq k _ _).symm

structure Filled (k : Kernel) (m x y : UserData) : Prop where
  eq : y = ReceiverStage.filled
    (ReceiverStage.getUuidsOfReceivers (uuidsFor k m) x.dataId.what) x
  routing : x.dataId.routing = m.dataId.routing
  protocol : x.dataId.protocol = m.dataId.protocol

theorem mem_messageShare {aUuids : ExpectingDg} {x y : UserData}
    (h : y ∈ (messageShare aUuids x).out) :
    y = ReceiverStage.filled (ReceiverStage.getUuidsOfReceivers aUuids x.dataId.what) x := by
  unfold messageShare at h
  dsimp only at h
  split_ifs at h
  · cases h
  · exact List.mem_singleton.1 h
  · cases h

theorem mem_out {parsers : ReceiverStage.ParserFactory} {k k' : Kernel} {m y : UserData}
    {s : ReceiverStage.Share} {xs : List UserData} (h : Went parsers k m s xs k') (hy : y ∈ s.out) :
    ∃ x, Filled k m x y := by
  have huser (hraw : isRaw m.dataId = false) :
      ReceiverStage.expectedOf k m = uuidsFor k m := by
    unfold uuidsFor
    rw [if_neg (by rw [hraw]; exact Bool.false_ne_true)]
  cases h with
  | empty hdata => cases hy
  | raw hdata hraw =>
    refine ⟨m, ?_, rfl, rfl⟩
    unfold uuidsFor
    rw [if_pos hraw]
    exact mem_messageShare hy
  | unexpected hdata hraw hexpected => cases hy
  | known hdata hraw hexpected hknown =>
    refine ⟨{ m with dataId := { m.dataId with dataOffset := 0 } }, ?_, rfl, rfl⟩
    rw [← huser hraw]
    exact mem_messageShare hy
  | noParser hdata hraw hexpected hknown hp => cases hy
  | waits hdata hraw hexpected hknown hp hnone i => cases hy
  | found hdata hraw hexpected hknown hp ps hps hne hfound msgId =>
    rcases List.mem_append.1 hy with hy | hy
    · rw [ReceiverStage.Share.joined_out] at hy
      obtain ⟨s, hs, hy⟩ := List.mem_flatMap.1 hy
      obtain ⟨q, -, rfl⟩ := List.mem_map.1 hs
      cases hy
    · rw [ReceiverStage.Share.joined_out] at hy
      obtain ⟨s, hs, hy⟩ := List.mem_flatMap.1 hy
      obtain ⟨q, hq, rfl⟩ := List.mem_map.1 hs
      obtain ⟨number, hid⟩ := (hfound q (List.mem_of_mem_filter hq)).id
      refine ⟨q.2, ?_, ?_, ?_⟩
      · rw [← huser hraw]
        exact mem_messageShare hy
      · rw [hid]
      · rw [hid]

/-- A receiver that a message goes on to has handlers, and is named when one of them is real. -/
theorem Filled.cell {k : Kernel} {m x y : UserData} (h : Filled k m x y)
    (hunrouted : m.dataId.routing.uuids = []) {u : Uuid} (hu : u ∈ y.dataId.routing.uuids) :
    ∃ c, k.dg.cell (senderOf y) (msgOf y.dataId) u = some c ∧
      (0 < c.real → u ∈ y.dataId.destination) := by
  obtain ⟨rfl, hrouting, hprotocol⟩ := h
  have hnone : x.dataId.routing.uuids = [] := by rw [hrouting, hunrouted]
  obtain ⟨c, htaken⟩ := (mem_routing hnone).1 hu
  refine ⟨c, ?_, fun hreal => mem_destination.2 ⟨c, htaken, hreal⟩⟩
  have hfind := (mem_taken.1 htaken).1
  rw [uuidsFor_eq] at hfind
  have hsender : senderOf m = x.dataId.routing.from_.uuid := by
    unfold senderOf
    rw [hrouting]
  have hsame : protocolOf m.dataId = protocolOf x.dataId := by
    unfold protocolOf isRaw
    rw [hprotocol]
  rw [hsender, hsame] at hfind
  change ((k.dg.expectedFor x.dataId.routing.from_.uuid (protocolOf x.dataId)).find
    x.dataId.what.messageHeader).bind _ = some c
  unfold ReceiverStage.getUuidsOfReceivers at hfind
  cases hmsg : (k.dg.expectedFor x.dataId.routing.from_.uuid (protocolOf x.dataId)).find
      x.dataId.what.messageHeader with
  | none =>
    rw [hmsg] at hfind
    cases hfind
  | some r =>
    rw [hmsg] at hfind
    exact hfind

theorem getHandlers_of_cell {dg : RequiredDG} {i : UserDataInfo} {u : Uuid} {c : MsgHandlers}
    (h : dg.cell i.routing.from_.uuid (msgOf i) u = some c) (hne : c.handlers ≠ []) :
    getHandlers dg i u = some c := by
  have hfound : ((dg.expectedFor i.routing.from_.uuid (protocolOf i)).find
      i.what.messageHeader).bind (fun r => r.receivers.find u) = some c := h
  have hexpected : (dg.expectedFor i.routing.from_.uuid (protocolOf i)).entries ≠ [] :=
    fun hnil => by
      obtain ⟨r, hr, -⟩ := Option.bind_eq_some_iff.1 hfound
      have hmem := (SortedMap.mem_entries_iff _ _ _).2 hr
      rw [hnil] at hmem
      cases hmem
  unfold getHandlers
  dsimp only
  rw [if_neg hexpected, hfound]
  exact if_neg hne

theorem putHandlers_of_cell {dg : RequiredDG} {i : UserDataInfo} {u : Uuid} {c : MsgHandlers}
    (h : dg.cell i.routing.from_.uuid (msgOf i) u = some c) (hne : c.handlers ≠ [])
    (hnamed : 0 < c.real → u ∈ i.destination) :
    putHandlers dg u i = (eNoError, { i with eventsList := c.handlers }) := by
  unfold putHandlers
  rw [getHandlers_of_cell h hne]
  dsimp only
  split_ifs with honly hnot
  · rfl
  · rfl
  · rw [Bool.or_eq_true, not_or] at honly
    have hreal : c.real ≠ 0 := fun hzero => honly.2 (decide_eq_true hzero)
    exact absurd (hnamed (Nat.pos_of_ne_zero hreal)) hnot

def HasHandlers (dg : RequiredDG) (u : Uuid) (m d : Message) : Prop :=
  ∃ c, dg.cell m.dataId.routing.from_.uuid (msgOf m.dataId) u = some c ∧ c.handlers ≠ [] ∧
    d = { m with dataId := { m.dataId with eventsList := c.handlers } }

def Ready (dg : RequiredDG) (u : Uuid) (i : UserDataInfo) : Prop :=
  i.endian = shareEndian ∧ i.routing.uuids = [u] ∧
    ∃ c, dg.cell i.routing.from_.uuid (msgOf i) u = some c ∧ (0 < c.real → u ∈ i.destination)

theorem turn_ready (ext : ParserFactory) {dg : RequiredDG} (hdg : Populated dg) {u : Uuid}
    {m : Message} (h : Ready dg u m.dataId) (l : Lists) (hsame : SameEntries dg l.dg) :
    ∃ dg' d, turn ext l m = .ok { l with dg := dg', to_ := l.to_ ++ [d] } ∧ SameEntries dg dg' ∧
      HasHandlers dg u m d := by
  obtain ⟨hnative, hone, c, hcell, hnamed⟩ := h
  have hne := hdg _ _ _ _ hcell
  have hcreated := hsame.trans (createList_same l.dg m.dataId)
  refine ⟨_, _, ?_, hcreated, c, hcell, hne, rfl⟩
  have hswap : swapEndian ext l.storages m = (eNoError, l.storages, m) := if_neg (not_not.2 hnative)
  unfold turn
  rw [hone]
  dsimp only
  rw [hswap]
  dsimp only
  rw [hcreated.putHandlers, putHandlers_of_cell hcell hne hnamed]
  rfl

theorem turns_ready (ext : ParserFactory) {dg : RequiredDG} (hdg : Populated dg) {u : Uuid}
    (ms : List Message) (h : ∀ m ∈ ms, Ready dg u m.dataId) (l : Lists)
    (hsame : SameEntries dg l.dg) :
    ∃ dg' ds, ms.foldlM (turn ext) l = .ok { l with dg := dg', to_ := l.to_ ++ ds } ∧
      SameEntries dg dg' ∧ List.Forall₂ (HasHandlers dg u) ms ds := by
  induction ms generalizing l with
  | nil =>
    refine ⟨l.dg, [], ?_, hsame, List.Forall₂.nil⟩
    rw [List.append_nil]
    rfl
  | cons m ms ih =>
    obtain ⟨dg₁, d, hturn, hsame₁, hd⟩ := turn_ready ext hdg (h m List.mem_cons_self) l hsame
    obtain ⟨dg₂, ds, hturns, hsame₂, hds⟩ := ih (fun n hn => h n (List.mem_cons_of_mem _ hn))
      { l with dg := dg₁, to_ := l.to_ ++ [d] } hsame₁
    refine ⟨dg₂, d :: ds, ?_, hsame₂, List.Forall₂.cons hd hds⟩
    rw [List.foldlM_cons, hturn]
    change ms.foldlM (turn ext) { l with dg := dg₁, to_ := l.to_ ++ [d] } = _
    rw [hturns, List.append_assoc]
    rfl

section
variable {parsers : ReceiverStage.ParserFactory} {swap : SwapHeader} {k k' : Kernel}

theorem allWent_cell {ms : List UserData} {ss : List ReceiverStage.Share}
    {xss : List (List UserData)} (h : ReceiverStage.AllWent parsers k ms ss xss k') (s : Uuid)
    (m : RequiredDG.Msg) (r : Uuid) : k'.dg.cell s m r = k.dg.cell s m r := by
  unfold RequiredDG.cell
  rw [expectedFor_eq, expectedFor_eq, h.expected]

theorem receive_cell (hparsers : AllContiguous parsers) {aFrom : List UserData}
    (h : StageOp.apply swap parsers (.receive aFrom) k = .ok k') (s : Uuid)
    (m : RequiredDG.Msg) (r : Uuid) : k'.dg.cell s m r = k.dg.cell s m r := by
  obtain ⟨k₁, ss, xss, back, hfill, hall, -⟩ :=
    ReceiverStage.fillMsgReceivers_went hparsers k aFrom [] []
  dsimp only [StageOp.apply] at h
  rw [hfill] at h
  cases h
  exact allWent_cell hall s m r

theorem receives_cell (hparsers : AllContiguous parsers) {ops : List StageOp}
    (hops : ∀ op ∈ ops, ∀ c, op ≠ .change c)
    (h : runAll (StageOp.apply swap parsers) ops k = .ok k') (s : Uuid)
    (m : RequiredDG.Msg) (r : Uuid) : k'.dg.cell s m r = k.dg.cell s m r := by
  induction ops generalizing k with
  | nil =>
    cases h
    rfl
  | cons op ops ih =>
    rw [runAll_cons] at h
    obtain ⟨k₁, hop, hrest⟩ := eq_ok_of_bind h
    rw [ih (fun o ho => hops o (List.mem_cons_of_mem _ ho)) hrest]
    cases op with
    | change c => exact absurd rfl (hops _ List.mem_cons_self c)
    | receive ms => exact receive_cell hparsers hop s m r
    | free u t =>
      cases hop
      rfl

theorem apply_populated (hparsers : AllContiguous parsers) (op : StageOp) (hk : Populated k.dg) :
    Outcome (fun _ => True) (fun k' : Kernel => Populated k'.dg)
      (StageOp.apply swap parsers op k) := by
  cases op with
  | change op =>
    have happly := populated_ofCells.apply swap op hk
    dsimp only [StageOp.apply]
    cases hs : RequiredDG.apply swap op k.dg with
    | error e => trivial
    | ok s =>
      rw [hs] at happly
      exact happly
  | receive aFrom =>
    cases hs : StageOp.apply swap parsers (.receive aFrom) k with
    | error e => trivial
    | ok k' => exact populated_ofCells.congr k.dg k'.dg (receive_cell hparsers hs) hk
  | free aFrom aProtocol => exact hk

theorem run_populated (hparsers : AllContiguous parsers) {ops : List StageOp}
    (hk : Populated k.dg) (h : runAll (StageOp.apply swap parsers) ops k = .ok k') :
    Populated k'.dg := by
  have hevery : EveryStep (StageOp.apply swap parsers) (fun _ _ => True) ops k :=
    everyStep_of_forall (fun _ _ => trivial) ops k
  have hrun := runAll_outcome (I := fun k : Kernel => Populated k.dg) (E := fun _ => True)
    (fun k op hk _ => apply_populated hparsers op hk) hk hevery
  rw [h] at hrun
  exact hrun

theorem allWent_out {ms : List UserData} {ss : List ReceiverStage.Share}
    {xss : List (List UserData)} (h : ReceiverStage.AllWent parsers k ms ss xss k') {y : UserData}
    (hy : y ∈ ss.flatMap ReceiverStage.Share.out) :
    ∃ m ∈ ms, ∃ k₁ x, Filled k₁ m x y ∧ ∀ s m r, k₁.dg.cell s m r = k.dg.cell s m r := by
  induction h with
  | nil k => cases hy
  | @cons k k₁ k₂ m ms s ss xs xss h rest ih =>
    rw [List.flatMap_cons] at hy
    rcases List.mem_append.1 hy with hy | hy
    · obtain ⟨x, hx⟩ := mem_out h hy
      exact ⟨m, List.mem_cons_self, k, x, hx, fun _ _ _ => rfl⟩
    · obtain ⟨n, hn, k₃, x, hx, hcell⟩ := ih hy
      refine ⟨n, List.mem_cons_of_mem _ hn, k₃, x, hx, fun s m r => ?_⟩
      rw [hcell, allWent_cell (.cons h (.nil k₁))]

end

/-- Two programs are known, one of them handles the messages of the other one, and a part of a
message has come. -/
def stageOps : List StageOp :=
  [.change (.addClient ⟨2, ['b']⟩), .change (.addClient ⟨1, ['a']⟩),
    .change (.setDemandsDGFor 1 [demandOf ['b'] 7 false]),
    .receive [⟨⟨1, ['p'], 0, [], [], [], ⟨⟨2, ['b']⟩, []⟩, .default, shareEndian,
      ⟨⟨0, 0, 0⟩, List.replicate 8 0⟩⟩, [1]⟩]]

def restPacket : UserData :=
  ⟨⟨2, ['p'], 0, [], [], [], ⟨⟨2, ['b']⟩, []⟩, .default, shareEndian,
    ⟨⟨0, 0, 0⟩, List.replicate 8 0⟩⟩, [5]⟩

/-- Both halves of the message go on to the program 1 and its handler 7. -/
example : (do
    let k ← (runAll (StageOp.apply noSwap ReceiverStage.pairFactory) stageOps
      ⟨start .empty, 0, fun _ => none, fun _ _ => none⟩).toOption
    let r ← (ReceiverStage.fillMsgReceivers ReceiverStage.pairFactory k [restPacket] [] []).toOption
    let y ← r.2.2.1.head?
    let h ← (fillMsgHandlersFor (fun _ => none) r.1.dg [y.data]
      [⟨setRouting y.dataId [1], some 0⟩] [] []).toOption
    return (y.data, y.dataId.routing.uuids, h.2.2.2.1.map fun m => m.dataId.eventsList)) =
      some ([1, 5], [1], [[7]]) := by
  decide +kernel

end UdtKernel.HandlerStage
