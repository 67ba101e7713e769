import UdtKernel.Lib.Incremental
import UdtKernel.RequiredDG.ReceiverStage

set_option autoImplicit false

/-! What becomes of each packet that is given its receivers: its messages go on or come back, and
the data of a sender is cut into messages as if it came at once. -/

namespace UdtKernel.ReceiverStage
open UdtKernel.Lib UdtKernel.RequiredDG UdtKernel.Extract
open UdtKernel.SwapEndian (isRaw rawProtocolName)

structure Share where
  out : List UserData
  back : List UserData
  reports : List FailSend

namespace Share

def none : Share := ⟨[], [], []⟩

def append (s t : Share) : Share := ⟨s.out ++ t.out, s.back ++ t.back, s.reports ++ t.reports⟩

def joined (ss : List Share) : Share := ss.foldr append none

theorem joined_out (ss : List Share) : (joined ss).out = ss.flatMap out := by
  induction ss with
  | nil => rfl
  | cons s ss ih =>
    rw [List.flatMap_cons, ← ih]
    rfl

theorem joined_back (ss : List Share) : (joined ss).back = ss.flatMap back := by
  induction ss with
  | nil => rfl
  | cons s ss ih =>
    rw [List.flatMap_cons, ← ih]
    rfl

theorem joined_reports (ss : List Share) : (joined ss).reports = ss.flatMap reports := by
  induction ss with
  | nil => rfl
  | cons s ss ih =>
    rw [List.flatMap_cons, ← ih]
    rfl

theorem append_none (s : Share) : s.append none = s := by
  simp only [append, none, List.append_nil]

end Share

namespace Lists

def add (l : Lists) (s : Share) : Lists :=
  ⟨l.sent ++ s.out, l.to_ ++ s.back, l.fails ++ s.reports, l.overwritten⟩

theorem add_none (l : Lists) : l.add .none = l := by
  simp only [add, Share.none, List.append_nil]

theorem add_append (l : Lists) (s t : Share) : l.add (s.append t) = (l.add s).add t := by
  simp only [add, Share.append, List.append_assoc]

theorem overwrite_nil (l : Lists) : l.overwrite [] = l := by
  simp only [overwrite, List.append_nil]

theorem overwrite_append (l : Lists) (ws ws' : List (ℕ × List Byte)) :
    l.overwrite (ws ++ ws') = (l.overwrite ws).overwrite ws' := by
  simp only [overwrite, List.append_assoc]

theorem overwrite_add (l : Lists) (ws : List (ℕ × List Byte)) (s : Share) :
    (l.overwrite ws).add s = (l.add s).overwrite ws := rfl

theorem comingBack_of_nil {l : Lists} (h : l.overwritten = []) : l.comingBack = l.to_ := by
  unfold comingBack
  rw [h]
  rfl

end Lists

/-- There are receivers, one of them a real one. -/
def isRequired (ru : ReceiversOfMsg) : Bool := ru.receivers.entries ≠ [] && 0 < ru.numberOfReal

def filled (ru : ReceiversOfMsg) (x : UserData) : UserData :=
  { x with dataId := sortReceivers (filledInfo ru x.dataId) }

def messageShare (aUuids : ExpectingDg) (x : UserData) : Share :=
  let ru := getUuidsOfReceivers aUuids x.dataId.what
  if isRequired ru then
    if (filled ru x).dataId.routing.uuids = [] then ⟨[], [filled ru x], newFails ru x.dataId⟩
    else ⟨[filled ru x], [], newFails ru x.dataId⟩
  else ⟨[], [x], []⟩

theorem fill_eq (aUuids : ExpectingDg) (x : UserData) (l : Lists) :
    l.fill (getUuidsOfReceivers aUuids x.dataId.what) x = l.add (messageShare aUuids x) := by
  unfold Lists.fill messageShare
  by_cases hrequired : isRequired (getUuidsOfReceivers aUuids x.dataId.what) = true
  · have hcond := hrequired
    unfold isRequired at hcond
    rw [if_pos hcond, if_pos hrequired, fillRouteAndDestanationInfo_eq, fails_eq]
    by_cases hnone : (filled (getUuidsOfReceivers aUuids x.dataId.what) x).dataId.routing.uuids = []
    · have hempty : (!(sortReceivers (filledInfo (getUuidsOfReceivers aUuids x.dataId.what)
          x.dataId)).routing.uuids.isEmpty) = false := by
        rw [Bool.not_eq_false', List.isEmpty_iff]
        exact hnone
      simp only [hempty, if_pos hnone]
      simp only [Lists.add, Lists.splice, List.append_nil]
      rfl
    · have hempty : (!(sortReceivers (filledInfo (getUuidsOfReceivers aUuids x.dataId.what)
          x.dataId)).routing.uuids.isEmpty) = true := by
        rw [Bool.not_eq_true', ← Bool.not_eq_true, List.isEmpty_iff]
        exact hnone
      simp only [hempty, if_neg hnone]
      simp only [Lists.add, Lists.keep, List.append_nil]
      rfl
  · have hcond := hrequired
    unfold isRequired at hcond
    rw [if_neg hcond, if_neg hrequired]
    simp only [Lists.add, Lists.splice, List.append_nil]

theorem addReceiversForMessages_eq (aUuids : ExpectingDg) (ps : List (ObtainedDg × UserData))
    (hps : ∀ p ∈ ps, p.2.dataId.what = p.1.type) (l : Lists) :
    addReceiversForMessages aUuids (ps.map Prod.fst) (ps.map Prod.snd) l =
      .ok (l.add (.joined (ps.map fun p => messageShare aUuids p.2))) := by
  induction ps generalizing l with
  | nil =>
    simp only [List.map_nil, addReceiversForMessages, Share.joined, List.foldr_nil, Lists.add_none,
      List.append_nil]
  | cons p ps ih =>
    have hp := hps p List.mem_cons_self
    simp only [List.map_cons, addReceiversForMessages]
    rw [← hp, fill_eq, ih (fun q hq => hps q (List.mem_cons_of_mem _ hq)), ← Lists.add_append]
    rfl

def errorShare (p : ObtainedDg × UserData) : Share :=
  ⟨[], [p.2], [((FailSend.ofInfo p.2.dataId).setError eCannotParseBuffer).setError
    (codeUserError p.1.errorCode)]⟩

def isGood (p : ObtainedDg × UserData) : Bool := p.1.errorCode = 0

theorem removeDataWithUserErrors_eq (ps : List (ObtainedDg × UserData)) (l : Lists) :
    removeDataWithUserErrors (ps.map Prod.fst) (ps.map Prod.snd) l =
      .ok ((ps.filter isGood).map Prod.fst, (ps.filter isGood).map Prod.snd,
        l.add (.joined ((ps.filter fun p => !isGood p).map errorShare))) := by
  induction ps generalizing l with
  | nil =>
    simp only [List.map_nil, removeDataWithUserErrors, List.filter_nil, Share.joined,
      List.foldr_nil, Lists.add_none]
  | cons p ps ih =>
    simp only [List.map_cons, removeDataWithUserErrors]
    by_cases herror : p.1.errorCode = 0
    · have hgood : isGood p = true := decide_eq_true herror
      rw [if_neg (not_not.2 herror), ih, List.filter_cons_of_pos hgood,
        List.filter_cons_of_neg (by simp [hgood])]
      rfl
    · have hgood : isGood p = false := decide_eq_false herror
      rw [if_pos herror, ih, List.filter_cons_of_neg (by simp [hgood]),
        List.filter_cons_of_pos (by simp [hgood])]
      simp only [List.map_cons, Share.joined, List.foldr_cons, Lists.add_append]
      simp only [Lists.add, Lists.splice, Lists.report, errorShare, List.append_nil]

/-- Messages that follow each other without a gap, from a place on and within a size. -/
def ContiguousFrom (size : ℕ) : ℕ → List ObtainedDg → Prop
  | at_, [] => at_ ≤ size
  | at_, m :: ms => m.begin_ = at_ ∧ at_ < m.end_ ∧ ContiguousFrom size m.end_ ms

def endOf : ℕ → List ObtainedDg → ℕ
  | at_, [] => at_
  | _, m :: ms => endOf m.end_ ms

def slice (data : List Byte) (m : ObtainedDg) : List Byte :=
  (data.drop m.begin_).take (m.end_ - m.begin_)

namespace ContiguousFrom

variable {size at_ : ℕ} {ms : List ObtainedDg}

theorem endOf_le (h : ContiguousFrom size at_ ms) : at_ ≤ endOf at_ ms ∧ endOf at_ ms ≤ size := by
  induction ms generalizing at_ with
  | nil => exact ⟨le_rfl, h⟩
  | cons m ms ih =>
    obtain ⟨-, hlt, hrest⟩ := h
    exact ⟨hlt.le.trans (ih hrest).1, (ih hrest).2⟩

theorem shrink (h : ContiguousFrom size at_ ms) : ContiguousFrom (endOf at_ ms) at_ ms := by
  induction ms generalizing at_ with
  | nil => exact le_rfl
  | cons m ms ih => exact ⟨h.1, h.2.1, ih h.2.2⟩

theorem mem (h : ContiguousFrom size at_ ms) {m : ObtainedDg} (hm : m ∈ ms) :
    m.begin_ < m.end_ ∧ m.end_ ≤ endOf at_ ms := by
  induction ms generalizing at_ with
  | nil => cases hm
  | cons n ms ih =>
    obtain ⟨hbegin, hlt, hrest⟩ := h
    rcases List.mem_cons.1 hm with rfl | hm
    · exact ⟨hbegin ▸ hlt, hrest.endOf_le.1⟩
    · exact ih hrest hm

theorem slices (data : List Byte) (h : ContiguousFrom size at_ ms) :
    ms.flatMap (slice data) ++ data.drop (endOf at_ ms) = data.drop at_ := by
  induction ms generalizing at_ with
  | nil => rfl
  | cons m ms ih =>
    obtain ⟨rfl, hlt, hrest⟩ := h
    rw [List.flatMap_cons, List.append_assoc]
    change slice data m ++ (ms.flatMap (slice data) ++ data.drop (endOf m.end_ ms)) = _
    rw [ih hrest, slice]
    have hend : data.drop m.end_ = (data.drop m.begin_).drop (m.end_ - m.begin_) := by
      rw [List.drop_drop]
      congr 1
      omega
    rw [hend, List.take_append_drop]

theorem getLast? (h : ms ≠ []) : ∃ back, ms.getLast? = some back ∧ back.end_ = endOf at_ ms := by
  induction ms generalizing at_ with
  | nil => exact absurd rfl h
  | cons m ms ih =>
    cases ms with
    | nil => exact ⟨m, rfl, rfl⟩
    | cons n ms =>
      obtain ⟨back, hback, hend⟩ := @ih m.end_ (List.cons_ne_nil _ _)
      exact ⟨back, by rw [List.getLast?_cons_cons]; exact hback, hend⟩

end ContiguousFrom

/-- What a parser promises: the messages follow each other from the first byte on. -/
def Parser.Contiguous (p : Parser) : Prop :=
  ∀ data aFrom, ContiguousFrom data.length 0 (p.parserData data aFrom)

def Parser.endIn (p : Parser) (aFrom : Uuid) (data : List Byte) : ℕ :=
  endOf 0 (p.parserData data aFrom)

theorem slice_take {data : List Byte} {n : ℕ} {m : ObtainedDg} (h : m.end_ ≤ n) :
    slice (data.take n) m = slice data m := by
  unfold slice
  rw [List.drop_take, List.take_take]
  congr 1
  omega

theorem parseData_eq {p : Parser} (hp : p.Contiguous) (aFrom : Uuid) (data : List Byte) :
    ∃ part, parseData p aFrom data =
        .ok (p.parserData data aFrom, part, data.drop (p.endIn aFrom data)) ∧
      (p.parserData data aFrom ≠ [] → part = data.take (p.endIn aFrom data)) ∧
      (p.parserData data aFrom = [] → part = data) := by
  unfold parseData
  cases hmsgs : p.parserData data aFrom with
  | nil =>
    refine ⟨data, ?_, fun h => absurd rfl h, fun _ => rfl⟩
    unfold Parser.endIn
    rw [hmsgs]
    rfl
  | cons m ms =>
    have hall := hp data aFrom
    rw [hmsgs] at hall
    obtain ⟨back, hback, hend⟩ :=
      @ContiguousFrom.getLast? 0 (m :: ms) (List.cons_ne_nil _ _)
    have hin : p.endIn aFrom data = back.end_ := by
      unfold Parser.endIn
      rw [hmsgs, hend]
    refine ⟨data.take back.end_, ?_, fun _ => by rw [hin], fun h => by cases h⟩
    simp only [List.head?_cons, hback]
    rw [if_neg (by have := hall.endOf_le; omega), if_neg (not_not.2 hall.1), hin]

structure IsFound (p : Parser) (data : UserData) (m : ObtainedDg) (x : UserData) : Prop where
  id : ∃ number, x.dataId = { data.dataId with
    packetNumber := number
    what := m.type
    dataOffset := p.dataOffset m.type }
  text : x.data = slice data.data m

theorem extractLoop_found (p : Parser) (data : UserData) (msgId : ℕ) {size at_ : ℕ}
    {ms : List ObtainedDg} (h : ContiguousFrom size at_ ms) :
    ∃ last xs, extractLoop p.dataOffset data msgId ms = .ok (last, xs) ∧
      List.Forall₂ (IsFound p data) ms xs := by
  induction ms generalizing at_ msgId with
  | nil => exact ⟨msgId, [], rfl, List.Forall₂.nil⟩
  | cons m ms ih =>
    obtain ⟨rfl, hlt, hrest⟩ := h
    obtain ⟨last, xs, hloop, hall⟩ := ih (nextPacketNumberMask msgId).1 hrest
    let x : UserData := ⟨{ data.dataId with
      packetNumber := data.dataId.packetNumber ||| (nextPacketNumberMask msgId).2
      what := m.type
      dataOffset := p.dataOffset m.type }, slice data.data m⟩
    have hx : IsFound p data m x := ⟨⟨_, rfl⟩, rfl⟩
    refine ⟨last, x :: xs, ?_, List.Forall₂.cons hx hall⟩
    simp only [extractLoop, if_pos hlt, hloop]
    rfl

theorem extract_found (p : Parser) (data : UserData) (msgId : ℕ) {ms : List ObtainedDg}
    (hne : ms ≠ []) (h : ContiguousFrom data.data.length 0 ms)
    (hend : endOf 0 ms = data.data.length) :
    ∃ last xs, extract p msgId ms data = .ok (last, xs) ∧ List.Forall₂ (IsFound p data) ms xs := by
  match ms, hne with
  | [m], _ =>
    refine ⟨msgId, _, rfl, List.Forall₂.cons ⟨⟨_, rfl⟩, ?_⟩ List.Forall₂.nil⟩
    have hbegin : m.begin_ = 0 := h.1
    have hm : m.end_ = data.data.length := hend
    unfold slice
    rw [hbegin, hm, List.drop_zero, Nat.sub_zero, List.take_length]
  | m :: n :: ms, _ =>
    obtain ⟨last, xs, hloop, hall⟩ := extractLoop_found p data msgId h
    refine ⟨last, xs, ?_, hall⟩
    have hmany : extractMessages p.dataOffset msgId (m :: n :: ms) data =
        extractLoop p.dataOffset data msgId (m :: n :: ms) := rfl
    unfold extract
    rw [hmany, hloop]

namespace Kernel

variable (k : Kernel)

theorem routing_setBuffered (u v : Uuid) (t q : Text) (b : List Byte) :
    (k.setBuffered u t b).routing v q =
      if v = u ∧ q = t then { k.routing u t with bufferedData := b } else k.routing v q := by
  unfold routing setBuffered
  dsimp only
  rw [SortedMap.find_alter]
  by_cases hv : v = u
  · subst hv
    rw [if_pos rfl, Option.bind_some, SortedMap.find_alter]
    by_cases hq : q = t
    · subst hq
      rw [if_pos rfl, if_pos ⟨rfl, rfl⟩, Option.getD_some]
      cases k.dg.whatIsSendingBy.find v <;> rfl
    · rw [if_neg fun h => hq (Protocol.mk.inj h), if_neg fun h => hq h.2]
      cases k.dg.whatIsSendingBy.find v <;> rfl
  · rw [if_neg hv, if_neg fun h => hv h.1]

theorem routing_touch (u v : Uuid) (t q : Text) : (k.touch u t).routing v q = k.routing v q := by
  unfold touch
  rw [routing_setBuffered]
  split_ifs with h
  · rw [h.1, h.2]
  · rfl

end Kernel

theorem Kernel.routing_setShared (k : Kernel) (u v : Uuid) (t q : Text) (s : Option Sharing) :
    (k.setShared u t s).routing v q = k.routing v q := rfl

def expectedOf (k : Kernel) (m : UserData) : ExpectingDg :=
  (k.routing (senderOf m) m.dataId.protocol).expected

def joinedData (k : Kernel) (m : UserData) : List Byte :=
  (appendBufferedData k (k.routing (senderOf m) m.dataId.protocol) m).1

theorem appendBufferedData_of_none {k : Kernel} {m : UserData} (h : sharingFor k m = none)
    (aRouting : DataRouting) :
    appendBufferedData k aRouting m = (aRouting.bufferedData ++ m.data, []) := by
  unfold appendBufferedData
  rw [h]
  split_ifs with hnil
  · rw [hnil]
    rfl
  · rfl

theorem joinedData_of_none {k : Kernel} {m : UserData} (h : sharingFor k m = none) :
    joinedData k m = (k.routing (senderOf m) m.dataId.protocol).bufferedData ++ m.data := by
  unfold joinedData
  rw [appendBufferedData_of_none h]

/-- The packets that get other bytes when a packet comes. -/
def overwrittenBy (k : Kernel) (m : UserData) : List (ℕ × List Byte) :=
  (appendBufferedData k (k.routing (senderOf m) m.dataId.protocol) m).2

theorem overwrittenBy_of_none {k : Kernel} {m : UserData} (h : sharingFor k m = none) :
    overwrittenBy k m = [] := by
  unfold overwrittenBy
  rw [appendBufferedData_of_none h]

/-- The kernel when a packet was parsed: what is buffered then, and which packet has it, too. -/
def parsedKernel (k : Kernel) (p : Parser) (m : UserData) (s : Option Sharing) : Kernel :=
  ((k.touch (senderOf m) m.dataId.protocol).setBuffered (senderOf m) m.dataId.protocol
    ((joinedData k m).drop (p.endIn (senderOf m) (joinedData k m)))).setShared (senderOf m)
      m.dataId.protocol s

def foundShare (aUuids : ExpectingDg) (ps : List (ObtainedDg × UserData)) : Share :=
  (Share.joined ((ps.filter fun p => !isGood p).map errorShare)).append
    (Share.joined ((ps.filter isGood).map fun p => messageShare aUuids p.2))

/-- All that can become of a packet, with the messages that were found in it. -/
inductive Went (factory : ParserFactory) (k : Kernel) (m : UserData) :
    Share → List UserData → Kernel → Prop where
  | empty (hdata : m.data = []) : Went factory k m ⟨[], [m], [FailSend.ofRouting m.dataId
      m.dataId.destination eUnknownError]⟩ [] k
  | raw (hdata : m.data ≠ []) (hraw : isRaw m.dataId = true) : Went factory k m
      (messageShare (k.routing (senderOf m) rawProtocolName).expected m) []
      (k.touch (senderOf m) rawProtocolName)
  | unexpected (hdata : m.data ≠ []) (hraw : isRaw m.dataId = false)
      (hexpected : (expectedOf k m).entries = []) :
      Went factory k m ⟨[], [m], []⟩ [] (k.touch (senderOf m) m.dataId.protocol)
  | known (hdata : m.data ≠ []) (hraw : isRaw m.dataId = false)
      (hexpected : (expectedOf k m).entries ≠ []) (hknown : isMsgExist m.dataId = true) :
      Went factory k m
        (messageShare (expectedOf k m) { m with dataId := { m.dataId with dataOffset := 0 } }) []
        (k.touch (senderOf m) m.dataId.protocol)
  | noParser (hdata : m.data ≠ []) (hraw : isRaw m.dataId = false)
      (hexpected : (expectedOf k m).entries ≠ []) (hknown : isMsgExist m.dataId = false)
      (hp : factory m.dataId.protocol = none) :
      Went factory k m ⟨[], [m], [FailSend.ofRouting m.dataId m.dataId.destination
        eParserIsNotExist]⟩ [] (k.touch (senderOf m) m.dataId.protocol)
  | waits (hdata : m.data ≠ []) (hraw : isRaw m.dataId = false)
      (hexpected : (expectedOf k m).entries ≠ []) (hknown : isMsgExist m.dataId = false)
      {p : Parser} (hp : factory m.dataId.protocol = some p)
      (hnone : p.parserData (joinedData k m) (senderOf m) = []) (i : ℕ) :
      Went factory k m ⟨[], [{ m with data := joinedData k m }], []⟩ []
        (parsedKernel k p m ((k.memory m).map (Sharing.mk (some i))))
  | found (hdata : m.data ≠ []) (hraw : isRaw m.dataId = false)
      (hexpected : (expectedOf k m).entries ≠ []) (hknown : isMsgExist m.dataId = false)
      {p : Parser} (hp : factory m.dataId.protocol = some p) (ps : List (ObtainedDg × UserData))
      (hps : ps.map Prod.fst = p.parserData (joinedData k m) (senderOf m)) (hne : ps ≠ [])
      (hfound : ∀ q ∈ ps, IsFound p { m with data := joinedData k m } q.1 q.2) (msgId : ℕ) :
      Went factory k m (foundShare (expectedOf k m) ps) (ps.map Prod.snd)
        { parsedKernel k p m none with msgId := msgId }

theorem messageShare_of_empty {aUuids : ExpectingDg} (h : aUuids.entries = []) (x : UserData) :
    messageShare aUuids x = ⟨[], [x], []⟩ := by
  have hnone : aUuids.find x.dataId.what.messageHeader = none := by
    rw [Option.eq_none_iff_forall_not_mem]
    intro r hr
    have hmem := (aUuids.mem_entries_iff _ _).2 hr
    rw [h] at hmem
    cases hmem
  unfold messageShare getUuidsOfReceivers
  rw [hnone]
  rfl

theorem fillByRawProtocol_eq (k : Kernel) (m : UserData) (l : Lists) :
    fillByRawProtocol k [m] l = (k.touch (senderOf m) rawProtocolName,
      l.add (messageShare (k.routing (senderOf m) rawProtocolName).expected m)) := by
  simp only [fillByRawProtocol]
  split_ifs with hexpected
  · rw [messageShare_of_empty hexpected]
    simp only [Lists.add, Lists.splice, List.append_nil]
  · rw [fill_eq]

theorem knownTurn_eq (aUuids : ExpectingDg) (m : UserData) (l : Lists) :
    knownTurn aUuids m l = .ok (l.add
      (messageShare aUuids { m with dataId := { m.dataId with dataOffset := 0 } })) := by
  unfold knownTurn
  simp only [addReceiversForMessages, List.append_nil]
  exact congrArg Except.ok
    (fill_eq aUuids { m with dataId := { m.dataId with dataOffset := 0 } } l)

/-- The messages that are left of a packet get their receivers, the other ones are reported. -/
theorem foundTurn_eq (p : Parser) (aUuids : ExpectingDg) (k : Kernel) (m : UserData) (l : Lists)
    {msgs : List ObtainedDg} (hne : msgs ≠ []) (h : ContiguousFrom m.data.length 0 msgs)
    (hend : endOf 0 msgs = m.data.length) :
    ∃ ps msgId is, foundTurn p aUuids k msgs m l =
        .ok ({ k with msgId := msgId }, l.add (foundShare aUuids ps), is) ∧
      ps.map Prod.fst = msgs ∧ ∀ q ∈ ps, IsFound p m q.1 q.2 := by
  obtain ⟨msgId, xs, hextract, hall⟩ := extract_found p m k.msgId hne h hend
  have hlength := hall.length_eq
  have hfst : (msgs.zip xs).map Prod.fst = msgs := List.map_fst_zip hlength.le
  have hsnd : (msgs.zip xs).map Prod.snd = xs := List.map_snd_zip hlength.ge
  have hfound : ∀ q ∈ msgs.zip xs, IsFound p m q.1 q.2 := fun q hq =>
    (List.forall₂_iff_zip.1 hall).2 hq
  have hremove := removeDataWithUserErrors_eq (msgs.zip xs) l
  rw [hfst, hsnd] at hremove
  have hadd := addReceiversForMessages_eq aUuids ((msgs.zip xs).filter isGood) (fun q hq => by
    obtain ⟨number, hid⟩ := (hfound q (List.mem_of_mem_filter hq)).id
    rw [hid])
  unfold foundTurn
  rw [hextract]
  change ∃ ps id is, (removeDataWithUserErrors msgs xs l >>= _) = _ ∧ _
  rw [hremove]
  by_cases hleft : ((msgs.zip xs).filter isGood).map Prod.fst = []
  · have hnone : (msgs.zip xs).filter isGood = [] := List.map_eq_nil_iff.1 hleft
    refine ⟨msgs.zip xs, msgId, true, (if_pos hleft).trans ?_, hfst, hfound⟩
    unfold foundShare
    rw [hnone]
    exact congrArg (fun s => Except.ok (_, l.add s, true)) (Share.append_none _).symm
  · refine ⟨msgs.zip xs, msgId, false, (if_neg hleft).trans ?_, hfst, hfound⟩
    rw [hadd, ← Lists.add_append]
    rfl

variable {factory : ParserFactory}

def AllContiguous (factory : ParserFactory) : Prop :=
  ∀ t p, factory t = some p → p.Contiguous

theorem parsedTurn_went (k : Kernel) {m : UserData} (hdata : m.data ≠ [])
    (hraw : isRaw m.dataId = false) (hexpected : (expectedOf k m).entries ≠ [])
    (hknown : isMsgExist m.dataId = false) {p : Parser} (hp : factory m.dataId.protocol = some p)
    (hcontiguous : p.Contiguous) (l : Lists) :
    ∃ k' s xs is, parsedTurn p (k.routing (senderOf m) m.dataId.protocol)
        (k.touch (senderOf m) m.dataId.protocol) m l =
      .ok (k', (l.overwrite (overwrittenBy k m)).add s, is) ∧ Went factory k m s xs k' := by
  let l' := l.overwrite (overwrittenBy k m)
  obtain ⟨part, hparse, hsome, hnone⟩ := parseData_eq hcontiguous (senderOf m) (joinedData k m)
  have happend : appendBufferedData (k.touch (senderOf m) m.dataId.protocol)
      (k.routing (senderOf m) m.dataId.protocol) m = (joinedData k m, overwrittenBy k m) := rfl
  unfold parsedTurn
  rw [happend]
  dsimp only
  rw [hparse]
  by_cases hmsgs : p.parserData (joinedData k m) (senderOf m) = []
  · refine ⟨_, _, _, false, (if_pos hmsgs).trans ?_,
      .waits hdata hraw hexpected hknown hp hmsgs l.to_.length⟩
    rw [hnone hmsgs]
    simp only [Lists.add, Lists.splice, List.append_nil]
    rfl
  · have hall := hcontiguous (joinedData k m) (senderOf m)
    have hpart := hsome hmsgs
    have hlength : part.length = p.endIn (senderOf m) (joinedData k m) := by
      rw [hpart, List.length_take]
      exact min_eq_left hall.endOf_le.2
    have hshrunk : ContiguousFrom part.length 0 (p.parserData (joinedData k m) (senderOf m)) := by
      rw [hlength]
      exact hall.shrink
    obtain ⟨ps, msgId, is, hturn, hps, hfound⟩ := foundTurn_eq p (expectedOf k m)
      (parsedKernel k p m none) { m with data := part } l' hmsgs hshrunk hlength.symm
    have hne : ps ≠ [] := fun h => hmsgs (by rw [← hps, h]; rfl)
    have hslices : ∀ q ∈ ps, IsFound p { m with data := joinedData k m } q.1 q.2 := by
      intro q hq
      have hmem : q.1 ∈ p.parserData (joinedData k m) (senderOf m) := by
        rw [← hps]
        exact List.mem_map_of_mem hq
      refine ⟨(hfound q hq).id, (hfound q hq).text.trans ?_⟩
      change slice part q.1 = slice (joinedData k m) q.1
      rw [hpart]
      exact slice_take (hall.mem hmem).2
    refine ⟨_, _, _, is, (if_neg hmsgs).trans ?_,
      .found hdata hraw hexpected hknown hp ps hps hne hslices msgId⟩
    exact hturn

theorem userTurn_went (hfactory : AllContiguous factory) (k : Kernel) {m : UserData}
    (hdata : m.data ≠ []) (hraw : isRaw m.dataId = false) (l : Lists) :
    ∃ k' s xs is ws, userTurn factory k m l = .ok (k', (l.overwrite ws).add s, is) ∧
      Went factory k m s xs k' ∧ (sharingFor k m = none → ws = []) := by
  unfold userTurn
  by_cases hexpected : (expectedOf k m).entries = []
  · refine ⟨_, _, _, false, [], (if_pos hexpected).trans ?_, .unexpected hdata hraw hexpected,
      fun _ => rfl⟩
    rw [Lists.overwrite_nil]
    simp only [Lists.add, Lists.splice, List.append_nil]
  cases hknown : isMsgExist m.dataId with
  | true =>
    refine ⟨_, _, _, false, [], (if_neg hexpected).trans ?_,
      .known hdata hraw hexpected hknown, fun _ => rfl⟩
    rw [if_pos rfl, knownTurn_eq, Lists.overwrite_nil]
    rfl
  | false =>
    cases hp : factory m.dataId.protocol with
    | none =>
      refine ⟨_, _, _, false, [], (if_neg hexpected).trans ?_,
        .noParser hdata hraw hexpected hknown hp, fun _ => rfl⟩
      rw [Lists.overwrite_nil]
      simp only [Lists.add, Lists.splice, Lists.report, List.append_nil]
      rfl
    | some p =>
      obtain ⟨k', s, xs, is, hturn, hwent⟩ :=
        parsedTurn_went k hdata hraw hexpected hknown hp (hfactory _ p hp) l
      exact ⟨k', s, xs, is, _, (if_neg hexpected).trans hturn, hwent, overwrittenBy_of_none⟩

theorem handle_went (hfactory : AllContiguous factory) (k : Kernel) {m : UserData}
    (hdata : m.data ≠ []) (l : Lists) :
    ∃ k' s xs ws, handle factory k m l = .ok (k', (l.overwrite ws).add s) ∧
      Went factory k m s xs k' ∧ (sharingFor k m = none → ws = []) := by
  unfold handle
  cases hraw : isRaw m.dataId with
  | true =>
    refine ⟨_, _, _, [], ?_, .raw hdata hraw, fun _ => rfl⟩
    rw [Lists.overwrite_nil]
    exact congrArg Except.ok (fillByRawProtocol_eq k m l)
  | false =>
    obtain ⟨k', s, xs, is, ws, hturn, hwent, hws⟩ := userTurn_went hfactory k hdata hraw l
    refine ⟨k', s, xs, ws, ?_, hwent, hws⟩
    change fillByUserProtocol factory false k [m] l = _
    unfold fillByUserProtocol
    rw [hturn]
    cases is with
    | true => rfl
    | false => rfl

theorem turn_went (hfactory : AllContiguous factory) (k : Kernel) (m : UserData) (l : Lists) :
    ∃ k' s xs ws, turn factory k m l = .ok (k', (l.overwrite ws).add s) ∧
      Went factory k m s xs k' ∧ (sharingFor k m = none → ws = []) := by
  unfold turn
  by_cases hdata : m.data = []
  · refine ⟨_, _, _, [], (if_pos hdata).trans ?_, .empty hdata, fun _ => rfl⟩
    rw [Lists.overwrite_nil]
    simp only [Lists.add, Lists.splice, Lists.report, List.append_nil]
  · obtain ⟨k', s, xs, ws, hhandle, hwent, hws⟩ :=
      handle_went hfactory k hdata { l with sent := [] }
    refine ⟨k', s, xs, ws, (if_neg hdata).trans ?_, hwent, hws⟩
    rw [hhandle]
    rfl

inductive AllWent (factory : ParserFactory) :
    Kernel → List UserData → List Share → List (List UserData) → Kernel → Prop where
  | nil (k : Kernel) : AllWent factory k [] [] [] k
  | cons {k k₁ k₂ : Kernel} {m : UserData} {ms : List UserData} {s : Share} {ss : List Share}
      {xs : List UserData} {xss : List (List UserData)} (h : Went factory k m s xs k₁)
      (rest : AllWent factory k₁ ms ss xss k₂) :
      AllWent factory k (m :: ms) (s :: ss) (xs :: xss) k₂

/-- No packet comes while a packet in front of it, or one of an earlier call, has the storage of
what is buffered for its stream and there is room in it for the packet's bytes. -/
structure Apart (k : Kernel) (ms : List UserData) : Prop where
  earlier : ∀ m ∈ ms, ∀ s, k.shared (senderOf m) m.dataId.protocol = some s →
    s.room < m.data.length
  among : ms.Pairwise fun m m' => senderOf m' = senderOf m →
    m'.dataId.protocol = m.dataId.protocol →
      ∀ room, k.memory m = some room → room < m'.data.length

theorem Apart.sharingFor {k : Kernel} {m : UserData} {ms : List UserData}
    (h : Apart k (m :: ms)) : sharingFor k m = none := by
  unfold ReceiverStage.sharingFor
  rw [Option.filter_eq_none_iff]
  intro s hs
  have hless := h.earlier m List.mem_cons_self s hs
  rw [decide_eq_true_iff]
  omega

theorem Went.memory {k k' : Kernel} {m : UserData} {s : Share} {xs : List UserData}
    (h : Went factory k m s xs k') : k'.memory = k.memory := by
  cases h <;> rfl

/-- Only what is buffered for the packet's own stream comes to be shared, and with this packet. -/
theorem Went.shared {k k' : Kernel} {m : UserData} {s : Share} {xs : List UserData}
    (h : Went factory k m s xs k') {u : Uuid} {t : Text} {sh : Sharing}
    (hsh : k'.shared u t = some sh) : k.shared u t = some sh ∨
      (u = senderOf m ∧ t = m.dataId.protocol ∧ k.memory m = some sh.room) := by
  have hset (p : Parser) (new : Option Sharing)
      (hnew : (parsedKernel k p m new).shared u t = some sh) : k.shared u t = some sh ∨
        (u = senderOf m ∧ t = m.dataId.protocol ∧ new = some sh) := by
    change Function.update k.shared (senderOf m) (Function.update (k.shared (senderOf m))
      m.dataId.protocol new) u t = some sh at hnew
    by_cases hu : u = senderOf m
    · subst hu
      rw [Function.update_self] at hnew
      by_cases ht : t = m.dataId.protocol
      · subst ht
        rw [Function.update_self] at hnew
        exact Or.inr ⟨rfl, rfl, hnew⟩
      · rw [Function.update_of_ne ht] at hnew
        exact Or.inl hnew
    · rw [Function.update_of_ne hu] at hnew
      exact Or.inl hnew
  cases h with
  | empty hdata => exact Or.inl hsh
  | raw hdata hraw => exact Or.inl hsh
  | unexpected hdata hraw hexpected => exact Or.inl hsh
  | known hdata hraw hexpected hknown => exact Or.inl hsh
  | noParser hdata hraw hexpected hknown hp => exact Or.inl hsh
  | waits hdata hraw hexpected hknown hp hnone i =>
    refine (hset _ _ hsh).imp_right fun ⟨hu, ht, hnew⟩ => ⟨hu, ht, ?_⟩
    obtain ⟨room, hroom, rfl⟩ := Option.map_eq_some_iff.1 hnew
    exact hroom
  | found hdata hraw hexpected hknown hp ps hps hne hfound msgId =>
    exact (hset _ none hsh).imp_right fun ⟨_, _, hnew⟩ => nomatch hnew

theorem Apart.went {k k' : Kernel} {m : UserData} {ms : List UserData} {s : Share}
    {xs : List UserData} (hapart : Apart k (m :: ms)) (h : Went factory k m s xs k') :
    Apart k' ms := by
  obtain ⟨hfirst, hrest⟩ := List.pairwise_cons.1 hapart.among
  refine ⟨fun m' hm' sh hsh => ?_, h.memory ▸ hrest⟩
  rcases h.shared hsh with hold | ⟨hu, ht, hroom⟩
  · exact hapart.earlier m' (List.mem_cons_of_mem m hm') sh hold
  · exact hfirst m' hm' hu ht sh.room hroom

theorem turns_went (hfactory : AllContiguous factory) (k : Kernel) (ms : List UserData)
    (l : Lists) : ∃ k' ss xss ws,
      turns factory k ms l = .ok (k', (l.add (.joined ss)).overwrite ws) ∧
        AllWent factory k ms ss xss k' ∧ (Apart k ms → ws = []) := by
  induction ms generalizing k l with
  | nil =>
    refine ⟨k, [], [], [], ?_, .nil k, fun _ => rfl⟩
    rw [Share.joined, List.foldr_nil, Lists.add_none, Lists.overwrite_nil]
    rfl
  | cons m ms ih =>
    obtain ⟨k₁, s, xs, ws, hturn, hwent, hws⟩ := turn_went hfactory k m l
    obtain ⟨k₂, ss, xss, ws', hturns, hall, hws'⟩ := ih k₁ ((l.overwrite ws).add s)
    refine ⟨k₂, s :: ss, xs :: xss, ws ++ ws', ?_, .cons hwent hall, fun hapart => ?_⟩
    · unfold turns
      rw [hturn]
      change turns factory k₁ ms ((l.overwrite ws).add s) = _
      rw [hturns, Lists.overwrite_add, Lists.overwrite_add, Lists.overwrite_append,
        ← Lists.add_append]
      rfl
    · rw [hws hapart.sharingFor, hws' (hapart.went hwent)]
      rfl

def contentOf (x : UserData) : Id × ℕ × Text × RequiredHeader × List Byte :=
  (x.dataId.routing.from_, x.dataId.packetNumber, x.dataId.protocol, x.dataId.what, x.data)

/-- What a packet stands for, when `b` was buffered: itself, or the messages found in its data. -/
inductive StandsFor (factory : ParserFactory) (b : List Byte) (m : UserData) :
    List UserData → Prop where
  | whole : StandsFor factory b m [m]
  | known (hknown : isMsgExist m.dataId = true) :
      StandsFor factory b m [{ m with dataId := { m.dataId with dataOffset := 0 } }]
  | waiting {p : Parser} (hp : factory m.dataId.protocol = some p)
      (hnone : p.parserData (b ++ m.data) (senderOf m) = []) :
      StandsFor factory b m [{ m with data := b ++ m.data }]
  | found {p : Parser} (hp : factory m.dataId.protocol = some p) {xs : List UserData}
      (hne : xs ≠ []) (hxs : List.Forall₂ (IsFound p { m with data := b ++ m.data })
        (p.parserData (b ++ m.data) (senderOf m)) xs) : StandsFor factory b m xs

/-- A message `x` goes on as `y`: to registered receivers, which are all that its sender named but
those that are reported. -/
structure GoesOn (aUuids : ExpectingDg) (x y : UserData) (reports : List FailSend) : Prop where
  same : contentOf y = contentOf x
  routed : y.dataId.routing.uuids ≠ []
  registered : ∀ u ∈ y.dataId.routing.uuids, ∃ h,
    (getUuidsOfReceivers aUuids x.dataId.what).receivers.find u = some h ∧
      (if x.dataId.destination = [] ∨ u ∈ x.dataId.destination then
        checkVersion h.version x.dataId else h.isRegistrarExist) = true
  addressed : ∀ u ∈ x.dataId.destination, u ∈ y.dataId.routing.uuids ∨
    ∃ f ∈ reports, f.info.packetNumber = x.dataId.packetNumber ∧ u ∈ f.info.routing.uuids

/-- The messages a packet stands for are accounted for: each goes on or comes back, once; those that
come back are first the ones with a user's error, then the ones that nobody receives. -/
structure Accounts (aUuids : ExpectingDg) (xs : List UserData) (s : Share) : Prop where
  once : ((s.out ++ s.back).map contentOf).Perm (xs.map contentOf)
  order : (s.out.map contentOf).Sublist (xs.map contentOf)
  back : ∃ wrong unwanted, s.back = wrong ++ unwanted ∧
    (wrong.map contentOf).Sublist (xs.map contentOf) ∧
    (unwanted.map contentOf).Sublist (xs.map contentOf)
  goesOn : ∀ y ∈ s.out, ∃ x ∈ xs, x.dataId.routing.uuids = [] → GoesOn aUuids x y s.reports
  reports : ∀ f ∈ s.reports, ∃ x ∈ xs, f.info.packetNumber = x.dataId.packetNumber ∧
    f.info.routing.from_ = x.dataId.routing.from_

/-- The same of messages all of which come back in their order. -/
structure InOrder (aUuids : ExpectingDg) (xs : List UserData) (s : Share) : Prop where
  once : ((s.out ++ s.back).map contentOf).Perm (xs.map contentOf)
  order : (s.out.map contentOf).Sublist (xs.map contentOf)
  back : (s.back.map contentOf).Sublist (xs.map contentOf)
  goesOn : ∀ y ∈ s.out, ∃ x ∈ xs, x.dataId.routing.uuids = [] → GoesOn aUuids x y s.reports
  reports : ∀ f ∈ s.reports, ∃ x ∈ xs, f.info.packetNumber = x.dataId.packetNumber ∧
    f.info.routing.from_ = x.dataId.routing.from_

theorem GoesOn.mono {aUuids : ExpectingDg} {x y : UserData} {fs gs : List FailSend}
    (h : GoesOn aUuids x y fs) (hsub : fs ⊆ gs) : GoesOn aUuids x y gs :=
  ⟨h.same, h.routed, h.registered, fun u hu => (h.addressed u hu).imp_right
    fun ⟨f, hf, hmem⟩ => ⟨f, hsub hf, hmem⟩⟩

namespace InOrder

variable {aUuids : ExpectingDg} {xs ys : List UserData} {s t : Share}

theorem none (aUuids : ExpectingDg) : InOrder aUuids [] .none :=
  ⟨List.Perm.refl _, List.Sublist.refl _, List.Sublist.refl _, fun _ h => (by cases h),
    fun _ h => (by cases h)⟩

theorem append (hs : InOrder aUuids xs s) (ht : InOrder aUuids ys t) :
    InOrder aUuids (xs ++ ys) (s.append t) where
  once := by
    have hboth := hs.once.append ht.once
    rw [← List.map_append, ← List.map_append] at hboth
    refine List.Perm.trans (List.Perm.map _ ?_) hboth
    change (s.out ++ t.out ++ (s.back ++ t.back)).Perm (s.out ++ s.back ++ (t.out ++ t.back))
    rw [List.append_assoc, List.append_assoc]
    refine List.Perm.append_left _ ?_
    rw [← List.append_assoc, ← List.append_assoc]
    exact List.Perm.append_right _ List.perm_append_comm
  order := by
    change ((s.out ++ t.out).map contentOf).Sublist _
    rw [List.map_append, List.map_append]
    exact hs.order.append ht.order
  back := by
    change ((s.back ++ t.back).map contentOf).Sublist _
    rw [List.map_append, List.map_append]
    exact hs.back.append ht.back
  goesOn := fun y hy => by
    rcases List.mem_append.1 hy with hy | hy
    · obtain ⟨x, hx, h⟩ := hs.goesOn y hy
      exact ⟨x, List.mem_append_left _ hx,
        fun hnone => (h hnone).mono (List.subset_append_left _ _)⟩
    · obtain ⟨x, hx, h⟩ := ht.goesOn y hy
      exact ⟨x, List.mem_append_right _ hx,
        fun hnone => (h hnone).mono (List.subset_append_right _ _)⟩
  reports := fun f hf => by
    rcases List.mem_append.1 hf with hf | hf
    · obtain ⟨x, hx, h⟩ := hs.reports f hf
      exact ⟨x, List.mem_append_left _ hx, h⟩
    · obtain ⟨x, hx, h⟩ := ht.reports f hf
      exact ⟨x, List.mem_append_right _ hx, h⟩

theorem joined {α : Type} (f : α → UserData) (g : α → Share) {l : List α}
    (h : ∀ a ∈ l, InOrder aUuids [f a] (g a)) : InOrder aUuids (l.map f) (.joined (l.map g)) := by
  induction l with
  | nil => exact none aUuids
  | cons a l ih =>
    exact (h a List.mem_cons_self).append (ih fun b hb => h b (List.mem_cons_of_mem _ hb))

/-- One message that comes back. -/
theorem of_back {x y : UserData} (aUuids : ExpectingDg) (hsame : contentOf y = contentOf x)
    {fs : List FailSend} (hfs : ∀ f ∈ fs, f.info.packetNumber = x.dataId.packetNumber ∧
      f.info.routing.from_ = x.dataId.routing.from_) : InOrder aUuids [x] ⟨[], [y], fs⟩ where
  once := by
    change ([contentOf y]).Perm [contentOf x]
    rw [hsame]
  order := List.nil_sublist _
  back := by
    change ([contentOf y]).Sublist [contentOf x]
    rw [hsame]
  goesOn := fun _ h => by cases h
  reports := fun f hf => ⟨x, List.mem_singleton_self x, hfs f hf⟩

theorem accounts (h : InOrder aUuids xs s) : Accounts aUuids xs s :=
  ⟨h.once, h.order, ⟨[], s.back, rfl, List.nil_sublist _, h.back⟩, h.goesOn, h.reports⟩

end InOrder

theorem contentOf_filled (ru : ReceiversOfMsg) (x : UserData) :
    contentOf (filled ru x) = contentOf x := rfl

theorem mem_newFails {ru : ReceiversOfMsg} {i : UserDataInfo} {f : FailSend}
    (h : f ∈ newFails ru i) :
    f.info.packetNumber = i.packetNumber ∧ f.info.routing.from_ = i.routing.from_ := by
  unfold newFails Filling.fails at h
  dsimp only at h
  split_ifs at h
  · simp only [List.nil_append, List.mem_append, List.mem_singleton] at h
    rcases h with rfl | rfl
    · exact ⟨rfl, rfl⟩
    · exact ⟨rfl, rfl⟩
  · simp only [List.nil_append, List.mem_singleton] at h
    rw [h]
    exact ⟨rfl, rfl⟩
  · simp only [List.nil_append, List.mem_singleton] at h
    rw [h]
    exact ⟨rfl, rfl⟩
  · cases h

/-- Whom the sender named is a receiver, or it is reported that it is none. -/
theorem addressed_filled {ru : ReceiversOfMsg} {x : UserData}
    (hrouting : x.dataId.routing.uuids = [])
    {u : Uuid} (hu : u ∈ x.dataId.destination) :
    u ∈ (filled ru x).dataId.routing.uuids ∨
      ∃ f ∈ newFails ru x.dataId, u ∈ f.info.routing.uuids := by
  by_cases hkey : u ∈ ru.receivers.keys
  · obtain ⟨h, hfind⟩ := (ru.receivers.mem_keys_iff u).1 hkey
    cases hversion : checkVersion h.version x.dataId with
    | true => exact Or.inl ((mem_routing hrouting).2 ⟨h, (taken_of_addressed hu hfind).2 hversion⟩)
    | false =>
      have hrefused := (refused_of_addressed hu hfind).2 hversion
      obtain ⟨f, hf, -, hmem⟩ := reported_refused.2 ⟨h, hrefused⟩
      exact Or.inr ⟨f, hf, hmem⟩
  · have hleft : u ∈ notExpected ru x.dataId := mem_notExpected.2 ⟨hu, fun h => absurd h hkey⟩
    obtain ⟨f, hf, -, hmem⟩ := reported_notExpected.2 hleft
    exact Or.inr ⟨f, hf, hmem⟩

theorem messageShare_inOrder (aUuids : ExpectingDg) (x : UserData) :
    InOrder aUuids [x] (messageShare aUuids x) := by
  unfold messageShare
  dsimp only
  split_ifs with hrequired hnone
  · exact InOrder.of_back aUuids (contentOf_filled _ x) fun f hf => mem_newFails hf
  · refine ⟨List.Perm.refl _, List.Sublist.refl _, List.nil_sublist _, fun y hy => ?_,
      fun f hf => ⟨x, List.mem_singleton_self x, mem_newFails hf⟩⟩
    obtain rfl := List.mem_singleton.1 hy
    refine ⟨x, List.mem_singleton_self x, fun hrouting => ⟨rfl, hnone, fun u hu => ?_,
      fun u hu => ?_⟩⟩
    · obtain ⟨h, hmem⟩ := (mem_routing hrouting).1 hu
      exact ⟨h, mem_taken.1 hmem⟩
    · exact (addressed_filled hrouting hu).imp_right
        fun ⟨f, hf, hmem⟩ => ⟨f, hf, (mem_newFails hf).1, hmem⟩
  · exact InOrder.of_back aUuids rfl fun f hf => by cases hf

theorem errorShare_inOrder (aUuids : ExpectingDg) (p : ObtainedDg × UserData) :
    InOrder aUuids [p.2] (errorShare p) :=
  InOrder.of_back aUuids rfl fun f hf => by
    obtain rfl := List.mem_singleton.1 hf
    exact ⟨rfl, rfl⟩

theorem foundShare_accounts (aUuids : ExpectingDg) (ps : List (ObtainedDg × UserData)) :
    Accounts aUuids (ps.map Prod.snd) (foundShare aUuids ps) := by
  have hwrong : InOrder aUuids ((ps.filter fun p => !isGood p).map Prod.snd)
      (.joined ((ps.filter fun p => !isGood p).map errorShare)) :=
    .joined _ _ fun p _ => errorShare_inOrder aUuids p
  have hgood : InOrder aUuids ((ps.filter isGood).map Prod.snd)
      (.joined ((ps.filter isGood).map fun p => messageShare aUuids p.2)) :=
    .joined _ _ fun p _ => messageShare_inOrder aUuids p.2
  have hsub (f : ObtainedDg × UserData → Bool) :
      (((ps.filter f).map Prod.snd).map contentOf).Sublist ((ps.map Prod.snd).map contentOf) :=
    (((List.filter_sublist (p := f) (l := ps)).map Prod.snd)).map contentOf
  have hnone : (Share.joined ((ps.filter fun p => !isGood p).map errorShare)).out = [] := by
    rw [Share.joined_out, List.flatMap_map, List.flatMap_eq_nil_iff]
    exact fun p _ => rfl
  have hall := hwrong.append hgood
  have hmem {x : UserData} (hx : x ∈ (ps.filter fun p => !isGood p).map Prod.snd ++
      (ps.filter isGood).map Prod.snd) : x ∈ ps.map Prod.snd := by
    rw [← List.map_append] at hx
    obtain ⟨q, hq, rfl⟩ := List.mem_map.1 hx
    rcases List.mem_append.1 hq with hq | hq
    · exact List.mem_map_of_mem (List.mem_of_mem_filter hq)
    · exact List.mem_map_of_mem (List.mem_of_mem_filter hq)
  refine ⟨?_, ?_, ⟨_, _, rfl, hwrong.back.trans (hsub _), hgood.back.trans (hsub _)⟩,
    fun y hy => ?_, fun f hf => ?_⟩
  · refine hall.once.trans (List.Perm.map _ ?_)
    rw [← List.map_append]
    refine List.Perm.map _ ?_
    exact (List.perm_append_comm).trans (List.filter_append_perm isGood ps)
  · have hout : (foundShare aUuids ps).out =
        (Share.joined ((ps.filter isGood).map fun p => messageShare aUuids p.2)).out := by
      change _ ++ _ = _
      rw [hnone, List.nil_append]
    rw [hout]
    exact hgood.order.trans (hsub _)
  · obtain ⟨x, hx, h⟩ := hall.goesOn y hy
    exact ⟨x, hmem hx, h⟩
  · obtain ⟨x, hx, h⟩ := hall.reports f hf
    exact ⟨x, hmem hx, h⟩

/-- The list of receivers that a packet is compared with. -/
def uuidsFor (k : Kernel) (m : UserData) : ExpectingDg :=
  if isRaw m.dataId then (k.routing (senderOf m) rawProtocolName).expected else expectedOf k m

/-- What becomes of a packet accounts for the messages it stands for. -/
def Fate (factory : ParserFactory) (k : Kernel) (m : UserData) (f : List UserData × Share) : Prop :=
  (∃ b, StandsFor factory b m f.1) ∧ Accounts (uuidsFor k m) f.1 f.2

theorem forall₂_found {p : Parser} {data : UserData} {ps : List (ObtainedDg × UserData)}
    (h : ∀ q ∈ ps, IsFound p data q.1 q.2) :
    List.Forall₂ (IsFound p data) (ps.map Prod.fst) (ps.map Prod.snd) := by
  rw [List.forall₂_map_left_iff, List.forall₂_map_right_iff, List.forall₂_same]
  exact h

theorem Went.fate {k k' : Kernel} {m : UserData} {s : Share} {xs : List UserData}
    (h : Went factory k m s xs k') (hapart : sharingFor k m = none) :
    ∃ ms, Fate factory k m (ms, s) ∧ (xs = [] ∨ xs = ms) := by
  have hback (fs : List FailSend) (hfs : ∀ f ∈ fs, f.info.packetNumber = m.dataId.packetNumber ∧
      f.info.routing.from_ = m.dataId.routing.from_) : Fate factory k m ([m], ⟨[], [m], fs⟩) :=
    ⟨⟨[], .whole⟩, (InOrder.of_back _ rfl hfs).accounts⟩
  have hone (uuids : List Uuid) (e : ErrorType) : ∀ f ∈ [FailSend.ofRouting m.dataId uuids e],
      f.info.packetNumber = m.dataId.packetNumber ∧
        f.info.routing.from_ = m.dataId.routing.from_ := fun f hf => by
    obtain rfl := List.mem_singleton.1 hf
    exact ⟨rfl, rfl⟩
  cases h with
  | empty hdata => exact ⟨[m], hback _ (hone _ _), Or.inl rfl⟩
  | raw hdata hraw =>
    refine ⟨[m], ⟨⟨[], .whole⟩, ?_⟩, Or.inl rfl⟩
    unfold uuidsFor
    rw [if_pos hraw]
    exact (messageShare_inOrder _ m).accounts
  | unexpected hdata hraw hexpected => exact ⟨[m], hback [] fun f hf => (by cases hf), Or.inl rfl⟩
  | known hdata hraw hexpected hknown =>
    refine ⟨_, ⟨⟨[], .known hknown⟩, ?_⟩, Or.inl rfl⟩
    unfold uuidsFor
    rw [if_neg (by rw [hraw]; exact Bool.false_ne_true)]
    exact (messageShare_inOrder _ _).accounts
  | noParser hdata hraw hexpected hknown hp => exact ⟨[m], hback _ (hone _ _), Or.inl rfl⟩
  | waits hdata hraw hexpected hknown hp hnone i =>
    rw [joinedData_of_none hapart] at hnone ⊢
    exact ⟨_, ⟨⟨_, .waiting hp hnone⟩,
      (InOrder.of_back _ rfl fun f hf => by cases hf).accounts⟩, Or.inl rfl⟩
  | found hdata hraw hexpected hknown hp ps hps hne hfound msgId =>
    rw [joinedData_of_none hapart] at hps hfound
    refine ⟨ps.map Prod.snd, ⟨⟨(k.routing (senderOf m) m.dataId.protocol).bufferedData,
      .found hp (List.map_eq_nil_iff.not.2 hne) ?_⟩, ?_⟩, Or.inr rfl⟩
    · have hall := forall₂_found hfound
      rw [hps] at hall
      exact hall
    · unfold uuidsFor
      rw [if_neg (by rw [hraw]; exact Bool.false_ne_true)]
      exact foundShare_accounts _ ps

/-- The receivers that are registered do not change. -/
theorem Went.expected {k k' : Kernel} {m : UserData} {s : Share} {xs : List UserData}
    (h : Went factory k m s xs k') (u : Uuid) (t : Text) :
    (k'.routing u t).expected = (k.routing u t).expected := by
  have htouch (v : Uuid) (q : Text) : ((k.touch v q).routing u t).expected =
      (k.routing u t).expected := by rw [Kernel.routing_touch]
  have hset (v : Uuid) (q : Text) (b : List Byte) :
      (((k.touch v q).setBuffered v q b).routing u t).expected = (k.routing u t).expected := by
    rw [Kernel.routing_setBuffered]
    split_ifs with heq
    · rw [heq.1, heq.2, Kernel.routing_touch]
    · exact htouch v q
  cases h with
  | empty hdata => rfl
  | raw hdata hraw => exact htouch _ _
  | unexpected hdata hraw hexpected => exact htouch _ _
  | known hdata hraw hexpected hknown => exact htouch _ _
  | noParser hdata hraw hexpected hknown hp => exact htouch _ _
  | waits hdata hraw hexpected hknown hp hnone i => exact hset _ _ _
  | found hdata hraw hexpected hknown hp ps hps hne hfound msgId => exact hset _ _ _

theorem AllWent.expected {k k' : Kernel} {ms : List UserData} {ss : List Share}
    {xss : List (List UserData)} (h : AllWent factory k ms ss xss k') (u : Uuid) (t : Text) :
    (k'.routing u t).expected = (k.routing u t).expected := by
  induction h with
  | nil k => rfl
  | cons h rest ih => exact ih.trans (h.expected u t)

theorem AllWent.fates {k k' : Kernel} {ms : List UserData} {ss : List Share}
    {xss : List (List UserData)} (h : AllWent factory k ms ss xss k') (hapart : Apart k ms) :
    ∃ fates, fates.map Prod.snd = ss ∧ List.Forall₂ (Fate factory k) ms fates ∧
      List.Forall₂ (fun xs f => xs = [] ∨ xs = f.1) xss fates := by
  induction h with
  | nil k => exact ⟨[], rfl, List.Forall₂.nil, List.Forall₂.nil⟩
  | @cons k k₁ k₂ m ms s ss xs xss h rest ih =>
    obtain ⟨messages, hfate, hxs⟩ := h.fate hapart.sharingFor
    obtain ⟨fates, hfates, hall, hfound⟩ := ih (hapart.went h)
    refine ⟨(messages, s) :: fates, by rw [List.map_cons, hfates], List.Forall₂.cons hfate ?_,
      List.Forall₂.cons hxs hfound⟩
    refine hall.imp fun n f hf => ⟨hf.1, ?_⟩
    have hsame : uuidsFor k₁ n = uuidsFor k n := by
      unfold uuidsFor expectedOf
      rw [h.expected, h.expected]
    rw [← hsame]
    exact hf.2

/-- What `MFillMsgReceivers` makes of the packets, with the messages found in each. -/
theorem fillMsgReceivers_went (hfactory : AllContiguous factory) (k : Kernel)
    (aFrom aTo : List UserData) (aFail : List FailSend) :
    ∃ k' ss xss back, fillMsgReceivers factory k aFrom aTo aFail =
        .ok (k'.callOver, back, aTo ++ ss.flatMap Share.out,
          aFail ++ ss.flatMap Share.reports) ∧ AllWent factory k aFrom ss xss k' ∧
      (Apart k aFrom → back = ss.flatMap Share.back) := by
  obtain ⟨k', ss, xss, ws, hturns, hall, hws⟩ := turns_went hfactory k aFrom ⟨aTo, [], aFail, []⟩
  let l : Lists := (Lists.add ⟨aTo, [], aFail, []⟩ (.joined ss)).overwrite ws
  refine ⟨k', ss, xss, l.comingBack, ?_, hall, fun hapart => ?_⟩
  · unfold fillMsgReceivers
    rw [hturns, ← Share.joined_out, ← Share.joined_reports]
    rfl
  · have hnone : l.overwritten = [] := hws hapart
    rw [Lists.comingBack_of_nil hnone, ← Share.joined_back]
    rfl

/-- Messages of two bytes, of which the first is the type; a message of type 9 is wrong. -/
def pairsFrom : ℕ → List Byte → List ObtainedDg
  | at_, a :: _ :: rest =>
    ⟨⟨⟨0, 0, 0⟩, [a]⟩, if a = 9 then 1 else 0, at_, at_ + 2⟩ :: pairsFrom (at_ + 2) rest
  | _, [_] | _, [] => []

theorem pairsFrom_contiguous (size at_ : ℕ) (data : List Byte) (h : at_ + data.length ≤ size) :
    ContiguousFrom size at_ (pairsFrom at_ data) := by
  fun_induction pairsFrom at_ data with
  | case1 at_ a b rest ih =>
    rw [List.length_cons, List.length_cons] at h
    exact ⟨rfl, Nat.lt_add_of_pos_right (by decide), ih (by omega)⟩
  | case2 at_ a => exact (Nat.le_add_right _ _).trans h
  | case3 at_ => exact h

def pairParser : Parser := ⟨fun data _ => pairsFrom 0 data, fun _ => 1⟩

theorem pairParser_contiguous : pairParser.Contiguous := fun data _ =>
  pairsFrom_contiguous data.length 0 data (by rw [Nat.zero_add])

def pairFactory : ParserFactory := fun t => if t = ['p'] then some pairParser else none

theorem pairFactory_contiguous : AllContiguous pairFactory := by
  intro t p hp
  unfold pairFactory at hp
  split_ifs at hp
  obtain rfl := Option.some.inj hp
  exact pairParser_contiguous

def onePairKernel : Kernel :=
  ⟨(start .empty).setExpected 1 ['p'] (SortedMap.empty.insert [1]
    ⟨SortedMap.empty.insert 2 ⟨[4], [3], ⟨0, 0, 0⟩, 1, rfl, List.pairwise_singleton _ _⟩, 1⟩), 0,
    fun _ => some 0, fun _ _ => none⟩

def pairPacket (data : List Byte) : UserData :=
  ⟨⟨1, ['p'], 0, [], [], [], ⟨⟨1, []⟩, []⟩, .default, shareEndian, ⟨⟨0, 0, 0⟩, List.replicate 8 0⟩⟩,
    data⟩

/-- The storages of the packets have no room. -/
theorem pairs_apart :
    Apart onePairKernel [pairPacket [1, 5, 2], pairPacket [6, 9, 9, 1, 4, 3]] := by
  refine ⟨fun m _ s hs => (nomatch hs), ?_⟩
  rw [List.pairwise_pair]
  intro _ _ room hroom
  obtain rfl := Option.some.inj hroom
  exact Nat.succ_pos 5

/-- The wrong message comes back in front of the one that nobody receives. -/
example : (fillMsgReceivers pairFactory onePairKernel
    [pairPacket [1, 5, 2], pairPacket [6, 9, 9, 1, 4, 3]] [] []).toOption.map (fun r =>
      (r.2.1.map UserData.data, r.2.2.1.map UserData.data, (r.1.routing 1 ['p']).bufferedData)) =
        some ([[9, 9], [2, 6]], [[1, 5], [1, 4]], [3]) := by
  decide +kernel

/-- With room in the storages of the packets the second byte comes to the first packet, and the
message is not found. -/
example : (fillMsgReceivers pairFactory { onePairKernel with memory := fun _ => some 8 }
    [pairPacket [1], pairPacket [5]] [] []).toOption.map (fun r =>
      (r.2.1.map UserData.data, r.2.2.1.map UserData.data, (r.1.routing 1 ['p']).bufferedData)) =
        some ([[1, 5], [1]], [], [1]) := by
  decide +kernel

end UdtKernel.ReceiverStage
