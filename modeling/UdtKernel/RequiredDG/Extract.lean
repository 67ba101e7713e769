import Mathlib.Data.Nat.Bitwise
import Mathlib.Data.List.Nodup
import Mathlib.Data.List.Range
import Mathlib.Tactic.Ring
import UdtKernel.Lib.Run
import UdtKernel.Types

set_option autoImplicit false

/-! The messages of one packet, and the numbers they get: `MExtractMessages`. -/

namespace UdtKernel.Extract
open UdtKernel.Lib

/-- `obtained_dg_t`: a message that was found between two places of the packet's data. -/
structure ObtainedDg where
  type : RequiredHeader
  errorCode : ℕ
  begin_ : ℕ
  end_ : ℕ
  deriving DecidableEq

/-- What ends the process: the `CHECK` of a message's places. -/
inductive ExtractAbort where
  | emptyMessage
  deriving DecidableEq

/-- `MNextPacketNumberMask`: the next value of the 16-bit `FMsgID`, and the mask made of it. -/
def nextPacketNumberMask (msgId : ℕ) : ℕ × ℕ :=
  let msgId := (msgId + 1) % 2 ^ 16
  (msgId, msgId <<< 16)

section
variable (dataOffset : RequiredHeader → ℕ)

/-- The loop over the messages of a packet which has not just one. -/
def extractLoop (aWhat : UserData) : ℕ → List ObtainedDg → Except ExtractAbort (ℕ × List UserData)
  | msgId, [] => .ok (msgId, [])
  | msgId, msg :: msgs => do
    let (msgId, mask) := nextPacketNumberMask msgId
    let dataId := { aWhat.dataId with
      packetNumber := aWhat.dataId.packetNumber ||| mask
      what := msg.type
      dataOffset := dataOffset msg.type }
    if msg.begin_ < msg.end_ then
      let data := (aWhat.data.drop msg.begin_).take (msg.end_ - msg.begin_)
      let (msgId, aTo) ← extractLoop aWhat msgId msgs
      .ok (msgId, ⟨dataId, data⟩ :: aTo)
    else .error .emptyMessage

/-- The messages that a packet turns into, and the value that `FMsgID` has then. -/
def extractMessages (msgId : ℕ) (msgs : List ObtainedDg) (aWhat : UserData) :
    Except ExtractAbort (ℕ × List UserData) :=
  match msgs with
  | [msg] => .ok (msgId, [{ aWhat with
      dataId := { aWhat.dataId with what := msg.type, dataOffset := dataOffset msg.type } }])
  | msgs => extractLoop dataOffset aWhat msgId msgs

/-- A message which is on its way and not merged yet: its sender and number, the number of the
    packet that it is from, and which of all inner numbers given so far it has (none of them, 0,
    if it was the only message of its packet). -/
structure Merging where
  key : Uuid × ℕ
  packet : ℕ
  place : ℕ
  deriving DecidableEq

/-- The kernel between two packets: `FMsgID`, how many inner numbers were given since the start,
    and the messages on their way. -/
structure Extracting where
  msgId : ℕ
  given : ℕ
  merging : List Merging
  deriving DecidableEq

namespace Extracting

def start : Extracting := ⟨0, 0, []⟩

end Extracting

/-- A packet with the messages found in it, or the end of the merging of a message. -/
inductive Op where
  | packet (aWhat : UserData) (msgs : List ObtainedDg)
  | merged (sender : Uuid) (number : ℕ)

def keyOf (m : UserData) : Uuid × ℕ := (m.dataId.routing.from_.uuid, m.dataId.packetNumber)

/-- How many inner numbers a packet with so many messages takes. -/
def innerCount (count : ℕ) : ℕ := if count = 1 then 0 else count

/-- The places of the messages of a packet among all inner numbers. -/
def places (given count : ℕ) : List ℕ :=
  if count = 1 then [0] else (List.range count).map fun j => given + (j + 1)

def step (op : Op) (s : Extracting) : Except ExtractAbort Extracting :=
  match op with
  | .packet aWhat msgs => do
    let (msgId, aTo) ← extractMessages dataOffset s.msgId msgs aWhat
    let merging := List.zipWith (fun m place => ⟨keyOf m, aWhat.dataId.packetNumber, place⟩)
      aTo (places s.given msgs.length)
    .ok ⟨msgId, s.given + innerCount msgs.length, s.merging ++ merging⟩
  | .merged sender number =>
    .ok { s with merging := s.merging.filter fun m => m.key ≠ (sender, number) }

/-- The numbers of the messages of one packet differ, also from those that the sender's other
    messages still have, and carry the sender's number. -/
def KeepsApart (s : Extracting) : Op → Prop
  | .packet aWhat msgs => ∀ msgId aTo,
      extractMessages dataOffset s.msgId msgs aWhat = .ok (msgId, aTo) →
        (aTo.map keyOf).Nodup ∧ (∀ m ∈ aTo, keyOf m ∉ s.merging.map Merging.key) ∧
        ∀ m ∈ aTo, m.dataId.packetNumber % 2 ^ 16 = aWhat.dataId.packetNumber % 2 ^ 16
  | .merged _ _ => True

end

/-- The count of inner numbers does not come round to that of an older message: it passes no
    whole number of rounds of 2^16 after it. One message alone gets no inner number, as if it were
    at the end of a round. -/
def NotRound (given count place : ℕ) : Prop :=
  if count = 1 then place % 2 ^ 16 ≠ 0
  else (given + count - place) / 2 ^ 16 = (given - place) / 2 ^ 16

instance (given count place : ℕ) : Decidable (NotRound given count place) :=
  inferInstanceAs (Decidable (if count = 1 then place % 2 ^ 16 ≠ 0
    else (given + count - place) / 2 ^ 16 = (given - place) / 2 ^ 16))

/-- A packet with a 16-bit number, and not more messages than there are inner numbers; and those
    messages of the sender's packet with the same number which are still being merged are not so
    old that the inner numbers came round to theirs. -/
def Fresh (s : Extracting) : Op → Prop
  | .packet aWhat msgs =>
      aWhat.dataId.packetNumber < 2 ^ 16 ∧ msgs.length ≤ 2 ^ 16 ∧
      ∀ m ∈ s.merging, m.key.1 = aWhat.dataId.routing.from_.uuid →
        m.packet = aWhat.dataId.packetNumber → NotRound s.given msgs.length m.place
  | .merged _ _ => True

instance (s : Extracting) : (op : Op) → Decidable (Fresh s op)
  | .packet aWhat msgs => inferInstanceAs (Decidable (_ < _ ∧ _ ≤ _ ∧
      ∀ m ∈ s.merging, m.key.1 = aWhat.dataId.routing.from_.uuid →
        m.packet = aWhat.dataId.packetNumber → NotRound s.given msgs.length m.place))
  | .merged _ _ => isTrue trivial

theorem notRound_iff {given count place : ℕ} (hplace : place ≤ given) :
    (∀ i ∈ places given count, place % 2 ^ 16 ≠ i % 2 ^ 16) ↔ NotRound given count place := by
  unfold places NotRound
  split_ifs with hone
  · rw [List.forall_mem_singleton, Nat.zero_mod]
  · rw [List.forall_mem_map]
    constructor
    · intro h
      by_contra hne
      -- the end of the first round after the older message
      have hnot := h (2 ^ 16 * ((given - place) / 2 ^ 16 + 1) - (given - place) - 1)
        (List.mem_range.2 (by omega))
      omega
    · intro h j hj
      rw [List.mem_range] at hj
      omega

/-- Up to 2^16 messages of one packet never get the same inner number. -/
theorem places_nodup {given count : ℕ} (hcount : count ≤ 2 ^ 16) :
    ((places given count).map (· % 2 ^ 16)).Nodup := by
  unfold places
  split_ifs
  · exact List.nodup_singleton _
  · rw [List.map_map]
    refine List.nodup_range.map_on fun i hi j hj hij => ?_
    rw [Function.comp_apply, Function.comp_apply] at hij
    rw [List.mem_range] at hi hj
    omega

theorem place_le {given count i : ℕ} (hi : i ∈ places given count) :
    i ≤ given + innerCount count := by
  unfold places at hi
  unfold innerCount
  split_ifs at hi ⊢
  · rw [List.mem_singleton] at hi
    omega
  · obtain ⟨j, hj, rfl⟩ := List.mem_map.1 hi
    rw [List.mem_range] at hj
    omega

/-- The key of the message of a packet which is at this place. -/
def numbered (sender : Uuid) (packet place : ℕ) : Uuid × ℕ :=
  (sender, packet + 2 ^ 16 * (place % 2 ^ 16))

theorem or_mask {packet : ℕ} (hpacket : packet < 2 ^ 16) (i : ℕ) :
    packet ||| i <<< 16 = packet + 2 ^ 16 * i := by
  rw [Nat.or_comm, ← Nat.shiftLeft_add_eq_or_of_lt hpacket, Nat.shiftLeft_eq, Nat.mul_comm,
    Nat.add_comm]

/-- Keys of packets with 16-bit numbers agree just when all they are made of does. -/
theorem numbered_eq_iff {sender sender' : Uuid} {packet packet' place place' : ℕ}
    (hpacket : packet < 2 ^ 16) (hpacket' : packet' < 2 ^ 16) :
    numbered sender packet place = numbered sender' packet' place' ↔
      sender = sender' ∧ packet = packet' ∧ place % 2 ^ 16 = place' % 2 ^ 16 := by
  unfold numbered
  rw [Prod.mk.injEq]
  refine and_congr_right fun _ => ?_
  omega

section
variable {dataOffset : RequiredHeader → ℕ}

theorem extractLoop_keys {aWhat : UserData} (hpacket : aWhat.dataId.packetNumber < 2 ^ 16)
    {msgs : List ObtainedDg} {given msgId : ℕ} {aTo : List UserData}
    (h : extractLoop dataOffset aWhat (given % 2 ^ 16) msgs = .ok (msgId, aTo)) :
    msgId = (given + msgs.length) % 2 ^ 16 ∧
    aTo.map keyOf = (List.range msgs.length).map fun j =>
      numbered aWhat.dataId.routing.from_.uuid aWhat.dataId.packetNumber (given + (j + 1)) := by
  induction msgs generalizing given msgId aTo with
  | nil =>
    obtain ⟨rfl, rfl⟩ := Prod.mk.inj (Except.ok.inj h)
    exact ⟨rfl, rfl⟩
  | cons msg msgs ih =>
    have hnext : (given % 2 ^ 16 + 1) % 2 ^ 16 = (given + 1) % 2 ^ 16 := by omega
    simp only [extractLoop, nextPacketNumberMask, hnext] at h
    split_ifs at h
    cases hrest : extractLoop dataOffset aWhat ((given + 1) % 2 ^ 16) msgs with
    | error e => rw [hrest] at h; cases h
    | ok r =>
      rw [hrest] at h
      obtain ⟨rfl, rfl⟩ := Prod.mk.inj (Except.ok.inj h)
      obtain ⟨hmsgId, hkeys⟩ := ih hrest
      refine ⟨?_, ?_⟩
      · rw [hmsgId, List.length_cons]
        omega
      · rw [List.map_cons, hkeys, List.length_cons, List.range_succ_eq_map, List.map_cons,
          List.map_map]
        refine congrArg₂ _ ?_ (List.map_congr_left fun j _ => ?_)
        · rw [keyOf, or_mask hpacket]
          rfl
        · rw [Function.comp_apply, Nat.add_assoc, Nat.add_comm 1]

theorem extractMessages_keys {aWhat : UserData} (hpacket : aWhat.dataId.packetNumber < 2 ^ 16)
    {msgs : List ObtainedDg} {given msgId : ℕ} {aTo : List UserData}
    (h : extractMessages dataOffset (given % 2 ^ 16) msgs aWhat = .ok (msgId, aTo)) :
    msgId = (given + innerCount msgs.length) % 2 ^ 16 ∧
    aTo.map keyOf = (places given msgs.length).map
      (numbered aWhat.dataId.routing.from_.uuid aWhat.dataId.packetNumber) := by
  unfold extractMessages at h
  split at h
  case h_1 msg =>
    obtain ⟨rfl, rfl⟩ := Prod.mk.inj (Except.ok.inj h)
    exact ⟨rfl, rfl⟩
  case h_2 hone =>
    have hlength : msgs.length ≠ 1 := fun hl => by
      obtain ⟨msg, rfl⟩ := List.length_eq_one_iff.1 hl
      exact hone msg rfl
    obtain ⟨hmsgId, hkeys⟩ := extractLoop_keys hpacket h
    rw [innerCount, places, if_neg hlength, if_neg hlength, List.map_map]
    exact ⟨hmsgId, hkeys⟩

theorem numbered_nodup {sender : Uuid} {packet given count : ℕ} (hpacket : packet < 2 ^ 16)
    (hcount : count ≤ 2 ^ 16) : ((places given count).map (numbered sender packet)).Nodup := by
  refine List.Nodup.of_map (fun k => k.2 / 2 ^ 16) ?_
  have hhigh : ((places given count).map (numbered sender packet)).map (fun k => k.2 / 2 ^ 16) =
      (places given count).map (· % 2 ^ 16) := by
    rw [List.map_map]
    refine List.map_congr_left fun i _ => ?_
    rw [Function.comp_apply, numbered]
    omega
  rw [hhigh]
  exact places_nodup hcount

/-- What the kernel keeps about the messages on their way is right, as long as every packet has a
    16-bit number. -/
structure Recorded (s : Extracting) : Prop where
  msgId : s.msgId = s.given % 2 ^ 16
  key : ∀ m ∈ s.merging, m.key = numbered m.key.1 m.packet m.place
  packet : ∀ m ∈ s.merging, m.packet < 2 ^ 16
  place : ∀ m ∈ s.merging, m.place ≤ s.given

theorem recorded_start : Recorded .start := ⟨rfl, by simp [Extracting.start],
  by simp [Extracting.start], by simp [Extracting.start]⟩

/-- The record of a message that was just extracted. -/
theorem mem_zipWith_keys {aTo : List UserData} {sender : Uuid} {packet : ℕ} {is : List ℕ}
    (h : aTo.map keyOf = is.map (numbered sender packet)) {m : Merging}
    (hm : m ∈ List.zipWith (fun d place => ⟨keyOf d, packet, place⟩) aTo is) :
    m.key = numbered sender packet m.place ∧ m.packet = packet ∧ m.place ∈ is := by
  induction aTo generalizing is with
  | nil => cases hm
  | cons d aTo ih =>
    cases is with
    | nil => cases hm
    | cons i is =>
      rw [List.map_cons, List.map_cons] at h
      obtain ⟨hkey, hrest⟩ := List.cons.inj h
      rw [List.zipWith_cons_cons] at hm
      rcases List.mem_cons.1 hm with rfl | hm
      · exact ⟨hkey, rfl, List.mem_cons_self⟩
      · obtain ⟨hm, hpacket, hplace⟩ := ih hrest hm
        exact ⟨hm, hpacket, List.mem_cons_of_mem i hplace⟩

theorem Recorded.step {s s' : Extracting} {op : Op} (h : Recorded s) (hop : Fresh s op)
    (hs' : step dataOffset op s = .ok s') : Recorded s' := by
  cases op with
  | merged sender number =>
    cases hs'
    exact ⟨h.msgId, fun m hm => h.key m (List.mem_filter.1 hm).1,
      fun m hm => h.packet m (List.mem_filter.1 hm).1,
      fun m hm => h.place m (List.mem_filter.1 hm).1⟩
  | packet aWhat msgs =>
    obtain ⟨hpacket, -, -⟩ := hop
    obtain ⟨⟨msgId, aTo⟩, hextract, hs'⟩ := eq_ok_of_bind hs'
    cases hs'
    rw [h.msgId] at hextract
    obtain ⟨hmsgId, hkeys⟩ := extractMessages_keys hpacket hextract
    have hnew := @mem_zipWith_keys _ _ _ _ hkeys
    refine ⟨hmsgId, ?_, ?_, ?_⟩
    · intro m hm
      rcases List.mem_append.1 hm with hm | hm
      · exact h.key m hm
      · obtain ⟨hkey, hpk, -⟩ := hnew hm
        rw [congrArg Prod.fst hkey, hpk]
        exact hkey
    · intro m hm
      rcases List.mem_append.1 hm with hm | hm
      · exact h.packet m hm
      · obtain ⟨-, hpk, -⟩ := hnew hm
        rw [hpk]
        exact hpacket
    · intro m hm
      rcases List.mem_append.1 hm with hm | hm
      · exact (h.place m hm).trans (Nat.le_add_right _ _)
      · exact place_le (hnew hm).2.2

/-- Whether a new message has the key of one that is still being merged. -/
theorem numbered_not_mem_iff {s : Extracting} (h : Recorded s) {sender : Uuid} {packet count : ℕ}
    (hpacket : packet < 2 ^ 16) :
    (∀ k ∈ (places s.given count).map (numbered sender packet), k ∉ s.merging.map Merging.key) ↔
      ∀ m ∈ s.merging, m.key.1 = sender → m.packet = packet → NotRound s.given count m.place := by
  rw [List.forall_mem_map]
  constructor
  · intro hnot m hm hsender hpk
    refine (notRound_iff (h.place m hm)).1 fun i hi hround => hnot i hi (List.mem_map.2 ⟨m, hm, ?_⟩)
    rw [h.key m hm]
    exact (numbered_eq_iff (h.packet m hm) hpacket).2 ⟨hsender, hpk, hround⟩
  · intro hround i hi hmem
    obtain ⟨m, hm, hkey⟩ := List.mem_map.1 hmem
    rw [h.key m hm] at hkey
    obtain ⟨hsender, hpk, heq⟩ := (numbered_eq_iff (h.packet m hm) hpacket).1 hkey
    exact (notRound_iff (h.place m hm)).2 (hround m hm hsender hpk) i hi heq

/-- One packet. -/
theorem keepsApart_iff {s : Extracting} (hs : Recorded s) {aWhat : UserData}
    {msgs : List ObtainedDg} (hpacket : aWhat.dataId.packetNumber < 2 ^ 16)
    (hcount : msgs.length ≤ 2 ^ 16) {msgId : ℕ} {aTo : List UserData}
    (h : extractMessages dataOffset s.msgId msgs aWhat = .ok (msgId, aTo)) :
    KeepsApart dataOffset s (.packet aWhat msgs) ↔ Fresh s (.packet aWhat msgs) := by
  have hkeys := (extractMessages_keys hpacket (hs.msgId ▸ h)).2
  have hnew : (∀ m ∈ aTo, keyOf m ∉ s.merging.map Merging.key) ↔
      ∀ m ∈ s.merging, m.key.1 = aWhat.dataId.routing.from_.uuid →
        m.packet = aWhat.dataId.packetNumber → NotRound s.given msgs.length m.place := by
    rw [← numbered_not_mem_iff hs hpacket, ← hkeys, List.forall_mem_map]
  have hnodup : (aTo.map keyOf).Nodup := by
    rw [hkeys]
    exact numbered_nodup hpacket hcount
  have hlow : ∀ m ∈ aTo, m.dataId.packetNumber % 2 ^ 16 =
      aWhat.dataId.packetNumber % 2 ^ 16 := by
    intro m hm
    have hmem : keyOf m ∈ aTo.map keyOf := List.mem_map_of_mem hm
    rw [hkeys] at hmem
    obtain ⟨i, -, hi⟩ := List.mem_map.1 hmem
    have hnumber : aWhat.dataId.packetNumber + 2 ^ 16 * (i % 2 ^ 16) = m.dataId.packetNumber :=
      congrArg Prod.snd hi
    omega
  constructor
  · intro hk
    exact ⟨hpacket, hcount, hnew.1 (hk _ _ h).2.1⟩
  · rintro ⟨-, -, hround⟩ msgId' aTo' h'
    obtain ⟨-, rfl⟩ := Prod.mk.inj (Except.ok.inj (h.symm.trans h'))
    exact ⟨hnodup, hnew.2 hround, hlow⟩

theorem Fresh.keepsApart {s : Extracting} (hs : Recorded s) {op : Op} (h : Fresh s op) :
    KeepsApart dataOffset s op := by
  cases op with
  | packet aWhat msgs =>
    exact fun msgId aTo hok => (keepsApart_iff hs h.1 h.2.1 hok).2 h msgId aTo hok
  | merged sender number => trivial

theorem keepsApart_of_recorded {ops : List Op} {s : Extracting} (hs : Recorded s)
    (h : EveryStep (step dataOffset) Fresh ops s) :
    EveryStep (step dataOffset) (KeepsApart dataOffset) ops s := by
  induction ops generalizing s with
  | nil => trivial
  | cons op ops ih =>
    refine ⟨h.1.keepsApart hs, fun s' hs' => ih ?_ (h.2 s' hs')⟩
    cases happly : step dataOffset op s with
    | error e => rw [happly] at hs'; cases hs'
    | ok t =>
      rw [happly] at hs'
      cases hs'
      exact hs.step h.1 happly

/-- The messages of every packet of a run get numbers of their own when the inner numbers do not
    come round to one that is still in use. -/
theorem runAll_keepsApart {ops : List Op} (h : EveryStep (step dataOffset) Fresh ops .start) :
    EveryStep (step dataOffset) (KeepsApart dataOffset) ops .start :=
  keepsApart_of_recorded recorded_start h

theorem step_packet {s : Extracting} {aWhat : UserData} {msgs : List ObtainedDg} {msgId : ℕ}
    {aTo : List UserData} (h : extractMessages dataOffset s.msgId msgs aWhat = .ok (msgId, aTo)) :
    ∃ merging, step dataOffset (.packet aWhat msgs) s =
      .ok ⟨msgId, s.given + innerCount msgs.length, s.merging ++ merging⟩ := by
  simp only [step, h]
  exact ⟨_, rfl⟩

theorem extractLoop_ok (aWhat : UserData) {msgs : List ObtainedDg}
    (hmsgs : ∀ m ∈ msgs, m.begin_ < m.end_) (msgId : ℕ) : ∃ r,
      extractLoop dataOffset aWhat msgId msgs = .ok r := by
  induction msgs generalizing msgId with
  | nil => exact ⟨_, rfl⟩
  | cons msg msgs ih =>
    obtain ⟨r, hr⟩ := ih (fun m hm => hmsgs m (List.mem_cons_of_mem _ hm)) ((msgId + 1) % 2 ^ 16)
    simp only [extractLoop, nextPacketNumberMask, hr, if_pos (hmsgs msg List.mem_cons_self)]
    exact ⟨_, rfl⟩

end

def customerPacket (number : ℕ) : UserData :=
  ⟨⟨number, ['p'], 0, [], [], [], ⟨⟨3, []⟩, []⟩, .default, shareEndian, ⟨⟨0, 0, 0⟩, []⟩⟩, [1, 2]⟩

def foundAt (begin_ : ℕ) : ObtainedDg := ⟨⟨⟨0, 0, 0⟩, []⟩, 0, begin_, begin_ + 1⟩

theorem runAll_keepsApart_customer :
    EveryStep (step fun _ => 0) (KeepsApart fun _ => 0)
      [.packet (customerPacket 5) [foundAt 0, foundAt 1], .packet (customerPacket 6) [foundAt 0],
        .merged 3 (5 + 2 ^ 16), .packet (customerPacket 5) [foundAt 0, foundAt 1]] .start :=
  runAll_keepsApart (by decide)

/-- The inner numbers wrap round within three packets, while the messages of the first one are
    still being merged. -/
def wrappingOps : List Op :=
  [.packet (customerPacket 5) [foundAt 0, foundAt 1],
    .packet (customerPacket 6) (List.replicate 65535 (foundAt 0)),
    .packet (customerPacket 5) [foundAt 0, foundAt 1]]

def afterFirst : Extracting :=
  ⟨2, 2, [⟨(3, 5 + 2 ^ 16), 5, 1⟩, ⟨(3, 5 + 2 * 2 ^ 16), 5, 2⟩]⟩

theorem keepsApart_false_of_wrap :
    ¬ EveryStep (step fun _ => 0) (KeepsApart fun _ => 0) wrappingOps .start := by
  rintro ⟨-, h⟩
  obtain ⟨-, h⟩ := h afterFirst (by decide)
  have hrecorded : Recorded afterFirst := ⟨by decide, by decide, by decide, by decide⟩
  -- the second packet takes all inner numbers but one
  have hlong : ∀ m ∈ List.replicate 65535 (foundAt 0), m.begin_ < m.end_ := fun m hm =>
    List.eq_of_mem_replicate hm ▸ Nat.lt_succ_self 0
  obtain ⟨⟨msgId, aTo⟩, hloop⟩ := @extractLoop_ok (fun _ => 0) (customerPacket 6) _ hlong 2
  have hextract : extractMessages (fun _ => 0) 2 (List.replicate 65535 (foundAt 0))
      (customerPacket 6) = .ok (msgId, aTo) := by
    rw [extractMessages]
    · exact hloop
    · intro msg hone
      have hlength := congrArg List.length hone
      rw [List.length_replicate] at hlength
      have hone' : 65535 = 1 := hlength
      omega
  have hlength : (List.replicate 65535 (foundAt 0)).length = 65535 := List.length_replicate
  have hfresh : Fresh afterFirst
      (.packet (customerPacket 6) (List.replicate 65535 (foundAt 0))) := by
    refine ⟨by decide, by rw [hlength]; omega, ?_⟩
    intro m hm _ hpacket
    have hother : ∀ m ∈ afterFirst.merging, m.packet ≠ 6 := by decide
    exact (hother m hm hpacket).elim
  obtain ⟨merging, hstep⟩ := step_packet (s := afterFirst) hextract
  rw [hlength] at hstep
  have hrecorded' := hrecorded.step hfresh hstep
  obtain ⟨h, -⟩ := h _ (by rw [hstep]; rfl)
  obtain ⟨-, -, hround⟩ := (keepsApart_iff hrecorded' (by decide) (by decide) rfl).1 h
  have hnot : NotRound (2 + innerCount 65535) 2 2 :=
    hround ⟨(3, 5 + 2 * 2 ^ 16), 5, 2⟩ (List.mem_append_left _ (by decide)) rfl rfl
  exact absurd hnot (by decide)

end UdtKernel.Extract
