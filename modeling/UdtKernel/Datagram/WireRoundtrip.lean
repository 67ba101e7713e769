import UdtKernel.Datagram.Wire
import UdtKernel.Lib.Outcome

set_option autoImplicit false

/-! Which packets a machine receives as another one has sent them. -/

namespace UdtKernel
open UdtKernel.Lib Head

theorem length_fillHeader (me : Endian) {info : UserDataInfo} (h : info.Typed) (size : ℕ) :
    (userHeaderFields me info size ++ dynamicFields me info (nameOf info.protocol)).flatten.length =
      bodySize info := by
  unfold bodySize
  have hheader := h.header
  simp [userHeaderFields, dynamicFields, hheader]
  omega

def sendReceive (me me' : Endian) (stamp : Stamp) (d : UserData) : Except Abort WireData := do
  let dg ← serializeInfo me' stamp d.dataId d.data.length
  deserializeData me (dg ++ d.data)

/-- The name ends in time, and the size of the datagram is a number of 32 bits. -/
def IsSent (d : UserData) : Prop :=
  lengthCode d.dataId.protocol ≤ d.dataId.protocol.length + 1 ∧
    sizeofHead + bodySize d.dataId + d.data.length < 2 ^ 32

structure CountsFit (info : UserDataInfo) : Prop where
  events : info.eventsList.length < 256
  destination : info.destination.length < 256
  routing : info.routing.uuids.length < 256
  registrators : info.registrators.length < 256
  protocol : lengthCode info.protocol < 255

section
variable (me me' : Endian) (stamp : Stamp) {d : UserData} (hd : d.dataId.Typed)
include hd

theorem sendReceive_of_isSent (h : IsSent d) :
    sendReceive me me' stamp d = deserializeData me (packetOf me' stamp d) := by
  unfold sendReceive serializeInfo fillHeader
  rw [nameBytes_of_le h.1]
  simp only [bind, Except.bind, pure, Except.pure]
  rw [length_fillHeader me' hd, if_pos ((headAndDataSize_eq_iff (by omega)).2 h.2)]
  dsimp only
  congr 1
  unfold packetOf dgFields
  simp only [List.flatten_append]

/-- The sizes that the datagram of a packet says of itself make up its size. -/
theorem headAndDataSize_packetOf (h : IsSent d) :
    headAndDataSize (headSize (packetOf me' stamp d)) (dataSize me (packetOf me' stamp d)) =
      sizeofHead + bodySize d.dataId + d.data.length := by
  unfold headAndDataSize
  rw [dataSize_packetOf me me' stamp hd, headSize_packetOf, Nat.mod_mod, Nat.add_mod_mod,
    ← Nat.add_assoc, Nat.mod_eq_of_lt h.2]

theorem sendReceive_of_not_isSent (h : ¬IsSent d) (w : WireData) :
    sendReceive me me' stamp d ≠ .ok w := by
  intro hok
  unfold sendReceive serializeInfo fillHeader at hok
  by_cases hname : lengthCode d.dataId.protocol ≤ d.dataId.protocol.length + 1
  · rw [nameBytes_of_le hname] at hok
    simp only [bind, Except.bind, pure, Except.pure] at hok
    rw [length_fillHeader me' hd, if_neg] at hok
    · cases hok
    · exact fun hfit => h ⟨hname, (headAndDataSize_eq_iff (by omega)).1 hfit⟩
  · rw [nameBytes_of_lt (Nat.not_le.1 hname)] at hok
    cases hok

end

/-- What a datagram gives, with the flags as they are read. -/
def UserData.read (me me' : Endian) (d : UserData) (protocol : List ℕ) : WireData where
  eventsList := d.dataId.eventsList
  destination := d.dataId.destination
  routing := d.dataId.routing.uuids
  registrators := d.dataId.registrators
  fromUuid := d.dataId.routing.from_.uuid
  packetNumber := d.dataId.packetNumber
  dataOffset := d.dataId.dataOffset
  split := d.dataId.split
  what := ⟨⟨d.dataId.what.version.major, d.dataId.what.version.minor, 0⟩,
    d.dataId.what.messageHeader⟩
  endian := flagsEndian me (flagsRead me me' d.dataId)
  protocol := protocol
  data := d.data

def dataOffset (header : UserDataHeader) : ℕ :=
  72 + header.eventList * 4 + header.destination * 8 + header.routing * 8 +
    header.registrators * 8 + header.protocolName

theorem deserializeData_eq {me : Endian} {dg data : List Byte} {header : UserDataHeader}
    {events destination routing registrators : List ℕ} {protocol : Except Abort (List ℕ)}
    (hheader : userDataHeader me dg = header)
    (hevents : readNumbers me dg 72 4 header.eventList = .ok events)
    (hdestination : readNumbers me dg (72 + header.eventList * 4) 8 header.destination =
      .ok destination)
    (hrouting : readNumbers me dg (72 + header.eventList * 4 + header.destination * 8) 8
      header.routing = .ok routing)
    (hregistrators : readNumbers me dg (72 + header.eventList * 4 + header.destination * 8 +
      header.routing * 8) 8 header.registrators = .ok registrators)
    (hprotocol : readProtocol dg (72 + header.eventList * 4 + header.destination * 8 +
      header.routing * 8 + header.registrators * 8) header.protocolName = protocol)
    (hdata : readData me dg (dataOffset header) header.dataSize = .ok data) :
    deserializeData me dg = protocol.map fun protocol =>
      { eventsList := events, destination, routing, registrators, protocol, data
        fromUuid := header.uuidFrom
        packetNumber := header.number
        dataOffset := header.dataOffset
        split := ⟨flagsIsLast me header.flags, header.splitCounter, header.splitCoefficient⟩
        what := ⟨⟨header.major, header.minor, 0⟩, header.messageHeader⟩
        endian := flagsEndian me header.flags } := by
  have h72 : sizeofHead + sizeofUserDataHeader = 72 := rfl
  unfold dataOffset at hdata
  subst hheader hprotocol
  unfold deserializeData
  simp only [h72, hevents, hdestination, hrouting, hregistrators, hdata, bind, Except.bind]
  cases readProtocol dg _ (userDataHeader me dg).protocolName <;> rfl

/-- A datagram that is read ends where its head says. -/
theorem deserializeData_ok {me : Endian} {dg : List Byte} {w : WireData}
    (h : deserializeData me dg = .ok w) :
    dataOffset (userDataHeader me dg) + (userDataHeader me dg).dataSize =
      headAndDataSize (headSize dg) (dataSize me dg) := by
  unfold deserializeData at h
  obtain ⟨events, -, h⟩ := eq_ok_of_bind h
  obtain ⟨destination, -, h⟩ := eq_ok_of_bind h
  obtain ⟨routing, -, h⟩ := eq_ok_of_bind h
  obtain ⟨registrators, -, h⟩ := eq_ok_of_bind h
  obtain ⟨protocol, -, h⟩ := eq_ok_of_bind h
  obtain ⟨data, hdata, -⟩ := eq_ok_of_bind h
  unfold readData at hdata
  split_ifs at hdata with hend
  exact not_not.1 hend

theorem flagsIsLast_flagsRead (me me' : Endian) (info : UserDataInfo) :
    flagsIsLast me (flagsRead me me' info) = info.split.isLast := by
  unfold flagsRead
  cases me <;> cases me' <;> cases info.endian <;> cases info.split.isLast <;> rfl

theorem readNumbers_eq {me me' : Endian} {dg tail : List Byte} {offset n : ℕ} {items : List ℕ}
    (hendian : byteAt dg 1 = me'.code.val)
    (hdrop : dg.drop offset = items.flatMap (me'.bytes n) ++ tail)
    (hitems : ∀ v ∈ items, v < 256 ^ n) : readNumbers me dg offset n items.length = .ok items := by
  unfold readNumbers
  rw [hdrop, readItems_flatMap (me'.length_bytes n)]
  have hmap : (items.map (me'.bytes n)).map (endianCorrectValue me dg) = items := by
    rw [List.map_map]
    conv_rhs => rw [← List.map_id items]
    exact List.map_congr_left fun v hv => endianCorrectValue_bytes hendian (hitems v hv)
  exact congrArg Except.ok hmap

theorem protocolNameByte_of_lt {n : ℕ} (h : n < 255) :
    (protocolNameByte n).val = if n = 0 then 0 else n + 1 := by
  unfold protocolNameByte byteOf
  split_ifs
  · rfl
  · rw [Fin.val_ofNat, Nat.mod_eq_of_lt (by omega), Nat.mod_eq_of_lt (by omega)]

def readName (protocol : Text) (data : List Byte) : Except Abort (List ℕ) :=
  if lengthCode protocol = 0 then .ok [] else textOf (nameOf protocol ++ data)

section
variable (me me' : Endian) (stamp : Stamp) {d : UserData} (hd : d.dataId.Typed)
include hd

theorem deserializeData_of_countsFit (hfit : CountsFit d.dataId) (hsent : IsSent d) :
    deserializeData me (packetOf me' stamp d) =
      (readName d.dataId.protocol d.data).map (d.read me me') := by
  obtain ⟨⟨h30, h31⟩, ⟨h32, h33⟩, h34, h35⟩ := offset_dynamicFields me' stamp hd
  have hendian := byteAt_endian me' stamp d
  have hname : (protocolNameByte (lengthCode d.dataId.protocol)).val =
      (nameOf d.dataId.protocol).length := by
    rw [protocolNameByte_of_lt hfit.protocol, length_nameOf]
  have hsize : d.data.length % 2 ^ 32 = d.data.length :=
    Nat.mod_eq_of_lt (Nat.lt_of_le_of_lt (Nat.le_add_left _ _) hsent.2)
  have hevents := @readNumbers_eq me _ _ _ _ _ _ hendian (drop_packetOf me' stamp rfl h30) hd.events
  have hdestination := @readNumbers_eq me _ _ _ _ _ _ hendian (drop_packetOf me' stamp rfl h31)
    hd.destination
  have hrouting := @readNumbers_eq me _ _ _ _ _ _ hendian (drop_packetOf me' stamp rfl h32)
    hd.routing
  have hregistrators := @readNumbers_eq me _ _ _ _ _ _ hendian (drop_packetOf me' stamp rfl h33)
    hd.registrators
  have hprotocol : readProtocol (packetOf me' stamp d)
      (72 + d.dataId.eventsList.length * 4 + d.dataId.destination.length * 8 +
        d.dataId.routing.uuids.length * 8 + d.dataId.registrators.length * 8)
      (protocolNameByte (lengthCode d.dataId.protocol)).val =
        readName d.dataId.protocol d.data := by
    have hlength := length_nameOf d.dataId.protocol
    unfold readProtocol readName
    rw [drop_packetOf me' stamp rfl h34, hname, hlength]
    by_cases hempty : lengthCode d.dataId.protocol = 0
    · rw [if_pos hempty, if_pos rfl, if_pos hempty]
    · rw [if_neg hempty, if_neg (Nat.succ_ne_zero _), if_neg hempty]
      rfl
  have hend : 72 + d.dataId.eventsList.length * 4 + d.dataId.destination.length * 8 +
      d.dataId.routing.uuids.length * 8 + d.dataId.registrators.length * 8 +
      (protocolNameByte (lengthCode d.dataId.protocol)).val = sizeofHead + bodySize d.dataId := by
    rw [hname]
    unfold bodySize sizeofHead
    omega
  have hdata : readData me (packetOf me' stamp d) (sizeofHead + bodySize d.dataId)
      (d.data.length % 2 ^ 32) = .ok d.data := by
    have hdrop := drop_packetOf_data me' stamp h35
    have hlong : (packetOf me' stamp d).length =
        sizeofHead + bodySize d.dataId + d.data.length := by
      unfold packetOf
      rw [List.length_append, ← offsetOf_length]
      exact congrArg (· + d.data.length) h35
    unfold readData field
    rw [hsize, headAndDataSize_packetOf me me' stamp hd hsent, if_neg (not_not_intro rfl),
      if_neg (by omega), hdrop, List.take_length]
  have hheader := userDataHeader_packetOf me me' stamp hd
  rw [Nat.mod_eq_of_lt hfit.events, Nat.mod_eq_of_lt hfit.destination,
    Nat.mod_eq_of_lt hfit.routing, Nat.mod_eq_of_lt hfit.registrators] at hheader
  rw [← hend] at hdata
  rw [deserializeData_eq hheader hevents hdestination hrouting hregistrators hprotocol hdata]
  unfold UserData.read
  rw [flagsIsLast_flagsRead]

/-- Sizes that do not fit are told from the end of the datagram. -/
theorem deserializeData_of_not_countsFit (hfit : ¬CountsFit d.dataId) (hsent : IsSent d)
    (w : WireData) : deserializeData me (packetOf me' stamp d) ≠ .ok w := by
  intro hok
  have hend := deserializeData_ok hok
  have hsize : d.data.length % 2 ^ 32 = d.data.length :=
    Nat.mod_eq_of_lt (Nat.lt_of_le_of_lt (Nat.le_add_left _ _) hsent.2)
  rw [userDataHeader_packetOf me me' stamp hd,
    headAndDataSize_packetOf me me' stamp hd hsent] at hend
  unfold dataOffset bodySize at hend
  dsimp only at hend
  rw [length_nameOf] at hend
  have hname : (protocolNameByte (lengthCode d.dataId.protocol)).val ≤
      (if lengthCode d.dataId.protocol = 0 then 0 else lengthCode d.dataId.protocol + 1) ∧
      (255 ≤ lengthCode d.dataId.protocol →
        (protocolNameByte (lengthCode d.dataId.protocol)).val ≤ lengthCode d.dataId.protocol) := by
    unfold protocolNameByte byteOf
    split_ifs
    · exact ⟨Nat.le_refl _, fun _ => Nat.zero_le _⟩
    · rw [Fin.val_ofNat]
      omega
  have h32 : sizeofHead = 32 := rfl
  refine hfit ⟨?_, ?_, ?_, ?_, ?_⟩ <;> split_ifs at hend hname <;> omega

end

def WireOk (d : UserData) : Prop :=
  IsSent d ∧ CountsFit d.dataId ∧ d.dataId.what.version.release = 0 ∧
    Readable (List.replicate (lengthCode d.dataId.protocol - d.dataId.protocol.length + 1) 0 ++
      d.data) d.dataId.protocol

def UserData.plain (d : UserData) : WireData where
  eventsList := d.dataId.eventsList
  destination := d.dataId.destination
  routing := d.dataId.routing.uuids
  registrators := d.dataId.registrators
  fromUuid := d.dataId.routing.from_.uuid
  packetNumber := d.dataId.packetNumber
  dataOffset := d.dataId.dataOffset
  split := d.dataId.split
  what := d.dataId.what
  endian := d.dataId.endian.code.val
  protocol := codesOf d.dataId.protocol
  data := d.data

theorem readName_eq_ok_iff (protocol : Text) (data : List Byte) :
    readName protocol data = .ok (codesOf protocol) ↔
      Readable (List.replicate (lengthCode protocol - protocol.length + 1) 0 ++ data) protocol := by
  unfold readName
  by_cases hempty : lengthCode protocol = 0
  · have hnil : protocol = [] := by
      have hle := length_le_lengthCode protocol
      rw [hempty] at hle
      exact List.eq_nil_of_length_eq_zero (Nat.eq_zero_of_le_zero hle)
    rw [if_pos hempty, hnil]
    exact ⟨fun _ => trivial, fun _ => rfl⟩
  · rw [if_neg hempty]
    unfold nameOf
    rw [if_neg hempty, List.append_assoc]
    exact textOf_eq_ok_iff rfl

theorem flagsEndian_flagsRead (me : Endian) (info : UserDataInfo) :
    flagsEndian me (flagsRead me me info) = info.endian.code.val := by
  unfold flagsRead
  cases me <;> cases info.endian <;> cases info.split.isLast <;> rfl

theorem read_eq_plain_iff (me : Endian) (d : UserData) (protocol : List ℕ) :
    d.read me me protocol = d.plain ↔
      d.dataId.what.version.release = 0 ∧ protocol = codesOf d.dataId.protocol := by
  unfold UserData.read UserData.plain
  rw [flagsEndian_flagsRead]
  obtain ⟨⟨_, _, _, _, _, _, _, _, _, ⟨⟨major, minor, release⟩, _⟩⟩, _⟩ := d
  simp only [WireData.mk.injEq, RequiredHeader.mk.injEq, Version.mk.injEq, true_and, and_true]
  exact and_congr_left' eq_comm

/-- A packet comes as it was sent just when its name, lists and version let it. -/
theorem sendReceive_eq_plain_iff (me : Endian) (stamp : Stamp) {d : UserData}
    (hd : d.dataId.Typed) : sendReceive me me stamp d = .ok d.plain ↔ WireOk d := by
  unfold WireOk
  by_cases hsent : IsSent d
  · rw [sendReceive_of_isSent me me stamp hd hsent]
    by_cases hfit : CountsFit d.dataId
    · rw [deserializeData_of_countsFit me me stamp hd hfit hsent, ← readName_eq_ok_iff]
      cases hname : readName d.dataId.protocol d.data with
      | error e =>
        refine ⟨fun h => ?_, fun h => ?_⟩
        · cases h
        · cases h.2.2.2
      | ok protocol =>
        have hread := read_eq_plain_iff me d protocol
        refine ⟨fun h => ?_, fun h => ?_⟩
        · obtain ⟨hrelease, hprotocol⟩ := hread.1 (Except.ok.inj h)
          exact ⟨hsent, hfit, hrelease, congrArg Except.ok hprotocol⟩
        · exact congrArg Except.ok (hread.2 ⟨h.2.2.1, Except.ok.inj h.2.2.2⟩)
    · exact ⟨fun h => absurd h (deserializeData_of_not_countsFit me me stamp hd hfit hsent _),
        fun h => absurd h.2.1 hfit⟩
  · exact ⟨fun h => absurd h (sendReceive_of_not_isSent me me stamp hd hsent _),
      fun h => absurd h.1 hsent⟩

def noStamp : Stamp := ⟨0, 1, 5, 1, 0⟩

def somePacket (events : ℕ) (protocol : Text) (release : ℕ) : UserData where
  dataId :=
    { packetNumber := 3
      protocol
      dataOffset := 2
      eventsList := List.replicate events 1
      destination := [7]
      registrators := [8, 9]
      routing := ⟨⟨5, ['a']⟩, [7, 8, 9]⟩
      split := .default
      endian := .big
      what := ⟨⟨1, 2, release⟩, [1, 2, 3, 4, 5, 6, 7, 8]⟩ }
  data := [10, 11]

theorem typed_somePacket (events : ℕ) (protocol : Text) (release : ℕ) :
    (somePacket events protocol release).dataId.Typed where
  events e he := by
    rw [List.eq_of_mem_replicate he]
    decide
  destination := (by decide : ∀ u ∈ [7], u < 256 ^ 8)
  routing := (by decide : ∀ u ∈ [7, 8, 9], u < 256 ^ 8)
  registrators := (by decide : ∀ u ∈ [8, 9], u < 256 ^ 8)
  uuidFrom := (by decide : 5 < 256 ^ 8)
  packetNumber := (by decide : 3 < 256 ^ 4)
  dataOffset := (by decide : 2 < 256 ^ 4)
  counter := (by decide : 1 < 256 ^ 2)
  coefficient := (by decide : 1 < 256 ^ 2)
  header := rfl
  major := (by decide : 1 < 256)
  minor := (by decide : 2 < 256)

theorem sendReceive_eq_plain_somePacket :
    WireOk (somePacket 2 ['r', 'a', 'w'] 0) ∧
    sendReceive .little .little noStamp (somePacket 2 ['r', 'a', 'w'] 0) =
      .ok (somePacket 2 ['r', 'a', 'w'] 0).plain := by
  have h : WireOk (somePacket 2 ['r', 'a', 'w'] 0) :=
    ⟨⟨by decide, by decide⟩, ⟨by decide, by decide, by decide, by decide, by decide⟩, rfl,
      by decide⟩
  exact ⟨h, (sendReceive_eq_plain_iff .little noStamp (typed_somePacket _ _ _)).2 h⟩

/-- 256 events, a name that is not ASCII, and a release. -/
theorem wire_false_of_counts :
    (sendReceive .little .little noStamp (somePacket 256 ['r', 'a', 'w'] 0) ≠
      .ok (somePacket 256 ['r', 'a', 'w'] 0).plain) ∧
    (sendReceive .little .little noStamp (somePacket 2 [Char.ofNat 0x436] 0) ≠
      .ok (somePacket 2 [Char.ofNat 0x436] 0).plain) ∧
    sendReceive .little .little noStamp (somePacket 2 ['r', 'a', 'w'] 4) ≠
      .ok (somePacket 2 ['r', 'a', 'w'] 4).plain := by
  decide +kernel

/-- A packet but for the byte order of its data. -/
def WireData.forgetEndian (w : WireData) : WireData := { w with endian := 0 }

/-- What is read does not depend on the byte order of the machine that sends. -/
theorem sendReceive_forgetEndian (me me' : Endian) (stamp stamp' : Stamp) {d : UserData}
    (hd : d.dataId.Typed) :
    (sendReceive me me' stamp' d).toOption.map WireData.forgetEndian =
      (sendReceive me me stamp d).toOption.map WireData.forgetEndian := by
  have hnone : ∀ {x : Except Abort WireData}, (∀ w, x ≠ .ok w) → x.toOption = none := by
    intro x hx
    cases x with
    | error e => rfl
    | ok w => exact absurd rfl (hx w)
  by_cases hsent : IsSent d
  · rw [sendReceive_of_isSent me me' stamp' hd hsent, sendReceive_of_isSent me me stamp hd hsent]
    by_cases hfit : CountsFit d.dataId
    · rw [deserializeData_of_countsFit me me' stamp' hd hfit hsent,
        deserializeData_of_countsFit me me stamp hd hfit hsent]
      cases readName d.dataId.protocol d.data <;> rfl
    · rw [hnone (deserializeData_of_not_countsFit me me' stamp' hd hfit hsent),
        hnone (deserializeData_of_not_countsFit me me stamp hd hfit hsent)]
  · rw [hnone (sendReceive_of_not_isSent me me' stamp' hd hsent),
      hnone (sendReceive_of_not_isSent me me stamp hd hsent)]

theorem sendReceive_forgetEndian_somePacket :
    (sendReceive .little .big noStamp (somePacket 2 ['r', 'a', 'w'] 0)).toOption.map
        WireData.forgetEndian =
      (sendReceive .little .little noStamp (somePacket 2 ['r', 'a', 'w'] 0)).toOption.map
        WireData.forgetEndian :=
  sendReceive_forgetEndian .little .big noStamp noStamp (typed_somePacket _ _ _)

end UdtKernel
