import UdtKernel.Datagram.WireRoundtrip

set_option autoImplicit false

/-! A packet with its data in one datagram, as the UDP channel sends it. -/

namespace UdtKernel
open UdtKernel.Lib Head

/-- `fill_dg_head`, where the bytes behind the head may be counted in `FDataCrc`. -/
def fillDgHeadOf (me : Endian) (stamp : Stamp) (major minor msgType flags fullSize : ℕ)
    (body : List Byte) (isNeedCrc : Bool) : List (List Byte) :=
  let crc := if isNeedCrc then dataCrcOf (body.take ((fullSize - sizeofHead) % 2 ^ 32)) else 0
  let fields := (headFields me stamp major minor msgType flags (fullSize - sizeofHead)).set 9
    (me.bytes 2 crc)
  fields ++ [[byteOf (headerCrc fields.flatten)]]

theorem fillDgHeadOf_false (me : Endian) (stamp : Stamp) (major minor msgType flags fullSize : ℕ)
    (body : List Byte) : fillDgHeadOf me stamp major minor msgType flags fullSize body false =
      fillDgHead me stamp major minor msgType flags fullSize := rfl

def stored (memory : ℕ → Byte) (offset size : ℕ) : List Byte :=
  (List.range size).map fun i => memory (offset + i)

/-- `serialize` of a `user_data_t`, into a buffer whose storage holds `memory` after `resize`. -/
def serializeData (me : Endian) (stamp : Stamp) (memory : ℕ → Byte) (d : UserData)
    (isNeedCrc : Bool) : Except Abort (ℕ × List Byte) := do
  let size := d.data.length
  let fields ← fillHeader me d.dataId size
  let fullSize := size + fields.flatten.length + size
  -- the pointer moves over the data, which are not copied
  let walked := sizeofHead + fields.flatten.length + size
  if fullSize ≠ walked then throw .sizeIsWrong
  let body := fields.flatten ++ stored memory (sizeofHead + fields.flatten.length) size
  let head := fillDgHeadOf me stamp 0 2 21 0 fullSize body isNeedCrc
  if fullSize = headAndDataSize sizeofHead (fullSize - sizeofHead) then
    return (fullSize, head.flatten ++ body)
  else throw .sizeIsWrong

/-- The datagram of a packet has its size, holds its data once and gives it back. -/
def Whole (me : Endian) (stamp : Stamp) (memory : ℕ → Byte) (d : UserData) (isNeedCrc : Bool) :
    Prop :=
  ∃ dg, serializeData me stamp memory d isNeedCrc =
      .ok (sizeofHead + bodySize d.dataId + d.data.length, dg) ∧
    dg.length = sizeofHead + bodySize d.dataId + d.data.length ∧
    dg.drop (sizeofHead + bodySize d.dataId) = d.data ∧ deserializeData me dg = .ok d.plain

theorem length_stored (memory : ℕ → Byte) (offset size : ℕ) :
    (stored memory offset size).length = size := by
  unfold stored
  rw [List.length_map, List.length_range]

/-- What is read of a datagram is its size, its byte order and what stands behind the head. -/
theorem deserializeData_congr {me : Endian} {dg dg' : List Byte}
    (hsize : byteAt dg 0 = byteAt dg' 0) (hendian : byteAt dg 1 = byteAt dg' 1)
    (hdataSize : field dg 8 4 = field dg' 8 4) (hbody : dg.drop 32 = dg'.drop 32)
    (hlength : dg.length = dg'.length) : deserializeData me dg = deserializeData me dg' := by
  have hdrop : ∀ k, dg.drop (32 + k) = dg'.drop (32 + k) := by
    intro k
    rw [← List.drop_drop, ← List.drop_drop, hbody]
  have hfield : ∀ k n, field dg (32 + k) n = field dg' (32 + k) n := by
    intro k n
    unfold field
    rw [hdrop]
  have hgetD : ∀ k, dg.getD (32 + k) 0 = dg'.getD (32 + k) 0 := by
    intro k
    have hget : dg[32 + k]? = dg'[32 + k]? := by
      rw [← List.getElem?_drop, ← List.getElem?_drop, hbody]
    rw [List.getD_eq_getElem?_getD, List.getD_eq_getElem?_getD, hget]
  have hbyteAt : ∀ k, byteAt dg (32 + k) = byteAt dg' (32 + k) := fun k =>
    congrArg Fin.val (hgetD k)
  have hvalid : isValidEndian me dg = isValidEndian me dg' := by
    unfold isValidEndian
    rw [hendian]
  have hcorrect : endianCorrectValue me dg = endianCorrectValue me dg' := by
    funext bytes
    unfold endianCorrectValue
    rw [hvalid]
  have hheader : userDataHeader me dg = userDataHeader me dg' := by
    unfold userDataHeader
    rw [hcorrect, hvalid, hfield 0 8, hfield 8 8, hgetD 16, hbyteAt 17, hfield 18 2, hfield 20 4,
      hfield 24 2, hbyteAt 26, hbyteAt 27, hbyteAt 28, hbyteAt 29, hbyteAt 30, hbyteAt 31,
      hfield 32 4, hfield 36 4]
  have hnumbers : ∀ k n count, readNumbers me dg (sizeofHead + k) n count =
      readNumbers me dg' (sizeofHead + k) n count := by
    intro k n count
    unfold readNumbers
    rw [show sizeofHead = 32 from rfl, hdrop, hcorrect]
  have hprotocol : ∀ k count, readProtocol dg (sizeofHead + k) count =
      readProtocol dg' (sizeofHead + k) count := by
    intro k count
    unfold readProtocol
    rw [show sizeofHead = 32 from rfl, hdrop]
  have hdata : ∀ k size, readData me dg (sizeofHead + k) size =
      readData me dg' (sizeofHead + k) size := by
    intro k size
    unfold readData dataSize headSize
    rw [show sizeofHead = 32 from rfl, hdataSize, hcorrect, hsize, hlength, hfield]
  unfold deserializeData
  simp only [hheader, Nat.add_assoc, hnumbers, hprotocol, hdata]

section
variable (me : Endian) (stamp : Stamp) (major minor msgType flags fullSize : ℕ) (body : List Byte)
  (isNeedCrc : Bool)

theorem length_fillDgHeadOf :
    (fillDgHeadOf me stamp major minor msgType flags fullSize body isNeedCrc).flatten.length =
      32 := by
  simp [fillDgHeadOf, headFields]

theorem field_fillDgHeadOf (tail : List Byte) :
    field ((fillDgHeadOf me stamp major minor msgType flags fullSize body isNeedCrc).flatten ++
      tail) 8 4 = me.bytes 4 (fullSize - sizeofHead) := by
  refine field_of_offset tail (i := 6) rfl ?_ (me.length_bytes 4 _)
  simp [offsetOf, fillDgHeadOf, headFields]

/-- The CRC of the data is not looked at. -/
theorem deserializeData_fillDgHeadOf (tail : List Byte) :
    deserializeData me
        ((fillDgHeadOf me stamp major minor msgType flags fullSize body isNeedCrc).flatten ++
          tail) =
      deserializeData me ((fillDgHead me stamp major minor msgType flags fullSize).flatten ++
        tail) := by
  rw [← fillDgHeadOf_false me stamp major minor msgType flags fullSize body]
  refine deserializeData_congr rfl rfl ?_ ?_ ?_
  · rw [field_fillDgHeadOf, field_fillDgHeadOf]
  · rw [List.drop_left' (length_fillDgHeadOf ..), List.drop_left' (length_fillDgHeadOf ..)]
  · rw [List.length_append, List.length_append, length_fillDgHeadOf, length_fillDgHeadOf]

end

section
variable (me : Endian) (stamp : Stamp) (memory : ℕ → Byte) {d : UserData} (isNeedCrc : Bool)

/-- The datagram of a packet whose data happen to have the size of a head. -/
def wholeOf (d : UserData) : List Byte :=
  let fields := userHeaderFields me d.dataId d.data.length ++
    dynamicFields me d.dataId (nameOf d.dataId.protocol)
  let body := fields.flatten ++ stored memory (sizeofHead + bodySize d.dataId) d.data.length
  (fillDgHeadOf me stamp 0 2 21 0 (sizeofHead + bodySize d.dataId + d.data.length) body
    isNeedCrc).flatten ++ body

theorem serializeData_of_size (hd : d.dataId.Typed) (hsize : d.data.length = sizeofHead)
    (hsent : IsSent d) : serializeData me stamp memory d isNeedCrc =
      .ok (sizeofHead + bodySize d.dataId + d.data.length,
        wholeOf me stamp memory isNeedCrc d) := by
  have h32 : sizeofHead = 32 := rfl
  have hbound := hsent.2
  have hlength := length_fillHeader me hd d.data.length
  unfold serializeData fillHeader wholeOf
  rw [nameBytes_of_le hsent.1]
  simp only [bind, Except.bind, pure, Except.pure, hlength]
  rw [if_neg (by omega), if_pos ((headAndDataSize_eq_iff (by omega)).2 (by omega))]
  rw [show d.data.length + bodySize d.dataId + d.data.length =
    sizeofHead + bodySize d.dataId + d.data.length by omega]

/-- A size is told from the way the pointer has gone. -/
theorem serializeData_ok (hd : d.dataId.Typed) {size : ℕ} {dg : List Byte}
    (hok : serializeData me stamp memory d isNeedCrc = .ok (size, dg)) :
    d.data.length = sizeofHead ∧ IsSent d := by
  have h32 : sizeofHead = 32 := rfl
  have hlength := length_fillHeader me hd d.data.length
  unfold serializeData fillHeader at hok
  by_cases hname : lengthCode d.dataId.protocol ≤ d.dataId.protocol.length + 1
  · rw [nameBytes_of_le hname] at hok
    simp only [bind, Except.bind, pure, Except.pure, hlength] at hok
    split_ifs at hok with hwalk hfit
    have hbound := (headAndDataSize_eq_iff (by omega)).1 hfit
    exact ⟨by omega, hname, by omega⟩
  · rw [nameBytes_of_lt (Nat.not_le.1 hname)] at hok
    cases hok

theorem drop_wholeOf (hd : d.dataId.Typed) :
    (wholeOf me stamp memory isNeedCrc d).drop (sizeofHead + bodySize d.dataId) =
      stored memory (sizeofHead + bodySize d.dataId) d.data.length := by
  unfold wholeOf
  dsimp only
  rw [← List.append_assoc]
  refine List.drop_left' ?_
  rw [List.length_append, length_fillDgHeadOf, length_fillHeader me hd]
  rfl

theorem length_wholeOf (hd : d.dataId.Typed) :
    (wholeOf me stamp memory isNeedCrc d).length =
      sizeofHead + bodySize d.dataId + d.data.length := by
  unfold wholeOf
  dsimp only
  rw [List.length_append, List.length_append, length_fillDgHeadOf, length_fillHeader me hd,
    length_stored, Nat.add_assoc]
  rfl

/-- A datagram is read as one of the data that were in the memory. -/
theorem deserializeData_wholeOf :
    deserializeData me (wholeOf me stamp memory isNeedCrc d) = deserializeData me
      (packetOf me stamp { d with
        data := stored memory (sizeofHead + bodySize d.dataId) d.data.length }) := by
  unfold wholeOf packetOf dgFields
  rw [deserializeData_fillDgHeadOf, length_stored]
  simp only [List.flatten_append, List.append_assoc]

/-- A packet is sent whole just when its data have the size of a head, are in the memory already,
and it comes as it is. -/
theorem whole_iff (hd : d.dataId.Typed) : Whole me stamp memory d isNeedCrc ↔
    d.data.length = sizeofHead ∧
      stored memory (sizeofHead + bodySize d.dataId) d.data.length = d.data ∧ WireOk d := by
  constructor
  · rintro ⟨dg, hok, -, hdata, hread⟩
    obtain ⟨hsize, hsent⟩ := serializeData_ok me stamp memory isNeedCrc hd hok
    rw [serializeData_of_size me stamp memory isNeedCrc hd hsize hsent] at hok
    cases hok
    have hstored := (drop_wholeOf me stamp memory isNeedCrc hd).symm.trans hdata
    rw [deserializeData_wholeOf, hstored] at hread
    refine ⟨hsize, hstored, (sendReceive_eq_plain_iff me stamp hd).1 ?_⟩
    rw [sendReceive_of_isSent me me stamp hd hsent]
    exact hread
  · rintro ⟨hsize, hstored, hwire⟩
    have hread := (sendReceive_eq_plain_iff me stamp hd).2 hwire
    rw [sendReceive_of_isSent me me stamp hd hwire.1] at hread
    refine ⟨_, serializeData_of_size me stamp memory isNeedCrc hd hsize hwire.1,
      length_wholeOf me stamp memory isNeedCrc hd, ?_, ?_⟩
    · rw [drop_wholeOf me stamp memory isNeedCrc hd, hstored]
    · rw [deserializeData_wholeOf, hstored]
      exact hread

end

def packetOfSize (size : ℕ) : UserData :=
  { somePacket 2 ['r', 'a', 'w'] 0 with data := List.replicate size 5 }

theorem whole_packetOfSize :
    Whole .little noStamp (fun _ => 5) (packetOfSize 32) true := by
  have hwire : WireOk (packetOfSize 32) :=
    ⟨⟨by decide, by decide⟩, ⟨by decide, by decide, by decide, by decide, by decide⟩, rfl,
      by decide⟩
  have htyped : (packetOfSize 32).dataId.Typed := typed_somePacket 2 ['r', 'a', 'w'] 0
  exact (whole_iff .little noStamp (fun _ => 5) true htyped).2 ⟨rfl, by decide, hwire⟩

/-- Data of two bytes do not pass the check; of 32 bytes the memory is sent in their place. -/
theorem whole_false_of_size :
    serializeData .little noStamp (fun _ => 0) (packetOfSize 2) false = .error .sizeIsWrong ∧
    ((serializeData .little noStamp (fun _ => 0) (packetOfSize 32) false).map
      fun p => p.2.drop (sizeofHead + bodySize (packetOfSize 32).dataId)) =
      .ok (List.replicate 32 0) := by
  decide +kernel

end UdtKernel
