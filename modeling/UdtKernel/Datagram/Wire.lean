import UdtKernel.Datagram.UserData
import UdtKernel.Datagram.Names

set_option autoImplicit false

/-! What is read of the bytes of a packet. -/

namespace UdtKernel
open UdtKernel.Lib Head

@[simp] theorem Endian.length_bytes (me : Endian) (n v : ℕ) : (me.bytes n v).length = n := by
  cases me with
  | little => exact length_toDigits n v
  | big =>
    rw [Endian.bytes, List.length_reverse]
    exact length_toDigits n v

@[simp] theorem Endian.length_flatMap_bytes (me : Endian) (n : ℕ) (items : List ℕ) :
    (items.flatMap (me.bytes n)).length = items.length * n := by
  induction items with
  | nil => exact (Nat.zero_mul n).symm
  | cons v items ih =>
    rw [List.flatMap_cons, List.length_append, me.length_bytes, ih, List.length_cons,
      Nat.succ_mul, Nat.add_comm]

/-- A number that one machine writes is read by another. -/
theorem endianCorrectValue_bytes {me me' : Endian} {dg : List Byte}
    (hendian : byteAt dg 1 = me'.code.val) {n v : ℕ} (hv : v < 256 ^ n) :
    endianCorrectValue me dg (me'.bytes n v) = v := by
  have hdigits : ofDigits (toDigits 256 n v) = v := ofDigits_toDigits_of_lt hv
  unfold endianCorrectValue isValidEndian
  rw [hendian]
  cases me with
  | little =>
    cases me' with
    | little => exact hdigits
    | big =>
      change ofDigits (toDigits 256 n v).reverse.reverse = v
      rw [List.reverse_reverse, hdigits]
  | big =>
    cases me' with
    | little =>
      change ofDigits (toDigits 256 n v).reverse.reverse = v
      rw [List.reverse_reverse, hdigits]
    | big =>
      change ofDigits (toDigits 256 n v).reverse.reverse = v
      rw [List.reverse_reverse, hdigits]

theorem endianCorrectValue_bytes_mod {me me' : Endian} {dg : List Byte}
    (hendian : byteAt dg 1 = me'.code.val) (n v : ℕ) :
    endianCorrectValue me dg (me'.bytes n v) = v % 256 ^ n := by
  have hbytes : me'.bytes n v = me'.bytes n (v % 256 ^ n) := by
    have hdigits : toDigits 256 n v = toDigits 256 n (v % 256 ^ n) := by
      induction n generalizing v with
      | zero => rfl
      | succ n ih =>
        rw [toDigits, toDigits, ih (v / 256), Nat.pow_succ, Nat.mul_comm (256 ^ n),
          Nat.mod_mul_right_div_self]
        congr 1
        exact Fin.ext (Nat.mod_mul_right_mod v 256 (256 ^ n)).symm
    cases me' with
    | little => exact hdigits
    | big => exact congrArg List.reverse hdigits
  rw [hbytes]
  exact endianCorrectValue_bytes hendian (Nat.mod_lt _ (Nat.pow_pos (by decide)))

theorem field_of_offset {fs : List (List Byte)} {i offset n : ℕ} {f : List Byte} (tail : List Byte)
    (h : fs[i]? = some f) (hoffset : offsetOf fs i = offset) (hn : f.length = n) :
    field (fs.flatten ++ tail) offset n = f := by
  subst hoffset hn
  exact take_drop_offsetOf tail h

theorem getD_of_field {dg : List Byte} {offset : ℕ} {b : Byte} (h : field dg offset 1 = [b]) :
    dg.getD offset 0 = b := by
  unfold field at h
  rw [List.getD_eq_getElem?_getD, ← List.head?_drop]
  cases hdrop : dg.drop offset with
  | nil =>
    rw [hdrop] at h
    cases h
  | cons c l =>
    rw [hdrop] at h
    cases h
    rfl

theorem byteAt_of_field {dg : List Byte} {offset : ℕ} {b : Byte} (h : field dg offset 1 = [b]) :
    byteAt dg offset = b.val := congrArg Fin.val (getD_of_field h)

structure UserDataInfo.Typed (info : UserDataInfo) : Prop where
  events : ∀ e ∈ info.eventsList, e < 256 ^ 4
  destination : ∀ u ∈ info.destination, u < 256 ^ 8
  routing : ∀ u ∈ info.routing.uuids, u < 256 ^ 8
  registrators : ∀ u ∈ info.registrators, u < 256 ^ 8
  uuidFrom : info.routing.from_.uuid < 256 ^ 8
  packetNumber : info.packetNumber < 256 ^ 4
  dataOffset : info.dataOffset < 256 ^ 4
  counter : info.split.counter < 256 ^ 2
  coefficient : info.split.coefficient < 256 ^ 2
  header : info.what.messageHeader.length = 8
  major : info.what.version.major < 256
  minor : info.what.version.minor < 256

theorem length_le_lengthCode (text : Text) : text.length ≤ lengthCode text := by
  unfold lengthCode
  induction text with
  | nil => exact Nat.le_refl _
  | cons c text ih =>
    have hpos : 1 ≤ charLen c.toNat := by
      unfold charLen
      split_ifs <;> decide
    rw [List.map_cons, List.sum_cons, List.length_cons, Nat.add_comm]
    exact Nat.add_le_add hpos ih

theorem copyText_of_le {text : Text} {n : ℕ} (h : text.length ≤ n) (hn : n ≤ text.length + 1) :
    copyText n text = .ok (text.map codeByte ++ List.replicate (n - text.length) 0) := by
  induction text generalizing n with
  | nil =>
    have hn : n = 0 ∨ n = 1 := by
      rw [List.length_nil] at hn
      omega
    rcases hn with rfl | rfl <;> rfl
  | cons c text ih =>
    obtain ⟨n, rfl⟩ := Nat.exists_eq_succ_of_ne_zero (Nat.ne_of_gt (Nat.lt_of_lt_of_le
      (Nat.zero_lt_succ _) h))
    rw [List.length_cons] at h hn
    rw [copyText, ih (Nat.le_of_succ_le_succ h) (Nat.le_of_succ_le_succ hn), List.length_cons,
      Nat.succ_sub_succ]
    rfl

theorem copyText_of_lt {text : Text} {n : ℕ} (h : text.length + 1 < n) :
    copyText n text = .error .readOutside := by
  induction text generalizing n with
  | nil =>
    obtain ⟨n, rfl⟩ := Nat.exists_eq_add_of_lt h
    rw [List.length_nil, Nat.zero_add, Nat.add_comm 1, Nat.add_assoc, copyText]
  | cons c text ih =>
    obtain ⟨n, rfl⟩ := Nat.exists_eq_succ_of_ne_zero (Nat.ne_of_gt (Nat.lt_of_le_of_lt
      (Nat.zero_le _) h))
    rw [copyText, ih (Nat.lt_of_succ_lt_succ h)]
    rfl

def nameOf (protocol : Text) : List Byte :=
  if lengthCode protocol = 0 then []
  else protocol.map codeByte ++ List.replicate (lengthCode protocol - protocol.length + 1) 0

theorem nameBytes_of_le {protocol : Text} (h : lengthCode protocol ≤ protocol.length + 1) :
    nameBytes protocol = .ok (nameOf protocol) := by
  unfold nameBytes nameOf
  split_ifs
  · rfl
  · rw [copyText_of_le (length_le_lengthCode protocol) h, List.replicate_succ', ← List.append_assoc]
    rfl

theorem nameBytes_of_lt {protocol : Text} (h : protocol.length + 1 < lengthCode protocol) :
    nameBytes protocol = .error .readOutside := by
  unfold nameBytes
  rw [if_neg (Nat.ne_of_gt (Nat.lt_of_le_of_lt (Nat.zero_le _) h)), copyText_of_lt h]
  rfl

theorem length_nameOf (protocol : Text) :
    (nameOf protocol).length = if lengthCode protocol = 0 then 0 else lengthCode protocol + 1 := by
  have hle := length_le_lengthCode protocol
  unfold nameOf
  split_ifs
  · rfl
  · rw [List.length_append, List.length_map, List.length_replicate]
    omega

def bodySize (info : UserDataInfo) : ℕ :=
  40 + info.eventsList.length * 4 + info.destination.length * 8 + info.routing.uuids.length * 8 +
    info.registrators.length * 8 + (nameOf info.protocol).length

def dgFields (me : Endian) (stamp : Stamp) (d : UserData) : List (List Byte) :=
  fillDgHead me stamp 0 2 21 0 (sizeofHead + bodySize d.dataId + d.data.length) ++
    (userHeaderFields me d.dataId d.data.length ++
      dynamicFields me d.dataId (nameOf d.dataId.protocol))

def packetOf (me : Endian) (stamp : Stamp) (d : UserData) : List Byte :=
  (dgFields me stamp d).flatten ++ d.data

section
variable (me me' : Endian) (stamp : Stamp) (d : UserData)

theorem byteAt_endian : byteAt (packetOf me' stamp d) 1 = me'.code.val :=
  byteAt_of_field (field_of_offset d.data (i := 1) rfl rfl rfl)

theorem headSize_packetOf : headSize (packetOf me' stamp d) = sizeofHead := by
  have hfield : field (packetOf me' stamp d) 0 1 = [byteOf sizeofHead] :=
    field_of_offset d.data (i := 0) rfl rfl rfl
  exact byteAt_of_field hfield

theorem isValidEndian_packetOf :
    isValidEndian me (packetOf me' stamp d) = decide (me = me') := by
  unfold isValidEndian
  rw [byteAt_endian]
  cases me <;> cases me' <;> rfl

def flagsRead (info : UserDataInfo) : Byte :=
  let flags := flagsByte me' info.endian.code.val info.split.isLast
  if me = me' then flags else reverseBits flags

variable {d}

theorem getD_packetOf {i offset : ℕ} {b : Byte} (hget : (dgFields me' stamp d)[i]? = some [b])
    (hoffset : offsetOf (dgFields me' stamp d) i = offset) :
    (packetOf me' stamp d).getD offset 0 = b :=
  getD_of_field (field_of_offset d.data hget hoffset rfl)

theorem byteAt_packetOf {i offset : ℕ} {b : Byte} (hget : (dgFields me' stamp d)[i]? = some [b])
    (hoffset : offsetOf (dgFields me' stamp d) i = offset) :
    byteAt (packetOf me' stamp d) offset = b.val :=
  congrArg Fin.val (getD_packetOf me' stamp hget hoffset)

theorem number_packetOf {i offset n v : ℕ}
    (hget : (dgFields me' stamp d)[i]? = some (me'.bytes n v))
    (hoffset : offsetOf (dgFields me' stamp d) i = offset) :
    endianCorrectValue me (packetOf me' stamp d) (field (packetOf me' stamp d) offset n) =
      v % 256 ^ n := by
  have hfield : field (packetOf me' stamp d) offset n = me'.bytes n v :=
    field_of_offset d.data hget hoffset (me'.length_bytes n v)
  rw [hfield]
  exact endianCorrectValue_bytes_mod (byteAt_endian me' stamp d) n v

theorem drop_packetOf {i offset : ℕ} {f : List Byte} (hget : (dgFields me' stamp d)[i]? = some f)
    (hoffset : offsetOf (dgFields me' stamp d) i = offset) :
    (packetOf me' stamp d).drop offset =
      f ++ (((dgFields me' stamp d).drop (i + 1)).flatten ++ d.data) := by
  subst hoffset
  exact drop_offsetOf_eq d.data hget

theorem drop_packetOf_data {offset : ℕ} (hoffset : offsetOf (dgFields me' stamp d) 35 = offset) :
    (packetOf me' stamp d).drop offset = d.data := by
  subst hoffset
  exact drop_offsetOf _ d.data 35

variable (h : d.dataId.Typed)
include h

/-- Where the fields of the headers begin. -/
theorem offsets_dgFields :
    (List.range 31).map (offsetOf (dgFields me' stamp d)) =
      [0, 1, 2, 4, 5, 6, 8, 12, 16, 24, 26, 27, 28, 30, 31, 32, 40, 48, 49, 50, 52, 56, 58, 59, 60,
        61, 62, 63, 64, 68, 72] := by
  simp [offsetOf, dgFields, fillDgHead, headFields, userHeaderFields, List.range_succ, h.header]

theorem offset_dgFields {i offset : ℕ} (hi : i < 31)
    (hoffset : ([0, 1, 2, 4, 5, 6, 8, 12, 16, 24, 26, 27, 28, 30, 31, 32, 40, 48, 49, 50, 52, 56,
      58, 59, 60, 61, 62, 63, 64, 68, 72] : List ℕ)[i]? = some offset) :
    offsetOf (dgFields me' stamp d) i = offset := by
  rw [← offsets_dgFields me' stamp h, List.getElem?_map, List.getElem?_range hi] at hoffset
  exact Option.some.inj hoffset

theorem dataSize_packetOf : dataSize me (packetOf me' stamp d) =
    (bodySize d.dataId + d.data.length) % 2 ^ 32 := by
  unfold dataSize
  rw [@number_packetOf me me' stamp d 6 8 4 _ rfl (offset_dgFields me' stamp h (by decide) rfl),
    Nat.add_assoc, Nat.add_sub_cancel_left]
  rfl

theorem userDataHeader_packetOf :
    userDataHeader me (packetOf me' stamp d) =
      { uuidFrom := d.dataId.routing.from_.uuid
        messageHeader := d.dataId.what.messageHeader
        flags := flagsRead me me' d.dataId
        eventList := d.dataId.eventsList.length % 256
        splitCounter := d.dataId.split.counter
        dataOffset := d.dataId.dataOffset
        splitCoefficient := d.dataId.split.coefficient
        destination := d.dataId.destination.length % 256
        routing := d.dataId.routing.uuids.length % 256
        registrators := d.dataId.registrators.length % 256
        protocolName := (protocolNameByte (lengthCode d.dataId.protocol)).val
        minor := d.dataId.what.version.minor
        major := d.dataId.what.version.major
        number := d.dataId.packetNumber
        dataSize := d.data.length % 2 ^ 32 } := by
  have hoffset := @offset_dgFields me' stamp d h
  have hnumber := @number_packetOf me me' stamp d
  have hbyte := @byteAt_packetOf me' stamp d
  have hmessage : field (packetOf me' stamp d) 40 8 = d.dataId.what.messageHeader :=
    field_of_offset d.data (i := 16) rfl (hoffset (by decide) rfl) h.header
  have hflags : (packetOf me' stamp d).getD 48 0 =
      flagsByte me' d.dataId.endian.code.val d.dataId.split.isLast :=
    getD_packetOf me' stamp (i := 17) rfl (hoffset (by decide) rfl)
  have hminor : (byteOf d.dataId.what.version.minor).val = d.dataId.what.version.minor :=
    Nat.mod_eq_of_lt h.minor
  have hmajor : (byteOf d.dataId.what.version.major).val = d.dataId.what.version.major :=
    Nat.mod_eq_of_lt h.major
  unfold userDataHeader flagsRead
  rw [@hnumber 15 32 8 _ rfl (hoffset (by decide) rfl), hmessage, hflags, isValidEndian_packetOf,
    @hbyte 18 49 _ rfl (hoffset (by decide) rfl),
    @hnumber 19 50 2 _ rfl (hoffset (by decide) rfl),
    @hnumber 20 52 4 _ rfl (hoffset (by decide) rfl),
    @hnumber 21 56 2 _ rfl (hoffset (by decide) rfl),
    @hbyte 22 58 _ rfl (hoffset (by decide) rfl),
    @hbyte 23 59 _ rfl (hoffset (by decide) rfl),
    @hbyte 24 60 _ rfl (hoffset (by decide) rfl),
    @hbyte 25 61 _ rfl (hoffset (by decide) rfl),
    @hbyte 26 62 _ rfl (hoffset (by decide) rfl),
    @hbyte 27 63 _ rfl (hoffset (by decide) rfl),
    @hnumber 28 64 4 _ rfl (hoffset (by decide) rfl),
    @hnumber 29 68 4 _ rfl (hoffset (by decide) rfl),
    Nat.mod_eq_of_lt h.uuidFrom, Nat.mod_eq_of_lt h.counter, Nat.mod_eq_of_lt h.dataOffset,
    Nat.mod_eq_of_lt h.coefficient, Nat.mod_eq_of_lt h.packetNumber, hminor, hmajor]
  by_cases hme : me = me'
  · simp only [hme, decide_true, if_pos]
    rfl
  · simp only [hme, decide_false, Bool.false_eq_true, if_neg, not_false_eq_true]
    rfl

/-- Where the lists, the name and the data begin. -/
theorem offset_dynamicFields :
    (offsetOf (dgFields me' stamp d) 30 = 72 ∧
    offsetOf (dgFields me' stamp d) 31 = 72 + d.dataId.eventsList.length * 4) ∧
    (offsetOf (dgFields me' stamp d) 32 =
      72 + d.dataId.eventsList.length * 4 + d.dataId.destination.length * 8 ∧
    offsetOf (dgFields me' stamp d) 33 =
      72 + d.dataId.eventsList.length * 4 + d.dataId.destination.length * 8 +
        d.dataId.routing.uuids.length * 8) ∧
    offsetOf (dgFields me' stamp d) 34 =
      72 + d.dataId.eventsList.length * 4 + d.dataId.destination.length * 8 +
        d.dataId.routing.uuids.length * 8 + d.dataId.registrators.length * 8 ∧
    offsetOf (dgFields me' stamp d) 35 = sizeofHead + bodySize d.dataId := by
  have hsucc := fun i f => @offsetOf_succ _ (dgFields me' stamp d) i f
  have h30 : offsetOf (dgFields me' stamp d) 30 = 72 := offset_dgFields me' stamp h (by decide) rfl
  have h31 := hsucc 30 _ rfl
  have h32 := hsucc 31 _ rfl
  have h33 := hsucc 32 _ rfl
  have h34 := hsucc 33 _ rfl
  have h35 := hsucc 34 _ rfl
  rw [h30, Endian.length_flatMap_bytes] at h31
  rw [h31, Endian.length_flatMap_bytes] at h32
  rw [h32, Endian.length_flatMap_bytes] at h33
  rw [h33, Endian.length_flatMap_bytes] at h34
  rw [h34] at h35
  refine ⟨⟨h30, h31⟩, ⟨h32, h33⟩, h34, h35.trans ?_⟩
  unfold bodySize sizeofHead
  omega

end

end UdtKernel
