import UdtKernel.Datagram.WireRoundtrip
import UdtKernel.Config.Messages
import UdtKernel.Config.Writer
import UdtKernel.Datagram.UserData

set_option autoImplicit false

/-! How a message becomes the text of a datagram and the text a message, and when a message comes
out of a datagram as its text went in. -/

namespace UdtKernel
open UdtKernel.Lib Head Config

namespace Service

/-- `sizeof` of a `dg_json_base_t`. -/
def sizeofJsonDg : ℕ := sizeofHead + 4

def eRouteOfMsg : ℕ := 1 <<< 1

def eErrorOfMsg : ℕ := 1 <<< 2

def configOf (what : Config) (route : Routing) (error : ErrorInfo) : Config :=
  what |>.addIf (route.uuids ≠ []) route.serialize |>.addIf error.isValid error.serialize

/-- `FFlags`. -/
def flagsOf (route : Routing) (error : ErrorInfo) : ℕ :=
  (if route.uuids ≠ [] then eRouteOfMsg else 0) ||| if error.isValid then eErrorOfMsg else 0

/-- The fields of a datagram of a text, with the two bytes behind `FStrSize`. -/
def jsonDgFields (me : Endian) (stamp : Stamp) (unset : Byte × Byte) (msgType flags strSize : ℕ)
    (str : List Byte) : List (List Byte) :=
  fillDgHead me stamp 0 1 msgType flags (sizeofJsonDg + strSize + 1) ++
    [me.bytes 2 ((strSize + 1) % 2 ^ 16), [unset.1, unset.2], str, [0]]

def serialize (me : Endian) (stamp : Stamp) (unset : Byte × Byte) (msgType : ℕ) (what : Config)
    (route : Routing) (error : ErrorInfo) : Except Abort (List Byte) := do
  let text := (configOf what route error).document.write
  let strSize := lengthCode text
  let fullSize := sizeofJsonDg + strSize + 1
  let str ← copyText strSize text
  if fullSize = headAndDataSize sizeofHead (fullSize - sizeofHead) then
    return (jsonDgFields me stamp unset msgType (flagsOf route error) strSize str).flatten
  else throw .sizeIsWrong

structure Deserialized where
  text : List ℕ
  value : Config
  route : Option Routing
  error : Option ErrorInfo

def isFlag (dg : List Byte) (flag : ℕ) : Bool := byteAt dg 27 &&& flag ≠ 0

/-- The text of a datagram, with what `deserialize` checks of it. -/
def readText (me : Endian) (dg : List Byte) : Except Abort (List ℕ) := do
  let strSize := endianCorrectValue me dg (field dg 32 2)
  -- the length would be `npos`
  if strSize = 0 then throw .sizeIsWrong
  let text ← assignText (dg.drop sizeofJsonDg) (strSize - 1)
  if text = [] then throw .textIsEmpty
  if (text.map charLen).sum ≠ strSize - 1 then throw .sizeIsWrong
  return text

/-- `deserialize<aKdTypeY, Tto>` with the name of `Tto`, for a caller that takes a route and an
    error. -/
def deserialize (read : List ℕ → Json) (me : Endian) (name : String) (dg : List Byte) :
    Except Abort Deserialized := do
  let text ← readText me dg
  let value := (← fromJson (read text)).child name
  return {
    text, value
    route := if isFlag dg eRouteOfMsg then some (Routing.ofConfig (value.child "rtg_")) else none
    error :=
      if isFlag dg eErrorOfMsg then some (ErrorInfo.ofConfig (value.child "err_")) else none }

def sendReceive (read : List ℕ → Json) (me me' : Endian) (stamp : Stamp) (unset : Byte × Byte)
    (msgType : ℕ) (m : Message) (route : Routing) (error : ErrorInfo) :
    Except Abort Deserialized := do
  let dg ← serialize me' stamp unset msgType m.serialize route error
  deserialize read me m.name dg

end Service

theorem cString_unsignedToStr (n : ℕ) : cString (unsignedToStr n) = unsignedToStr n := by
  have hdigits : unsignedToStr n = Nat.toDigits 10 n := rfl
  unfold cString
  rw [hdigits, List.takeWhile_eq_self_iff]
  intro c hc
  refine decide_eq_true ?_
  rintro rfl
  exact absurd (Nat.isDigit_of_mem_toDigits (by decide) (by decide) hc) (by decide)

theorem regroup_serializeUuid (u : Uuid) : (serializeUuid u).regroup = serializeUuid u := by
  unfold serializeUuid
  rw [regroup_leaf, cString_unsignedToStr]

theorem regroup_withKey (k : String) (c : Config) :
    (withKey k c).regroup = withKey k c.regroup := by
  cases c
  rw [regroup]
  unfold withKey
  rw [value_node, children_node, regroup, value_node, children_node]

theorem uuidsOf_regroup (l : List Uuid) :
    uuidsOf (serializeUuids l).regroup = uuidsOf (serializeUuids l) := by
  have hchildren : (serializeUuids l).childrenOf "uuid" = l.map serializeUuid := by
    simp [serializeUuids, serializeUuid]
  have hregroup : (l.map serializeUuid).map regroup = l.map serializeUuid := by
    rw [List.map_map]
    exact List.map_congr_left fun u _ => regroup_serializeUuid u
  unfold uuidsOf
  rw [childrenOf_regroup, hchildren, hregroup]

/-- Of an id the name is read up to a `\0`. -/
theorem Id.ofConfig_regroup {i : Id} (h : Unsigned 64 i.uuid) :
    Id.ofConfig i.serialize.regroup = ⟨i.uuid, cString i.name⟩ := by
  have huuid : i.serialize.child "uuid" = serializeUuid i.uuid := by
    simp [serialize, serializeUuid]
  have hname : i.serialize.child "n" = leaf "n" i.name := by
    simp [serialize]
  unfold Id.ofConfig Config.get
  rw [child_regroup, child_regroup, huuid, hname, regroup_serializeUuid, regroup_leaf,
    uuidOf_serializeUuid h, value_leaf, readValue_some]

theorem cString_eq_self_iff (t : Text) : cString t = t ↔ '\x00' ∉ t := by
  unfold cString
  rw [List.takeWhile_eq_self_iff]
  constructor
  · exact fun h hmem => of_decide_eq_true (h _ hmem) rfl
  · exact fun h c hc => decide_eq_true fun hzero => h (hzero ▸ hc)

def Routing.IsWritten (r : Routing) : Prop := r.isValid = true ∧ '\x00' ∉ r.from_.name

def Service.ErrorInfo.IsWritten (e : ErrorInfo) : Prop := '\x00' ∉ e.whereId.name

theorem Routing.ofConfig_regroup_eq_iff {r : Routing} (h : r.Fits) (huuids : r.uuids ≠ []) :
    Routing.ofConfig r.serialize.regroup = r ↔ r.IsWritten := by
  unfold IsWritten
  by_cases hvalid : r.isValid = true
  · have hid : r.serialize.child "id" = withKey "id" r.from_.serialize := by
      simp [serialize, hvalid]
    have hlist : r.serialize.child "uuids" = serializeUuids r.uuids := by
      simp [serialize, hvalid, serializeUuids]
    have hread : Routing.ofConfig r.serialize.regroup =
        ⟨⟨r.from_.uuid, cString r.from_.name⟩, r.uuids⟩ := by
      unfold Routing.ofConfig
      rw [child_regroup, child_regroup, hid, hlist, regroup_withKey, Id.ofConfig_withKey,
        Id.ofConfig_regroup h.uuid, uuidsOf_regroup, uuidsOf_serializeUuids h.uuids]
    rw [hread, ← cString_eq_self_iff]
    obtain ⟨⟨uuid, name⟩, uuids⟩ := r
    simp [hvalid]
  · have hnamed : r.serialize = named "rtg_" := if_neg hvalid
    have hread : Routing.ofConfig r.serialize.regroup = .default := by
      have hleaf : (named "rtg_").regroup = leaf "rtg_" (cString []) := regroup_leaf "rtg_" []
      rw [hnamed, hleaf]
      rfl
    rw [hread]
    refine ⟨fun heq => absurd ?_ huuids, fun hwritten => absurd hwritten.1 hvalid⟩
    rw [← heq]
    rfl

theorem Service.ErrorInfo.ofConfig_regroup_eq_iff {e : ErrorInfo} (h : e.Fits)
    (hvalid : e.isValid = true) :
    ErrorInfo.ofConfig e.serialize.regroup = e ↔ e.IsWritten := by
  have hne : e.error ≠ eNoError := of_decide_eq_true hvalid
  have hcode : e.serialize.child "code" = leaf "code" (unsignedToStr e.error) := by
    simp [serialize, hvalid]
  have hid : e.serialize.child "id" = withKey "id" e.whereId.serialize := by
    simp [serialize, hvalid]
  have hlist : e.serialize.child "uuids" = serializeUuids e.uuids := by
    simp [serialize, hvalid, serializeUuids]
  have hread : ErrorInfo.ofConfig e.serialize.regroup =
      ⟨e.error, ⟨e.whereId.uuid, cString e.whereId.name⟩, e.uuids⟩ := by
    unfold ErrorInfo.ofConfig Config.get
    simp only [child_regroup, hcode, hid, hlist, regroup_leaf, cString_unsignedToStr, value_leaf,
      readValue_unsigned _ h.error, regroup_withKey, Id.ofConfig_withKey,
      Id.ofConfig_regroup h.whereId, uuidsOf_regroup, uuidsOf_serializeUuids h.uuids]
    exact if_pos hne
  unfold IsWritten
  rw [hread, ← cString_eq_self_iff]
  obtain ⟨error, ⟨uuid, name⟩, uuids⟩ := e
  simp

theorem length_eq_lengthCode_iff (text : Text) :
    lengthCode text = text.length ↔ Json.isAsciiText text = true := by
  induction text with
  | nil => exact ⟨fun _ => rfl, fun _ => rfl⟩
  | cons c text ih =>
    have hle := length_le_lengthCode text
    have hsplit : lengthCode (c :: text) = charLen c.toNat + lengthCode text := by
      unfold lengthCode
      rw [List.map_cons, List.sum_cons]
    have hchar : (charLen c.toNat = 1 ↔ c.toNat < 0x80) ∧ 1 ≤ charLen c.toNat := by
      unfold charLen
      split_ifs <;> simp <;> omega
    rw [hsplit, List.length_cons, Json.isAsciiText_cons, Bool.and_eq_true, decide_eq_true_eq, ← ih,
      ← hchar.1]
    have hpos := hchar.2
    omega

theorem sum_charLen_codesOf (text : Text) : ((codesOf text).map charLen).sum = lengthCode text := by
  unfold codesOf lengthCode
  rw [List.map_map]
  rfl

/-- A text of ASCII without a `\0` can be read where it ends. -/
theorem readable_of_isAscii {text : Text} (h : Json.isAsciiText text = true) (hzero : '\x00' ∉ text)
    {tail : List Byte} (htail : tail.head? = some 0) : Readable tail text := by
  have hone : ∀ c ∈ text, (0 < c.toNat ∧ c.toNat < 256) ∧ seqLen (codeByte c) = 1 := by
    intro c hc
    have hlt : c.toNat < 0x80 := of_decide_eq_true (List.all_eq_true.1 h c hc)
    have hpos : 0 < c.toNat := by
      refine Nat.pos_of_ne_zero fun heq => hzero ?_
      have hc₀ : c = '\x00' := Char.toNat_inj.1 heq
      exact hc₀ ▸ hc
    refine ⟨⟨hpos, by omega⟩, ?_⟩
    unfold seqLen
    rw [codeByte_val (by omega), if_pos hlt]
  clear h hzero
  induction text with
  | nil => trivial
  | cons c text ih =>
    obtain ⟨hrange, hseq⟩ := hone c List.mem_cons_self
    cases text with
    | nil =>
      refine ⟨hrange, ?_⟩
      rw [hseq, ← htail, List.head?_eq_getElem?]
    | cons d text => exact ⟨hrange, hseq, ih fun e he => hone e (List.mem_cons_of_mem c he)⟩

namespace Service

def textDg (me : Endian) (stamp : Stamp) (unset : Byte × Byte) (msgType flags : ℕ) (text : Text) :
    List Byte :=
  (jsonDgFields me stamp unset msgType flags (lengthCode text)
    (text.map codeByte ++ List.replicate (lengthCode text - text.length) 0)).flatten

section
variable (me me' : Endian) (stamp : Stamp) (unset : Byte × Byte) (msgType flags : ℕ)

theorem serialize_eq_ok_iff (what : Config) (route : Routing) (error : ErrorInfo)
    (dg : List Byte) :
    let text := (configOf what route error).document.write
    serialize me stamp unset msgType what route error = .ok dg ↔
      (lengthCode text ≤ text.length + 1 ∧ sizeofJsonDg + lengthCode text + 1 < 2 ^ 32) ∧
        textDg me stamp unset msgType (flagsOf route error) text = dg := by
  intro text
  have hfit := @headAndDataSize_eq_iff (sizeofJsonDg + lengthCode text + 1)
    (by unfold sizeofJsonDg; omega)
  have hserialize : serialize me stamp unset msgType what route error = (do
      let str ← copyText (lengthCode text) text
      if sizeofJsonDg + lengthCode text + 1 =
          headAndDataSize sizeofHead (sizeofJsonDg + lengthCode text + 1 - sizeofHead) then
        return (jsonDgFields me stamp unset msgType (flagsOf route error) (lengthCode text)
          str).flatten
      else throw .sizeIsWrong) := rfl
  simp only [hserialize, hfit]
  by_cases hle : lengthCode text ≤ text.length + 1
  · rw [copyText_of_le (length_le_lengthCode text) hle]
    simp only [bind, Except.bind, pure, Except.pure, throw, throwThe, MonadExceptOf.throw]
    by_cases hlt : sizeofJsonDg + lengthCode text + 1 < 2 ^ 32
    · rw [if_pos hlt]
      simp only [hle, hlt, and_self, true_and, Except.ok.injEq]
      rfl
    · rw [if_neg hlt]
      refine ⟨fun h => ?_, fun h => absurd h.1.2 hlt⟩
      cases h
  · rw [copyText_of_lt (Nat.not_le.1 hle)]
    refine ⟨fun h => ?_, fun h => absurd h.1.1 hle⟩
    cases h

/-- Where the fields of a datagram of a text begin. -/
theorem offset_jsonDgFields (strSize : ℕ) (str : List Byte) :
    let fs := jsonDgFields me stamp unset msgType flags strSize str
    offsetOf fs 1 = 1 ∧ offsetOf fs 11 = 27 ∧ offsetOf fs 15 = 32 ∧ offsetOf fs 17 = 36 := by
  simp [offsetOf, jsonDgFields, fillDgHead, headFields]

variable (text : Text)

theorem strSize_textDg :
    let dg := textDg me' stamp unset msgType flags text
    endianCorrectValue me dg (field dg 32 2) = (lengthCode text + 1) % 2 ^ 16 := by
  intro dg
  obtain ⟨h1, -, h15, -⟩ := offset_jsonDgFields me' stamp unset msgType flags (lengthCode text)
    (text.map codeByte ++ List.replicate (lengthCode text - text.length) 0)
  have hendian : byteAt dg 1 = me'.code.val := by
    have hfield : field (dg ++ []) 1 1 = [me'.code] := field_of_offset [] (i := 1) rfl h1 rfl
    rw [List.append_nil] at hfield
    exact byteAt_of_field hfield
  have hfield : field (dg ++ []) 32 2 = me'.bytes 2 ((lengthCode text + 1) % 2 ^ 16) :=
    field_of_offset [] (i := 15) rfl h15 (me'.length_bytes 2 _)
  rw [List.append_nil] at hfield
  rw [hfield]
  exact endianCorrectValue_bytes hendian (Nat.mod_lt _ (by decide))

theorem drop_textDg :
    (textDg me stamp unset msgType flags text).drop sizeofJsonDg =
      text.map codeByte ++ (List.replicate (lengthCode text - text.length) 0 ++ [0]) := by
  obtain ⟨-, -, -, h17⟩ := offset_jsonDgFields me stamp unset msgType flags (lengthCode text)
    (text.map codeByte ++ List.replicate (lengthCode text - text.length) 0)
  have hdrop := @drop_offsetOf_eq _ (jsonDgFields me stamp unset msgType flags (lengthCode text)
    (text.map codeByte ++ List.replicate (lengthCode text - text.length) 0)) [] 17 _ rfl
  rw [h17, List.append_nil] at hdrop
  exact hdrop.trans (List.append_assoc _ _ _)

theorem byteAt_textDg : byteAt (textDg me stamp unset msgType flags text) 27 = flags % 256 := by
  obtain ⟨-, h11, -, -⟩ := offset_jsonDgFields me stamp unset msgType flags (lengthCode text)
    (text.map codeByte ++ List.replicate (lengthCode text - text.length) 0)
  have hfield : field (textDg me stamp unset msgType flags text ++ []) 27 1 = [byteOf flags] :=
    field_of_offset [] (i := 11) rfl h11 rfl
  rw [List.append_nil] at hfield
  exact byteAt_of_field hfield

/-- A text that is read is as long as the field says. -/
theorem readText_eq_ok {me : Endian} {dg : List Byte} {codes : List ℕ}
    (h : readText me dg = .ok codes) :
    codes.length + 1 = endianCorrectValue me dg (field dg 32 2) := by
  unfold readText at h
  generalize endianCorrectValue me dg (field dg 32 2) = strSize at h
  by_cases hzero : strSize = 0
  · simp [hzero, bind, Except.bind, throw, throwThe, MonadExceptOf.throw] at h
  · simp only [hzero, if_false] at h
    obtain ⟨text, htext, h⟩ := eq_ok_of_bind h
    have hlength := (assignText_eq_ok htext).1
    have hcodes : text = codes := by
      split_ifs at h <;> simp_all [bind, Except.bind, pure, Except.pure, throw, throwThe,
        MonadExceptOf.throw]
    rw [← hcodes, hlength]
    exact Nat.succ_pred_eq_of_pos (Nat.pos_of_ne_zero hzero)

/-- A text is read as it was when it is short and ASCII. -/
theorem readText_textDg_eq_ok_iff (hne : text ≠ []) (hzero : '\x00' ∉ text)
    (hend : lengthCode text ≤ text.length + 1) :
    readText me (textDg me' stamp unset msgType flags text) = .ok (codesOf text) ↔
      Json.isAsciiText text = true ∧ text.length + 1 < 2 ^ 16 := by
  have hlength : (codesOf text).length = text.length := List.length_map _
  have hcodes : codesOf text ≠ [] := fun hnil => hne (List.map_eq_nil_iff.1 hnil)
  have hle := length_le_lengthCode text
  constructor
  · intro h
    have hread := readText_eq_ok h
    rw [strSize_textDg, hlength] at hread
    -- the text is as long as its bytes, up to one byte and the bits that are cut
    have hsize : lengthCode text = text.length ∧ text.length + 1 < 2 ^ 16 := by omega
    exact ⟨(length_eq_lengthCode_iff text).1 hsize.1, hsize.2⟩
  · rintro ⟨hascii, hshort⟩
    unfold readText
    rw [strSize_textDg, drop_textDg]
    have hsize := (length_eq_lengthCode_iff text).2 hascii
    have hmod : (lengthCode text + 1) % 2 ^ 16 = text.length + 1 := by
      rw [hsize, Nat.mod_eq_of_lt hshort]
    have hread : assignText (text.map codeByte ++
        (List.replicate (lengthCode text - text.length) 0 ++ [0])) text.length =
          .ok (codesOf text) := by
      rw [hsize, Nat.sub_self]
      exact assignText_readable rfl (readable_of_isAscii hascii hzero rfl)
    have hsum : ¬((codesOf text).map charLen).sum ≠ text.length := by
      rw [sum_charLen_codesOf, hsize]
      exact not_not_intro rfl
    simp only [hmod, Nat.add_sub_cancel, hread, bind, Except.bind, pure, Except.pure]
    rw [if_neg (Nat.succ_ne_zero _), if_neg hcodes, if_neg hsum]

end

section
variable {m : Message} {route : Routing} {error : ErrorInfo}

theorem key_configOf (what : Config) (route : Routing) (error : ErrorInfo) :
    (configOf what route error).key = what.key := by
  simp [configOf]

theorem hasKeys_configOf (m : Message) (route : Routing) (error : ErrorInfo) :
    HasKeys (configOf m.serialize route error) :=
  hasKeys_addIf _ (hasKeys_addIf _ m.hasKeys_serialize route.hasKeys_serialize)
    error.hasKeys_serialize

theorem child_configOf (hroute : route.uuids ≠ []) :
    (configOf m.serialize route error).child "rtg_" = route.serialize := by
  obtain ⟨hrtg, -⟩ := m.isChild_serialize
  simp [configOf, hrtg, hroute]

theorem child_configOf_error (herror : error.isValid = true) :
    (configOf m.serialize route error).child "err_" = error.serialize := by
  obtain ⟨-, herr⟩ := m.isChild_serialize
  simp [configOf, herr, herror]

theorem flagsOf_eq (route : Routing) (error : ErrorInfo) :
    (decide (flagsOf route error % 256 &&& eRouteOfMsg ≠ 0) = decide (route.uuids ≠ [])) ∧
      decide (flagsOf route error % 256 &&& eErrorOfMsg ≠ 0) = error.isValid := by
  unfold flagsOf
  by_cases hroute : route.uuids ≠ [] <;> cases herror : error.isValid <;>
    simp [hroute, eRouteOfMsg, eErrorOfMsg]

def documentOf (m : Message) (route : Routing) (error : ErrorInfo) : Json :=
  (configOf m.serialize route error).document

/-- What a datagram gives whose text is read. -/
theorem deserialize_of_readText {read : List ℕ → Json} {me : Endian} {dg : List Byte}
    (hread : read (codesOf (documentOf m route error).write) = documentOf m route error)
    (hflags : byteAt dg 27 = flagsOf route error % 256)
    (htext : readText me dg = .ok (codesOf (documentOf m route error).write)) :
    deserialize read me m.name dg = .ok {
      text := codesOf (documentOf m route error).write
      value := (configOf m.serialize route error).regroup
      route := if route.uuids ≠ [] then some (Routing.ofConfig route.serialize.regroup) else none
      error := if error.isValid then some (ErrorInfo.ofConfig error.serialize.regroup)
        else none } := by
  have hname : m.name = (configOf m.serialize route error).key := by
    rw [key_configOf, m.key_serialize]
  have hjson : fromJson (documentOf m route error) =
      .ok (empty.add (configOf m.serialize route error).regroup) :=
    fromJson_document (hasKeys_configOf m route error)
  have hchild : (empty.add (configOf m.serialize route error).regroup).child m.name =
      (configOf m.serialize route error).regroup := by
    rw [hname, child_add, key_regroup, if_neg (by simp [isChild, empty]), if_pos rfl]
  obtain ⟨hroute, herror⟩ := flagsOf_eq route error
  unfold deserialize isFlag
  rw [htext, hflags]
  simp only [bind, Except.bind, pure, Except.pure, hread, hjson, hchild, hroute, herror,
    child_regroup, decide_eq_true_eq]
  congr 2
  · split_ifs with huuids
    · rw [child_configOf huuids]
    · rfl
  · split_ifs with hvalid
    · rw [child_configOf_error hvalid]
    · rfl

structure IsConveyed (m : Message) (route : Routing) (error : ErrorInfo) : Prop where
  ascii : (documentOf m route error).isAscii = true
  short : (documentOf m route error).write.length + 1 < 2 ^ 16
  route : route.uuids ≠ [] → route.IsWritten
  error : error.isValid = true → error.IsWritten

/-- A text comes as it was written, and the route and the error as they were given, just when the
    text is short and ASCII, and a document keeps the two. -/
theorem sendReceive_eq_ok_iff {read : List ℕ → Json}
    (hread : read (codesOf (documentOf m route error).write) = documentOf m route error)
    (hroute : route.Fits) (herror : error.Fits) (me me' : Endian) (stamp : Stamp)
    (unset : Byte × Byte) (msgType : ℕ) :
    (∃ value, sendReceive read me me' stamp unset msgType m route error = .ok {
      text := codesOf (documentOf m route error).write
      value := value
      route := if route.uuids ≠ [] then some route else none
      error := if error.isValid then some error else none }) ↔ IsConveyed m route error := by
  have hne := (documentOf m route error).write_ne_nil
  have hzero := (documentOf m route error).zero_not_mem_write
  have hascii := (documentOf m route error).isAsciiText_write
  have hserialize := serialize_eq_ok_iff me' stamp unset msgType m.serialize route error
  have hflags := byteAt_textDg me' stamp unset msgType (flagsOf route error)
    (documentOf m route error).write
  have hiff := readText_textDg_eq_ok_iff me me' stamp unset msgType (flagsOf route error)
    (documentOf m route error).write hne hzero
  constructor
  · rintro ⟨value, h⟩
    obtain ⟨dg, hdg, h⟩ := eq_ok_of_bind h
    obtain ⟨⟨hend, -⟩, rfl⟩ := (hserialize dg).1 hdg
    obtain ⟨text, htext, hvalue⟩ := eq_ok_of_bind h
    have hcodes : text = codesOf (documentOf m route error).write := by
      obtain ⟨conf, -, hconf⟩ := eq_ok_of_bind hvalue
      exact congrArg Deserialized.text (Except.ok.inj hconf)
    rw [hcodes] at htext
    obtain ⟨htextAscii, hshort⟩ := (hiff hend).1 htext
    have hgiven := Except.ok.inj ((deserialize_of_readText hread hflags htext).symm.trans h)
    have hgivenRoute := congrArg Deserialized.route hgiven
    have hgivenError := congrArg Deserialized.error hgiven
    refine ⟨hascii ▸ htextAscii, hshort, fun huuids => ?_, fun hvalid => ?_⟩
    · rw [if_pos huuids, if_pos huuids] at hgivenRoute
      exact (Routing.ofConfig_regroup_eq_iff hroute huuids).1 (Option.some.inj hgivenRoute)
    · rw [if_pos hvalid, if_pos hvalid] at hgivenError
      exact (ErrorInfo.ofConfig_regroup_eq_iff herror hvalid).1 (Option.some.inj hgivenError)
  · intro h
    have htextAscii : Json.isAsciiText (documentOf m route error).write = true :=
      hascii.trans h.ascii
    have hsize := (length_eq_lengthCode_iff _).2 htextAscii
    have hshort := h.short
    have hend : lengthCode (documentOf m route error).write ≤
        (documentOf m route error).write.length + 1 := by omega
    have hdg := (hserialize _).2 ⟨⟨hend, by
      change sizeofJsonDg + lengthCode (documentOf m route error).write + 1 < 2 ^ 32
      unfold sizeofJsonDg sizeofHead
      omega⟩, rfl⟩
    have htext := (hiff hend).2 ⟨htextAscii, hshort⟩
    have hgiven := deserialize_of_readText hread hflags htext
    have hkeptRoute : (if route.uuids ≠ [] then some (Routing.ofConfig route.serialize.regroup)
        else none) = if route.uuids ≠ [] then some route else none := by
      split_ifs with huuids
      · rw [(Routing.ofConfig_regroup_eq_iff hroute huuids).2 (h.route huuids)]
      · rfl
    have hkeptError : (if error.isValid then some (ErrorInfo.ofConfig error.serialize.regroup)
        else none) = if error.isValid then some error else none := by
      split_ifs with hvalid
      · rw [(ErrorInfo.ofConfig_regroup_eq_iff herror hvalid).2 (h.error hvalid)]
      · rfl
    rw [hkeptRoute, hkeptError] at hgiven
    refine ⟨(configOf m.serialize route error).regroup, ?_⟩
    unfold sendReceive
    rw [hdg]
    exact hgiven

end

def someParam (type : Text) : Message :=
  .channelParam ⟨type, .node "" [] [leaf "p" ['1']], fun _ hx => by
    rw [List.mem_singleton.1 hx]
    exact hasKeys_leaf (by simp) _⟩

def readOnly (j : Json) (codes : List ℕ) : Json := if codes = codesOf j.write then j else .obj []

theorem sendReceive_eq_ok_someParam :
    let m := someParam ['t', 'c', 'p']
    let route : Routing := ⟨⟨5, ['a']⟩, [7]⟩
    let error : ErrorInfo := ⟨2, ⟨7, ['b']⟩, [8]⟩
    IsConveyed m route error ∧ ∃ value,
      sendReceive (readOnly (documentOf m route error)) .little .big noStamp (0, 0) 10 m route
        error = .ok {
          text := codesOf (documentOf m route error).write
          value := value
          route := some route
          error := some error } := by
  intro m route error
  have h : IsConveyed m route error :=
    ⟨by decide +kernel, by decide +kernel, fun _ => ⟨by decide, by decide⟩,
      fun _ => (by decide : '\x00' ∉ ['b'])⟩
  have hread : readOnly (documentOf m route error) (codesOf (documentOf m route error).write) =
      documentOf m route error := if_pos rfl
  exact ⟨h, (sendReceive_eq_ok_iff hread ⟨by decide, by decide⟩ ⟨by decide, by decide, by decide⟩
    .little .big noStamp (0, 0) 10).2 h⟩

/-- A type that is not ASCII. -/
theorem conveyed_false_of_notAscii :
    let m := someParam [Char.ofNat 0x436]
    let route : Routing := ⟨⟨5, ['a']⟩, [7]⟩
    let error : ErrorInfo := ⟨2, ⟨7, ['b']⟩, [8]⟩
    (sendReceive (readOnly (documentOf m route error)) .little .little noStamp (0, 0) 10 m route
      error).map (fun _ => ()) = .error .textIsShort := by
  decide +kernel

end Service

end UdtKernel
