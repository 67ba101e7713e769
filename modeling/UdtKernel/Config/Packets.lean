import UdtKernel.Config.Base64
import UdtKernel.Config.Programs

set_option autoImplicit false

/-! How the description of a packet, its route and its failures are written and read. -/

namespace UdtKernel
open UdtKernel.Lib Config

def RequiredHeader.serialize (h : RequiredHeader) : Config :=
  Config.named "rh" |>.addValue "buf" (base64Encode h.messageHeader) |>.add h.version.serialize

/-- `required_header_t(conf)`: the bytes that are not read are zero. -/
def RequiredHeader.ofConfig (c : Config) : RequiredHeader where
  version := Version.ofConfig (c.child "ver")
  messageHeader :=
    let value := (c.child "buf").value
    let bytes := if value = [] then [] else base64Decode 8 0 0 value
    bytes ++ List.replicate (8 - bytes.length) 0

def SplitPacket.serialize (s : SplitPacket) : Config :=
  Config.named "spt" |>.set "last" (boolToStr s.isLast) |>.set "ct" (unsignedToStr s.counter)
    |>.set "k" (unsignedToStr s.coefficient)

def SplitPacket.ofConfig (c : Config) : SplitPacket where
  isLast := c.get "last" strToBool false
  counter := c.get "ct" (strToUnsigned 16) 0
  coefficient := c.get "k" (strToUnsigned 16) 0

def SplitPacket.isValid (s : SplitPacket) : Bool := 0 < s.counter && 0 < s.coefficient

def Routing.isValid (r : Routing) : Bool := r.from_.isValid && areUuidsValid r.uuids

def Routing.serialize (r : Routing) : Config :=
  if r.isValid then
    Config.named "rtg_" |>.addAs "id" r.from_.serialize |>.add (serializeUuids r.uuids)
  else Config.named "rtg_"

def Routing.ofConfig (c : Config) : Routing :=
  ⟨Id.ofConfig (c.child "id"), uuidsOf (c.child "uuids")⟩

/-- `routing_t()`. -/
def Routing.default : Routing := ⟨⟨0, []⟩, []⟩

def UserDataInfo.serialize (info : UserDataInfo) : Config :=
  Config.named "usdt" |>.set "pn" (unsignedToStr info.packetNumber)
    |>.set "pl" info.protocol
    |>.add info.split.serialize
    |>.add info.what.serialize
    |>.addIf (info.destination ≠ []) (serializeUuids info.destination)
    |>.addIf (info.registrators ≠ []) (.withKey "reg" (serializeUuids info.registrators))
    |>.addAll (info.eventsList.map fun e => .leaf "hand" (unsignedToStr e))
    |>.add info.routing.serialize
    |>.set "nr" (unsignedToStr info.dataOffset)
    |>.set "endian" (unsignedToStr info.endian.toUnsigned)

/-- `parse_head`. Without the key a parser of the protocol, if there is one, gives the header. -/
def parseHead (userHeader : Text → Config → Option RequiredHeader) (c : Config)
    (protocol : Text) : Option RequiredHeader :=
  if c.isChild "rh" then some (RequiredHeader.ofConfig (c.child "rh")) else userHeader protocol c

def UserDataInfo.ofConfig (userHeader : Text → Config → Option RequiredHeader) (c : Config) :
    UserDataInfo where
  packetNumber := c.get "pn" (strToUnsigned 32) 0
  protocol := c.get "pl" some []
  dataOffset := c.get "nr" (strToUnsigned 32) 0
  eventsList := (c.childrenOf "hand").map fun x =>
    readValue (strToUnsigned 32) (2 ^ 32 - 1) x.value
  destination := uuidsOf (c.child "uuids")
  registrators := uuidsOf (c.child "reg")
  routing := Routing.ofConfig (c.child "rtg_")
  split := SplitPacket.ofConfig (c.child "spt")
  endian := .ofUnsigned (c.get "endian" (strToUnsigned 32) shareEndian.toUnsigned)
  what := (parseHead userHeader c (c.get "pl" some [])).getD ⟨⟨0, 0, 0⟩, List.replicate 8 0⟩

def UserDataInfo.isValid (info : UserDataInfo) : Bool := info.protocol ≠ []

def FailSend.serialize (f : FailSend) : Config :=
  Config.named "fsend" |>.add f.info.serialize |>.set "ecode" (unsignedToStr f.error)

def FailSend.ofConfig (userHeader : Text → Config → Option RequiredHeader) (c : Config) :
    FailSend :=
  ⟨UserDataInfo.ofConfig userHeader (c.child "usdt"), c.get "ecode" (strToUnsigned 32) eNoError⟩

def FailSend.isValid (f : FailSend) : Bool := f.info.isValid

namespace Service

structure ErrorInfo where
  error : ErrorType
  whereId : Id
  uuids : List Uuid
  deriving DecidableEq

def ErrorInfo.isValid (e : ErrorInfo) : Bool := e.error ≠ eNoError

def ErrorInfo.serialize (e : ErrorInfo) : Config :=
  if e.isValid then
    Config.named "err_" |>.set "code" (unsignedToStr e.error)
      |>.addAs "id" e.whereId.serialize |>.add (serializeUuids e.uuids)
  else Config.named "err_" |>.set "code" (unsignedToStr e.error)

def ErrorInfo.ofConfig (c : Config) : ErrorInfo :=
  let error := c.get "code" (strToUnsigned 32) eNoError
  if error ≠ eNoError then
    ⟨error, Id.ofConfig (c.child "id"), uuidsOf (c.child "uuids")⟩
  else ⟨error, ⟨0, []⟩, []⟩

end Service

/-- The numbers of a header are of their types. -/
structure RequiredHeader.Fits (h : RequiredHeader) : Prop where
  version : h.version.Fits
  messageHeader : h.messageHeader.length = 8

@[simp] theorem RequiredHeader.key_serialize (h : RequiredHeader) : h.serialize.key = "rh" := rfl

theorem base64Encode_ne_nil {l : List Byte} (h : l ≠ []) : base64Encode l ≠ [] := by
  fun_cases base64Encode l with
  | case4 => exact absurd rfl h
  | _ => exact List.cons_ne_nil _ _

@[simp] theorem RequiredHeader.ofConfig_serialize {h : RequiredHeader} (hfits : h.Fits) :
    RequiredHeader.ofConfig h.serialize = h := by
  have hlength := hfits.messageHeader
  have hne : base64Encode h.messageHeader ≠ [] := base64Encode_ne_nil fun hnil => by
    rw [hnil] at hlength
    cases hlength
  have hdecode := base64Decode_encode h.messageHeader
  rw [hlength] at hdecode
  simp [ofConfig, serialize, hfits.version, hne, hdecode, hlength]

structure SplitPacket.Fits (s : SplitPacket) : Prop where
  counter : Unsigned 16 s.counter
  coefficient : Unsigned 16 s.coefficient

@[simp] theorem SplitPacket.key_serialize (s : SplitPacket) : s.serialize.key = "spt" := rfl

@[simp] theorem SplitPacket.ofConfig_serialize {s : SplitPacket} (h : s.Fits) :
    SplitPacket.ofConfig s.serialize = s := by
  simp [ofConfig, serialize, Config.get, h.counter, h.coefficient]

structure Routing.Fits (r : Routing) : Prop where
  uuid : Unsigned 64 r.from_.uuid
  uuids : ∀ u ∈ r.uuids, Unsigned 64 u

@[simp] theorem Routing.key_serialize (r : Routing) : r.serialize.key = "rtg_" := by
  unfold serialize
  split_ifs <;> rfl

theorem Id.ofConfig_withKey (key : String) (c : Config) :
    Id.ofConfig (withKey key c) = Id.ofConfig c := rfl

@[simp] theorem uuidsOf_withKey (key : String) (c : Config) :
    uuidsOf (withKey key c) = uuidsOf c := rfl

/-- A route that is not valid is read as no route. -/
theorem Routing.ofConfig_serialize {r : Routing} (h : r.Fits) :
    Routing.ofConfig r.serialize = if r.isValid then r else .default := by
  unfold serialize
  split_ifs with hvalid
  · simp [ofConfig, Id.ofConfig_withKey, h.uuid, uuidsOf_serializeUuids h.uuids]
  · rfl

def Routing.IsKept (r : Routing) : Prop := r.isValid = true ∨ r = .default

theorem Routing.ofConfig_serialize_eq_iff {r : Routing} (h : r.Fits) :
    Routing.ofConfig r.serialize = r ↔ r.IsKept := by
  rw [ofConfig_serialize h]
  unfold IsKept
  split_ifs with hvalid
  · simp [hvalid]
  · simp [hvalid, eq_comm]

structure UserDataInfo.Fits (info : UserDataInfo) : Prop where
  packetNumber : Unsigned 32 info.packetNumber
  dataOffset : Unsigned 32 info.dataOffset
  eventsList : ∀ e ∈ info.eventsList, Unsigned 32 e
  destination : ∀ u ∈ info.destination, Unsigned 64 u
  registrators : ∀ u ∈ info.registrators, Unsigned 64 u
  routing : info.routing.Fits
  split : info.split.Fits
  what : info.what.Fits

section
variable (userHeader : Text → Config → Option RequiredHeader)

@[simp] theorem UserDataInfo.key_serialize (info : UserDataInfo) : info.serialize.key = "usdt" := by
  simp [serialize]

/-- Of a packet everything but its route is read as it was. -/
theorem UserDataInfo.ofConfig_serialize {info : UserDataInfo} (h : info.Fits) :
    UserDataInfo.ofConfig userHeader info.serialize =
      { info with routing := Routing.ofConfig info.routing.serialize } := by
  have hendian : Unsigned 32 info.endian.toUnsigned :=
    @Unsigned.of_lt 1 32 _ info.endian.toUnsigned_lt (by decide)
  have hevents := map_map_eq_self (f := fun x : Config =>
      readValue (strToUnsigned 32) 4294967295 x.value)
    (g := fun e => Config.leaf "hand" (unsignedToStr e))
    fun e he => readValue_unsigned _ (h.eventsList e he)
  have hdestination : uuidsOf (info.serialize.child "uuids") = info.destination := by
    by_cases hnil : info.destination = []
    · simp [serialize, hnil]
    · simp [serialize, hnil, uuidsOf_serializeUuids h.destination]
  have hregistrators : uuidsOf (info.serialize.child "reg") = info.registrators := by
    by_cases hnil : info.registrators = []
    · simp [serialize, hnil]
    · simp [serialize, hnil, uuidsOf_serializeUuids h.registrators]
  unfold ofConfig
  rw [hdestination, hregistrators]
  simp [serialize, Config.get, parseHead, h.packetNumber, h.dataOffset, h.split, h.what, hendian,
    -List.map_map, hevents]

/-- A packet is read as it was when its route is. -/
theorem UserDataInfo.ofConfig_serialize_eq_iff {info : UserDataInfo} (h : info.Fits) :
    UserDataInfo.ofConfig userHeader info.serialize = info ↔ info.routing.IsKept := by
  rw [ofConfig_serialize userHeader h, ← Routing.ofConfig_serialize_eq_iff h.routing]
  constructor
  · exact fun heq => congrArg UserDataInfo.routing heq
  · intro heq
    rw [heq]

structure FailSend.Fits (f : FailSend) : Prop where
  info : f.info.Fits
  error : Unsigned 32 f.error

@[simp] theorem FailSend.key_serialize (f : FailSend) : f.serialize.key = "fsend" := rfl

/-- A report is read as it was when the route of its packet is. -/
theorem FailSend.ofConfig_serialize_eq_iff {f : FailSend} (h : f.Fits) :
    FailSend.ofConfig userHeader f.serialize = f ↔ f.info.routing.IsKept := by
  have hread : FailSend.ofConfig userHeader f.serialize =
      ⟨UserDataInfo.ofConfig userHeader f.info.serialize, f.error⟩ := by
    simp [ofConfig, serialize, Config.get, h.error]
  rw [hread, ← UserDataInfo.ofConfig_serialize_eq_iff userHeader h.info]
  constructor
  · exact fun heq => congrArg FailSend.info heq
  · intro heq
    rw [heq]

end

namespace Service

structure ErrorInfo.Fits (e : ErrorInfo) : Prop where
  error : Unsigned 32 e.error
  whereId : Unsigned 64 e.whereId.uuid
  uuids : ∀ u ∈ e.uuids, Unsigned 64 u

@[simp] theorem ErrorInfo.key_serialize (e : ErrorInfo) : e.serialize.key = "err_" := by
  unfold serialize
  split_ifs <;> rfl

theorem ErrorInfo.ofConfig_serialize {e : ErrorInfo} (h : e.Fits) (hvalid : e.isValid = true) :
    ErrorInfo.ofConfig e.serialize = e := by
  have hne : e.error ≠ eNoError := of_decide_eq_true hvalid
  simp [ofConfig, serialize, Config.get, hvalid, h.error, hne, Id.ofConfig_withKey, h.whereId,
    uuidsOf_serializeUuids h.uuids]

end Service

end UdtKernel
