import UdtKernel.Address
import UdtKernel.Config.Packets

set_option autoImplicit false

/-! How demands for messages and parameters of channels are written and read. -/

namespace UdtKernel
open UdtKernel.Lib Config

/-- The loop of `CProgramName::sMIsValid`: whether the separator of the name has been met, and
    whether the character before is a separator of groups behind it. -/
def isNameLoopValid : Bool → Bool → Text → Bool
  | _, _, [] => true
  | isNameSep, isGroupSep, c :: l =>
    if c = Address.nameSeparator then
      !isNameSep && l.head? ≠ some Address.groupSeparator && isNameLoopValid true isGroupSep l
    else if c = Address.groupSeparator then
      if isNameSep then !isGroupSep && isNameLoopValid true true l
      else isNameLoopValid false isGroupSep l
    else isNameLoopValid isNameSep false l

def isProgramNameValid (aName : Text) : Bool :=
  if aName = [] then true
  else if aName.getLast? = some Address.groupSeparator ∨
      aName.getLast? = some Address.nameSeparator ∨
      aName.take 2 = [Address.nameSeparator, Address.groupSeparator] then false
  else isNameLoopValid false false aName

def serializeProgramName (aName : Text) : Config := .leaf "name" aName

def programNameOf (c : Config) : Text := if isProgramNameValid c.value then c.value else []

namespace Service

def noHandler : ℕ := 2 ^ 32 - 1

def handlerDefaultPriority : ℕ := (2 ^ 32 - 1) / 2

/-- `demand_dg_t`, with the mask of its flags. -/
structure DemandDg where
  handlerPriority : ℕ
  what : RequiredHeader
  nameFrom : Text
  uuidFrom : Option Uuid
  protocol : Text
  handler : ℕ
  flags : ℕ
  deriving DecidableEq

/-- `demand_dg_t::MSerialize`, the header as it is. -/
def DemandDg.serialize (d : DemandDg) : Config :=
  Config.named "dem" |>.add d.what.serialize |>.addAs "id" (serializeProgramName d.nameFrom)
    |>.addValue "pl" d.protocol |>.addValue "hand" (unsignedToStr d.handler)
    |>.addValue "hand_priority" (unsignedToStr d.handlerPriority)
    |>.addValue "dflag" (unsignedToStr d.flags)
    |>.addIf d.uuidFrom.isSome (serializeUuid (d.uuidFrom.getD 0))

/-- `demand_dg_t(conf)`. Without a header there is no protocol either. -/
def DemandDg.ofConfig (userHeader : Text → Config → Option RequiredHeader) (c : Config) :
    DemandDg :=
  let nameFrom := programNameOf (c.child "id")
  let flags := c.get "dflag" (strToUnsigned 32) 0
  let protocol := c.get "pl" some []
  match parseHead userHeader c protocol with
  | none =>
    { nameFrom, flags, protocol := [], uuidFrom := none, handler := noHandler
      handlerPriority := handlerDefaultPriority, what := ⟨⟨0, 0, 0⟩, List.replicate 8 0⟩ }
  | some what =>
    { nameFrom, flags, protocol, what
      uuidFrom :=
        if (c.child "uuid").isEmpty then none else some (uuidOf (c.child "uuid"))
      handler := c.get "hand" (strToUnsigned 32) noHandler
      handlerPriority := c.get "hand_priority" (strToUnsigned 32) handlerDefaultPriority }

def DemandDg.isValid (d : DemandDg) : Bool :=
  d.protocol ≠ [] && (d.nameFrom ≠ [] || d.uuidFrom.isSome) && d.handler ≠ noHandler

def serializeDemands (l : List DemandDg) : Config :=
  (Config.named "dems").addAll (l.map DemandDg.serialize)

def demandsOf (userHeader : Text → Config → Option RequiredHeader) (c : Config) :
    List DemandDg :=
  (c.childrenOf "dem").map (DemandDg.ofConfig userHeader)

/-- By what the entries of a `demand_dgs_for_t` are compared. -/
def demandsUuid (p : Id × List DemandDg) : Uuid := p.1.uuid

abbrev DemandDgsFor := KeyedSet demandsUuid

/-- An entry of `demand_dgs_for_t::MSerialize`. -/
def serializeDemandsFor (p : Id × List DemandDg) : Config :=
  p.1.serialize.add (serializeDemands p.2)

def DemandDgsFor.serialize (m : DemandDgsFor) : Config :=
  (Config.named "demf").addAll (m.elements.map serializeDemandsFor)

def DemandDgsFor.ofConfig (userHeader : Text → Config → Option RequiredHeader) (c : Config) :
    DemandDgsFor :=
  .ofList ((c.childrenOf "id").map fun x =>
    (Id.ofConfig x, demandsOf userHeader (x.child "dems")))

def DemandDgsFor.isValid (m : DemandDgsFor) : Bool :=
  m.elements.all fun p => p.1.isValid && p.2.all DemandDg.isValid

/-- `net_address`; the place may be known by its port only. -/
structure NetAddress where
  ip : Option Text
  port : ℤ
  deriving DecidableEq

def NetAddress.isValid (a : NetAddress) : Bool := a.port ≠ -1

def NetAddress.serialize (a : NetAddress) : Config :=
  if a.isValid then match a.ip with
    | some ip => Config.named "addr" |>.set "ip" ip |>.set "port" (numToStr a.port)
    | none => Config.named "addr" |>.set "port" (numToStr a.port)
  else Config.named "addr"

def NetAddress.ofConfig (c : Config) : NetAddress where
  ip := if c.isChild "ip" then some (c.get "ip" some []) else none
  port := c.get "port" strToInt (-1)

structure NetworkChannel where
  address : NetAddress
  protocolType : Text
  isAutoRemoved : Bool
  deriving DecidableEq

def NetworkChannel.serialize (n : NetworkChannel) : Config :=
  Config.named "network_channel_info" |>.add n.address.serialize
    |>.addValue "protocol" n.protocolType |>.addValue "auto_remove" (boolToStr n.isAutoRemoved)

def NetworkChannel.ofConfig (c : Config) : NetworkChannel where
  address := NetAddress.ofConfig (c.child "addr")
  protocolType := c.get "protocol" some []
  isAutoRemoved := c.get "auto_remove" strToBool false

def NetworkChannel.isValid (n : NetworkChannel) : Bool :=
  n.address.isValid && n.protocolType ≠ []

structure AutoSearchInfo where
  program : ProgramId
  channel : NetworkChannel
  deriving DecidableEq

def AutoSearchInfo.serialize (a : AutoSearchInfo) : Config :=
  Config.named "auto_search_info" |>.add a.program.serialize |>.add a.channel.serialize

def AutoSearchInfo.ofConfig (c : Config) : AutoSearchInfo :=
  ⟨ProgramId.ofConfig (c.child "info"), NetworkChannel.ofConfig (c.child "network_channel_info")⟩

def AutoSearchInfo.isValid (a : AutoSearchInfo) : Bool := a.program.isValid && a.channel.isValid

/-- The numbers of a demand are of their types. -/
structure DemandDg.Fits (d : DemandDg) : Prop where
  handlerPriority : Unsigned 32 d.handlerPriority
  what : d.what.Fits
  uuidFrom : ∀ u ∈ d.uuidFrom, Unsigned 64 u
  handler : Unsigned 32 d.handler
  flags : Unsigned 32 d.flags

section
variable (userHeader : Text → Config → Option RequiredHeader)

@[simp] theorem DemandDg.key_serialize (d : DemandDg) : d.serialize.key = "dem" := by
  simp [serialize]

/-- A demand from a valid name is read as it was. -/
@[simp] theorem DemandDg.ofConfig_serialize {d : DemandDg} (h : d.Fits)
    (hname : isProgramNameValid d.nameFrom = true) :
    DemandDg.ofConfig userHeader d.serialize = d := by
  have hhead : parseHead userHeader d.serialize d.protocol = some d.what := by
    simp [parseHead, serialize, h.what]
  have hprotocol : d.serialize.get "pl" some [] = d.protocol := by
    simp [serialize, Config.get]
  have huuid : (if (d.serialize.child "uuid").isEmpty then none
      else some (uuidOf (d.serialize.child "uuid"))) = d.uuidFrom := by
    cases hu : d.uuidFrom with
    | none => simp [serialize, hu, Config.isEmpty, Config.empty]
    | some u => simp [serialize, hu, Config.isEmpty, h.uuidFrom u hu]
  unfold ofConfig
  dsimp only
  rw [hprotocol, hhead]
  dsimp only
  rw [huuid]
  simp [serialize, Config.get, programNameOf, serializeProgramName, hname, h.handler,
    h.handlerPriority, h.flags]

@[simp] theorem key_serializeDemands (l : List DemandDg) : (serializeDemands l).key = "dems" :=
  Config.key_addAll _ _

theorem demandsOf_serializeDemands {l : List DemandDg} (h : ∀ d ∈ l, d.Fits)
    (hname : ∀ d ∈ l, isProgramNameValid d.nameFrom = true) :
    demandsOf userHeader (serializeDemands l) = l := by
  have hl := map_map_eq_self fun d hd =>
    DemandDg.ofConfig_serialize userHeader (h d hd) (hname d hd)
  simp [demandsOf, serializeDemands, -List.map_map, hl]

@[simp] theorem key_serializeDemandsFor (p : Id × List DemandDg) :
    (serializeDemandsFor p).key = "id" := by
  simp [serializeDemandsFor]

structure DemandDgsFor.Fits (m : DemandDgsFor) : Prop where
  uuid : ∀ p ∈ m.elements, Unsigned 64 p.1.uuid
  demands : ∀ p ∈ m.elements, ∀ d ∈ p.2, d.Fits

@[simp] theorem DemandDgsFor.key_serialize (m : DemandDgsFor) : m.serialize.key = "demf" :=
  Config.key_addAll _ _

theorem DemandDgsFor.ofConfig_serialize {m : DemandDgsFor} (h : m.Fits)
    (hname : ∀ p ∈ m.elements, ∀ d ∈ p.2, isProgramNameValid d.nameFrom = true) :
    DemandDgsFor.ofConfig userHeader m.serialize = m := by
  have hentry : ∀ p ∈ m.elements, (Id.ofConfig (serializeDemandsFor p),
      demandsOf userHeader ((serializeDemandsFor p).child "dems")) = p := by
    intro p hp
    have hid : Id.ofConfig (serializeDemandsFor p) = p.1 := by
      simp [Id.ofConfig, serializeDemandsFor, Id.serialize, Config.get, h.uuid p hp]
    have hdemands : (serializeDemandsFor p).child "dems" = serializeDemands p.2 := by
      simp [serializeDemandsFor, Id.serialize]
    rw [hid, hdemands, demandsOf_serializeDemands userHeader (h.demands p hp) (hname p hp)]
  have hm := map_map_eq_self (f := fun x : Config =>
    (Id.ofConfig x, demandsOf userHeader (x.child "dems"))) hentry
  simp [ofConfig, serialize, -List.map_map, hm, KeyedSet.ofList_elements]

end

@[simp] theorem NetAddress.key_serialize (a : NetAddress) : a.serialize.key = "addr" := by
  unfold serialize
  split_ifs
  · split <;> rfl
  · rfl

@[simp] theorem NetAddress.ofConfig_serialize {a : NetAddress} (h : IsInt a.port)
    (hvalid : a.isValid = true) : NetAddress.ofConfig a.serialize = a := by
  obtain ⟨ip, port⟩ := a
  cases ip <;> simp_all [ofConfig, serialize, Config.get]

@[simp] theorem NetworkChannel.key_serialize (n : NetworkChannel) :
    n.serialize.key = "network_channel_info" := rfl

@[simp] theorem NetworkChannel.ofConfig_serialize {n : NetworkChannel} (h : IsInt n.address.port)
    (hvalid : n.isValid = true) : NetworkChannel.ofConfig n.serialize = n := by
  have haddress : n.address.isValid = true := (Bool.and_eq_true _ _ ▸ hvalid).1
  simp [ofConfig, serialize, Config.get, h, haddress]

@[simp] theorem AutoSearchInfo.key_serialize (a : AutoSearchInfo) :
    a.serialize.key = "auto_search_info" := rfl

theorem AutoSearchInfo.ofConfig_serialize {a : AutoSearchInfo} (hprogram : a.program.Fits)
    (hchannel : IsInt a.channel.address.port) (hvalid : a.isValid = true) :
    AutoSearchInfo.ofConfig a.serialize = a := by
  have hchannelValid : a.channel.isValid = true := (Bool.and_eq_true _ _ ▸ hvalid).2
  simp [ofConfig, serialize, hprogram, hchannel, hchannelValid]

end Service

end UdtKernel
