import UdtKernel.Config.Demands
import UdtKernel.Config.Json

set_option autoImplicit false

/-! The messages that are sent as texts, and what of their route and error is read of a text. -/

namespace UdtKernel
open UdtKernel.Lib Config

namespace Config

@[grind ←] theorem hasKeys_named {k : String} (h : k ≠ "") : HasKeys (named k) :=
  .node h fun _ hx => absurd hx List.not_mem_nil

@[grind ←] theorem hasKeys_leaf {k : String} (h : k ≠ "") (v : Text) : HasKeys (leaf k v) :=
  .node h fun _ hx => absurd hx List.not_mem_nil

theorem HasKeys.of_mem {c x : Config} (h : HasKeys c) (hx : x ∈ c.children) : HasKeys x := by
  cases h with
  | node _ hchildren => exact hchildren x hx

theorem HasKeys.key_ne {c : Config} (h : HasKeys c) : c.key ≠ "" := by
  cases h with
  | node hkey _ => exact hkey

@[grind ←] theorem hasKeys_add {c x : Config} (hc : HasKeys c) (hx : HasKeys x) :
    HasKeys (c.add x) :=
  .node hc.key_ne fun y hy => by
    rcases List.mem_append.1 hy with hy | hy
    · exact hc.of_mem hy
    · rw [List.mem_singleton.1 hy]
      exact hx

@[grind ←] theorem hasKeys_withKey {k : String} {x : Config} (hk : k ≠ "") (hx : HasKeys x) :
    HasKeys (withKey k x) := .node hk fun _ hy => hx.of_mem hy

@[grind ←] theorem hasKeys_addAs {c x : Config} {k : String} (hc : HasKeys c) (hk : k ≠ "")
    (hx : HasKeys x) : HasKeys (c.addAs k x) := hasKeys_add hc (hasKeys_withKey hk hx)

@[grind ←] theorem hasKeys_addValue {c : Config} {k : String} (hc : HasKeys c) (hk : k ≠ "")
    (v : Text) : HasKeys (c.addValue k v) := hasKeys_add hc (hasKeys_leaf hk v)

@[grind ←] theorem hasKeys_set {c : Config} {k : String} (hc : HasKeys c) (hk : k ≠ "") (v : Text) :
    HasKeys (c.set k v) :=
  hasKeys_addValue (.node hc.key_ne fun _ hy => hc.of_mem (List.mem_of_mem_filter hy)) hk v

@[grind ←] theorem hasKeys_addIf {c x : Config} (p : Bool) (hc : HasKeys c) (hx : HasKeys x) :
    HasKeys (addIf p c x) := by
  cases p with
  | false => exact hc
  | true => exact hasKeys_add hc hx

@[grind ←] theorem hasKeys_addAll {α : Type} {c : Config} {f : α → Config} (l : List α)
    (hc : HasKeys c) (hf : ∀ a, HasKeys (f a)) : HasKeys (c.addAll (l.map f)) := by
  induction l generalizing c with
  | nil => exact hc
  | cons a l ih => exact ih (hasKeys_add hc (hf a))

end Config

@[grind ←] theorem hasKeys_serializeUuid (u : Uuid) : HasKeys (serializeUuid u) := by
  grind [serializeUuid]

@[grind ←] theorem hasKeys_serializeUuids (l : List Uuid) : HasKeys (serializeUuids l) := by
  grind [serializeUuids]

@[grind ←] theorem Id.hasKeys_serialize (i : Id) : HasKeys i.serialize := by
  grind [serialize]

@[grind ←] theorem Version.hasKeys_serialize (v : Version) : HasKeys v.serialize := by
  grind [serialize]

@[grind ←] theorem RequiredHeader.hasKeys_serialize (h : RequiredHeader) : HasKeys h.serialize := by
  grind [serialize]

@[grind ←] theorem SplitPacket.hasKeys_serialize (s : SplitPacket) : HasKeys s.serialize := by
  grind [serialize]

@[grind ←] theorem Routing.hasKeys_serialize (r : Routing) : HasKeys r.serialize := by
  grind [serialize]

@[grind ←] theorem UserDataInfo.hasKeys_serialize (info : UserDataInfo) :
    HasKeys info.serialize := by
  have hwhat : HasKeys (Config.named "usdt" |>.set "pn" (unsignedToStr info.packetNumber)
      |>.set "pl" info.protocol |>.add info.split.serialize |>.add info.what.serialize) := by
    grind
  have hlists := hasKeys_addIf (info.destination ≠ []) hwhat
    (hasKeys_serializeUuids info.destination)
  have hregistrators := hasKeys_addIf (info.registrators ≠ []) hlists
    (hasKeys_withKey (by simp : "reg" ≠ "") (hasKeys_serializeUuids info.registrators))
  have hrouting := hasKeys_add (hasKeys_addAll info.eventsList hregistrators fun e =>
    hasKeys_leaf (by simp : "hand" ≠ "") (unsignedToStr e)) info.routing.hasKeys_serialize
  exact hasKeys_set (hasKeys_set hrouting (by simp) _) (by simp) _

@[grind ←] theorem FailSend.hasKeys_serialize (f : FailSend) : HasKeys f.serialize := by
  grind [serialize]

namespace Service

@[grind ←] theorem ErrorInfo.hasKeys_serialize (e : ErrorInfo) : HasKeys e.serialize := by
  grind [serialize]

@[grind ←] theorem ProgramId.hasKeys_serialize (p : ProgramId) : HasKeys p.serialize := by
  have htimes : HasKeys (Config.named "info" |>.set "tm" (unsignedToStr p.time)
      |>.set "pid" (unsignedToStr p.pid)) := by grind
  have hvalues := hasKeys_addValue (hasKeys_addValue (hasKeys_addValue htimes
    (by simp : "path" ≠ "") p.path) (by simp : "type" ≠ "") (unsignedToStr p.type))
    (by simp : "edn" ≠ "") (unsignedToStr p.endian.toUnsigned)
  exact hasKeys_add (hasKeys_add hvalues p.id.hasKeys_serialize) p.version.hasKeys_serialize

@[grind ←] theorem KernelLink.hasKeys_serialize (l : KernelLink) : HasKeys l.serialize := by
  have htimes : HasKeys (Config.named "klink" |>.addValue "klat" (unsignedToStr l.latency)
      |>.addValue "ctime" (unsignedToStr l.connectTime)) := by grind
  exact hasKeys_addValue (hasKeys_add htimes l.program.hasKeys_serialize) (by simp) l.typeLink

@[grind ←] theorem KernelInfos.hasKeys_serialize (k : KernelInfos) : HasKeys k.serialize := by
  grind [serialize]

@[grind ←] theorem KernelInfosArray.hasKeys_serialize (a : KernelInfosArray) :
    HasKeys a.serialize := by
  grind [serialize]

@[grind ←] theorem DemandDg.hasKeys_serialize (d : DemandDg) : HasKeys d.serialize := by
  have hwhat : HasKeys (Config.named "dem" |>.add d.what.serialize
      |>.addAs "id" (serializeProgramName d.nameFrom) |>.addValue "pl" d.protocol) := by
    grind [serializeProgramName]
  have hvalues := hasKeys_addValue (hasKeys_addValue (hasKeys_addValue hwhat
    (by simp : "hand" ≠ "") (unsignedToStr d.handler)) (by simp : "hand_priority" ≠ "")
    (unsignedToStr d.handlerPriority)) (by simp : "dflag" ≠ "") (unsignedToStr d.flags)
  exact hasKeys_addIf _ hvalues (hasKeys_serializeUuid _)

@[grind ←] theorem hasKeys_serializeDemands (l : List DemandDg) : HasKeys (serializeDemands l) := by
  grind [serializeDemands]

@[grind ←] theorem DemandDgsFor.hasKeys_serialize (m : DemandDgsFor) : HasKeys m.serialize := by
  grind [serialize, serializeDemandsFor]

/-- `main_ch_param_t`; its value has no config without a key. -/
structure MainChParam where
  type : Text
  value : Config
  hasKeys : ∀ x ∈ value.children, HasKeys x

def MainChParam.serialize (p : MainChParam) : Config :=
  Config.named "main" |>.set "channel" p.type |>.addAs "val" p.value

inductive Message where
  | programInfo (p : ProgramId)
  | snapshot (a : KernelInfosArray)
  | demands (l : List DemandDg)
  | demandsFor (m : DemandDgsFor)
  | failReport (f : FailSend)
  | channelParam (p : MainChParam)

namespace Message

def serialize : Message → Config
  | programInfo p => p.serialize
  | snapshot a => a.serialize
  | demands l => serializeDemands l
  | demandsFor m => m.serialize
  | failReport f => f.serialize
  | channelParam p => p.serialize

/-- `NAME` of the type. -/
def name : Message → String
  | programInfo _ => "info"
  | snapshot _ => "kinfs"
  | demands _ => "dems"
  | demandsFor _ => "demf"
  | failReport _ => "fsend"
  | channelParam _ => "main"

theorem key_serialize (m : Message) : m.serialize.key = m.name := by
  cases m <;> simp [serialize, name, MainChParam.serialize]

theorem hasKeys_serialize (m : Message) : HasKeys m.serialize := by
  cases m with
  | channelParam p =>
    have hvalue : HasKeys (withKey "val" p.value) := .node (by simp) p.hasKeys
    exact hasKeys_add (by grind) hvalue
  | _ => grind [serialize]

/-- No message has a route or an error of its own. -/
theorem isChild_serialize (m : Message) :
    m.serialize.isChild "rtg_" = false ∧ m.serialize.isChild "err_" = false := by
  cases m with
  | programInfo p => simp [serialize, ProgramId.serialize]
  | snapshot a => simp [serialize, KernelInfosArray.serialize]
  | demands l => simp [serialize, serializeDemands]
  | demandsFor m => simp [serialize, DemandDgsFor.serialize]
  | failReport f => simp [serialize, FailSend.serialize]
  | channelParam p => simp [serialize, MainChParam.serialize]

end Message

end Service

end UdtKernel
