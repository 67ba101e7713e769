import UdtKernel.Config.Demands

set_option autoImplicit false

/-! A message of a service that is written comes back when it is read. -/

namespace UdtKernel
open UdtKernel.Lib Config

inductive ServiceValue where
  | uuids (l : List Uuid)
  | routing (r : Routing)
  | splitPacket (s : SplitPacket)
  | userDataInfo (info : UserDataInfo)
  | failSend (f : FailSend)
  | demandDg (d : Service.DemandDg)
  | demandDgs (l : List Service.DemandDg)
  | demandDgsFor (m : Service.DemandDgsFor)
  | programId (p : Service.ProgramId)
  | kernelLink (l : Service.KernelLink)
  | kernelInfos (k : Service.KernelInfos)
  | kernelInfosArray (a : Service.KernelInfosArray)
  | errorInfo (e : Service.ErrorInfo)
  | networkChannel (n : Service.NetworkChannel)
  | autoSearchInfo (a : Service.AutoSearchInfo)

namespace ServiceValue

def serialize : ServiceValue → Config
  | uuids l => serializeUuids l
  | routing r => r.serialize
  | splitPacket s => s.serialize
  | userDataInfo info => info.serialize
  | failSend f => f.serialize
  | demandDg d => d.serialize
  | demandDgs l => Service.serializeDemands l
  | demandDgsFor m => m.serialize
  | programId p => p.serialize
  | kernelLink l => l.serialize
  | kernelInfos k => k.serialize
  | kernelInfosArray a => a.serialize
  | errorInfo e => e.serialize
  | networkChannel n => n.serialize
  | autoSearchInfo a => a.serialize

def construct (userHeader : Text → Config → Option RequiredHeader) (now : ℕ) :
    ServiceValue → Config → ServiceValue
  | uuids _, c => uuids (uuidsOf c)
  | routing _, c => routing (.ofConfig c)
  | splitPacket _, c => splitPacket (.ofConfig c)
  | userDataInfo _, c => userDataInfo (.ofConfig userHeader c)
  | failSend _, c => failSend (.ofConfig userHeader c)
  | demandDg _, c => demandDg (.ofConfig userHeader c)
  | demandDgs _, c => demandDgs (Service.demandsOf userHeader c)
  | demandDgsFor _, c => demandDgsFor (.ofConfig userHeader c)
  | programId _, c => programId (.ofConfig c)
  | kernelLink _, c => kernelLink (.ofConfig now c)
  | kernelInfos _, c => kernelInfos (.ofConfig now c)
  | kernelInfosArray _, c => kernelInfosArray (.ofConfig now c)
  | errorInfo _, c => errorInfo (.ofConfig c)
  | networkChannel _, c => networkChannel (.ofConfig c)
  | autoSearchInfo _, c => autoSearchInfo (.ofConfig c)

def isValid : ServiceValue → Bool
  | uuids l => areUuidsValid l
  | routing r => r.isValid
  | splitPacket s => s.isValid
  | userDataInfo info => info.isValid
  | failSend f => f.isValid
  | demandDg d => d.isValid
  | demandDgs l => l.all Service.DemandDg.isValid
  | demandDgsFor m => m.isValid
  | programId p => p.isValid
  | kernelLink l => l.isValid
  | kernelInfos k => k.isValid
  | kernelInfosArray a => a.isValid
  | errorInfo e => e.isValid
  | networkChannel n => n.isValid
  | autoSearchInfo a => a.isValid

def Fits : ServiceValue → Prop
  | uuids l => ∀ u ∈ l, Unsigned 64 u
  | routing r => r.Fits
  | splitPacket s => s.Fits
  | userDataInfo info => info.Fits
  | failSend f => f.Fits
  | demandDg d => d.Fits
  | demandDgs l => ∀ d ∈ l, d.Fits
  | demandDgsFor m => m.Fits
  | programId p => p.Fits
  | kernelLink l => l.Fits
  | kernelInfos k => k.Fits
  | kernelInfosArray a => a.Fits
  | errorInfo e => e.Fits
  | networkChannel n => IsInt n.address.port
  | autoSearchInfo a => a.program.Fits ∧ IsInt a.channel.address.port

def NamesValid : ServiceValue → Prop
  | demandDg d => isProgramNameValid d.nameFrom = true
  | demandDgs l => ∀ d ∈ l, isProgramNameValid d.nameFrom = true
  | demandDgsFor m => ∀ p ∈ m.elements, ∀ d ∈ p.2, isProgramNameValid d.nameFrom = true
  | _ => True

/-- The route that a packet or a report holds is valid, or there is none. -/
def RouteIsKept : ServiceValue → Prop
  | userDataInfo info => info.routing.IsKept
  | failSend f => f.info.routing.IsKept
  | _ => True

/-- A valid value is read as it was exactly when the route in it is. -/
theorem construct_serialize_eq_iff (userHeader : Text → Config → Option RequiredHeader) (now : ℕ)
    (v : ServiceValue) (hfits : v.Fits) (hnames : v.NamesValid)
    (hvalid : v.isValid = true ∨ v = routing .default) :
    v.construct userHeader now v.serialize = v ↔ v.RouteIsKept := by
  cases v with
  | uuids l => simp [construct, serialize, RouteIsKept, uuidsOf_serializeUuids hfits]
  | routing r =>
    have hkept : r.IsKept := hvalid.imp_right fun h => by injection h
    simpa [construct, serialize, RouteIsKept] using
      (Routing.ofConfig_serialize_eq_iff hfits).2 hkept
  | splitPacket s => simp [construct, serialize, RouteIsKept, SplitPacket.ofConfig_serialize hfits]
  | userDataInfo info =>
    simpa [construct, serialize, RouteIsKept] using
      UserDataInfo.ofConfig_serialize_eq_iff userHeader hfits
  | failSend f =>
    simpa [construct, serialize, RouteIsKept] using
      FailSend.ofConfig_serialize_eq_iff userHeader hfits
  | demandDg d =>
    simp [construct, serialize, RouteIsKept,
      Service.DemandDg.ofConfig_serialize userHeader hfits hnames]
  | demandDgs l =>
    simp [construct, serialize, RouteIsKept,
      Service.demandsOf_serializeDemands userHeader hfits hnames]
  | demandDgsFor m =>
    simp [construct, serialize, RouteIsKept,
      Service.DemandDgsFor.ofConfig_serialize userHeader hfits hnames]
  | programId p =>
    simp [construct, serialize, RouteIsKept, Service.ProgramId.ofConfig_serialize hfits]
  | kernelLink l =>
    simp [construct, serialize, RouteIsKept, Service.KernelLink.ofConfig_serialize now hfits]
  | kernelInfos k =>
    simp [construct, serialize, RouteIsKept, Service.KernelInfos.ofConfig_serialize now hfits]
  | kernelInfosArray a =>
    simp [construct, serialize, RouteIsKept, Service.KernelInfosArray.ofConfig_serialize now hfits]
  | errorInfo e =>
    have he : e.isValid = true := hvalid.resolve_right (by simp)
    simp [construct, serialize, RouteIsKept, Service.ErrorInfo.ofConfig_serialize hfits he]
  | networkChannel n =>
    have hn : n.isValid = true := hvalid.resolve_right (by simp)
    simp [construct, serialize, RouteIsKept, Service.NetworkChannel.ofConfig_serialize hfits hn]
  | autoSearchInfo a =>
    have ha : a.isValid = true := hvalid.resolve_right (by simp)
    simp [construct, serialize, RouteIsKept,
      Service.AutoSearchInfo.ofConfig_serialize hfits.1 hfits.2 ha]

def packetTo (uuids : List Uuid) : UserDataInfo where
  packetNumber := 7
  protocol := ['p']
  dataOffset := 0
  eventsList := [3]
  destination := [5]
  registrators := []
  routing := ⟨⟨4, []⟩, uuids⟩
  split := .default
  endian := .little
  what := ⟨⟨1, 0, 0⟩, [1, 0, 0, 0, 0, 0, 0, 0]⟩

theorem packetTo_fits {uuids : List Uuid} (h : ∀ u ∈ uuids, Unsigned 64 u) :
    (packetTo uuids).Fits where
  packetNumber := (by decide : Unsigned 32 7)
  dataOffset := (by decide : Unsigned 32 0)
  eventsList := (by decide : ∀ e ∈ [3], Unsigned 32 e)
  destination := (by decide : ∀ u ∈ [5], Unsigned 64 u)
  registrators := fun u hu => absurd hu List.not_mem_nil
  routing := ⟨(by decide : Unsigned 64 4), h⟩
  split := ⟨(by decide : Unsigned 16 1), (by decide : Unsigned 16 1)⟩
  what := ⟨⟨(by decide : 1 < 2 ^ 8), (by decide : 0 < 2 ^ 8), (by decide : 0 < 2 ^ 16)⟩, rfl⟩

theorem construct_serialize_eq_iff_failSend :
    let v := failSend ⟨packetTo [5], ePacketLost⟩
    v.construct (fun _ _ => none) 0 v.serialize = v :=
  (construct_serialize_eq_iff (fun _ _ => none) 0 (failSend ⟨packetTo [5], ePacketLost⟩)
    ⟨packetTo_fits (by decide), by decide⟩ trivial (.inl (by decide))).2 (.inl (by decide))

/-- A packet with a receiver of no uuid is valid and names its sender, and is read without both. -/
theorem construct_false_of_noReceiver :
    (userDataInfo (packetTo [0])).Fits ∧ (userDataInfo (packetTo [0])).NamesValid ∧
      (userDataInfo (packetTo [0])).isValid = true ∧ (packetTo [0]).routing.from_.isValid = true ∧
      (userDataInfo (packetTo [0])).construct (fun _ _ => none) 0
          (userDataInfo (packetTo [0])).serialize ≠ userDataInfo (packetTo [0]) := by
  have hfits : (packetTo [0]).Fits := packetTo_fits (by decide)
  refine ⟨hfits, trivial, by decide, by decide, fun h => ?_⟩
  have hkept := (UserDataInfo.ofConfig_serialize_eq_iff (fun _ _ => none) hfits).1
    (userDataInfo.inj h)
  rcases hkept with hvalid | hdefault
  · exact absurd hvalid (by decide)
  · exact absurd hdefault (by decide)

end ServiceValue

end UdtKernel
