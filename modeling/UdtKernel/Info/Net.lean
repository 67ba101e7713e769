import Mathlib.Data.Finset.Basic
import UdtKernel.Graph.Route
import UdtKernel.Lib.PairUp

set_option autoImplicit false

/-! What a kernel knows of the net and of the kernels in it: `CInfoService`. -/

namespace UdtKernel
open UdtKernel.Lib

/-- `eProgramType`. -/
inductive ProgramType where
  | kernel
  | consumer
  deriving DecidableEq

/-- `kernel_link` without the uuid of its program, by which links are compared. -/
structure KernelLink where
  name : Text
  type : ProgramType
  latency : ℕ
  deriving DecidableEq

abbrev KernLinks := SortedMap Uuid KernelLink

/-- `kernel_infos_t` without the uuid of its kernel, by which infos are compared. -/
structure KernelInfos where
  kernelInfo : Text
  customerInfo : KernLinks
  indexNumber : ℕ
  deriving DecidableEq

structure KernelInfosArray where
  net : SortedMap Uuid KernelInfos
  numberOfChange : ℕ
  deriving DecidableEq

namespace KernelInfosArray

def wasChanged (a : KernelInfosArray) : KernelInfosArray :=
  { a with numberOfChange := (a.numberOfChange + 1) % 2 ^ 32 }

end KernelInfosArray

/-- An element of `k_diff_t`: the flag says that the kernel itself is opened or closed. -/
structure DiffItem where
  kernel : Uuid
  infos : KernelInfos
  isKernel : Bool
  deriving DecidableEq

structure KernelInfosDiff where
  opened : List DiffItem
  closed : List DiffItem
  deriving DecidableEq

namespace KernelInfosDiff

def empty : KernelInfosDiff := ⟨[], []⟩

def isValid (d : KernelInfosDiff) : Bool := d.opened ≠ [] || d.closed ≠ []

end KernelInfosDiff

structure DescriptorInfo where
  uuid : Uuid
  link : KernelLink
  deriving DecidableEq

/-- `CInfoService::_data_info_t`. -/
structure InfoData where
  fnet : KernelInfosArray
  uuidFrom : SortedMap Uuid (Finset Descriptor)
  graph : RouteGraph
  destinationCache : SortedMap Uuid (List Descriptor)
  allDescriptors : List Descriptor

structure Synchronized where
  sentTo : List Descriptor
  snapshot : KernelInfosArray
  diff : KernelInfosDiff

namespace InfoData

def resetCache (d : InfoData) : InfoData :=
  { d with graph := d.graph.resetCache, destinationCache := .empty }

def linksOf (infos : KernelInfos) : Vertexs := infos.customerInfo.mapVal fun _ link => link.latency

def rebuildGraph (d : InfoData) : Except Abort InfoData := do
  let graph ← d.fnet.net.entries.foldlM (fun g e => g.addNode e.1 (linksOf e.2)) d.graph.reset
  return { d with graph := graph }

def changeMyInfo (aMe : Uuid) (d : InfoData) (f : KernLinks → KernLinks) :
    Except Abort KernelInfosArray :=
  match d.fnet.net.find aMe with
  | none => .error .missingOwnKernel
  | some my =>
    let new : KernelInfos := { my with
      customerInfo := f my.customerInfo
      indexNumber := (my.indexNumber + 1) % 2 ^ 32 }
    .ok { d.fnet with net := d.fnet.net.insert aMe new }.wasChanged

/-- What is reported of one link of the own kernel. -/
def myLink (aMe : Id) (aInfo : DescriptorInfo) : DiffItem :=
  ⟨aMe.uuid, ⟨aMe.name, SortedMap.empty.insert aInfo.uuid aInfo.link, 0⟩, false⟩

def putConsumerToMyInfo (aMe : Id) (aFrom : Descriptor) (aNew : DescriptorInfo) (d : InfoData)
    (aAdded : List DiffItem) : Except Abort (InfoData × List DiffItem) := do
  let net ← changeMyInfo aMe.uuid d fun links => links.insertNew aNew.uuid aNew.link
  return ({ d with fnet := net, allDescriptors := d.allDescriptors ++ [aFrom] },
    aAdded ++ [myLink aMe aNew])

def popConsumerFromMyInfo (aMe : Id) (aFrom : Descriptor) (aOld : DescriptorInfo) (d : InfoData)
    (aRemoved : List DiffItem) : Except Abort (InfoData × List DiffItem) := do
  let net ← changeMyInfo aMe.uuid d fun links => links.erase aOld.uuid
  return ({ d with fnet := net, allDescriptors := d.allDescriptors.filter (· ≠ aFrom) },
    aRemoved ++ [myLink aMe aOld])

structure Merge where
  from_ : SortedMap Uuid (Finset Descriptor)
  net : SortedMap Uuid KernelInfos
  opened : List DiffItem
  closed : List DiffItem

/-- `MPutKernel`, with its `DCHECK`. -/
def putKernel (aFrom : Descriptor) (aKernel : Uuid) (aNew : KernelInfos) (s : Merge) :
    Except Abort Merge :=
  if (s.from_.find aKernel).isSome then .error .kernelIsPresent
  else .ok { s with
    opened := s.opened ++ [⟨aKernel, aNew, true⟩]
    from_ := s.from_.alter aKernel fun o => some (insert aFrom (o.getD ∅))
    net := s.net.insertNew aKernel aNew }

def popKernel (aFrom : Descriptor) (aKernel : Uuid) (aOld : KernelInfos) (s : Merge) :
    Except Abort Merge :=
  match s.from_.find aKernel with
  | none => .error .missingUuidFrom
  | some from_ =>
    if aFrom ∈ from_ ∧ from_.erase aFrom = ∅ then
      .ok { s with
        closed := s.closed ++ [⟨aKernel, aOld, true⟩]
        from_ := s.from_.erase aKernel }
    else
      .ok { s with
        from_ := s.from_.insert aKernel (from_.erase aFrom)
        net := s.net.insertNew aKernel aOld }

def without (links others : KernLinks) : KernLinks :=
  links.filter fun u _ => (others.find u).isNone

def getCustomerDiff (aKernel : Uuid) (old new : KernelInfos) (s : Merge) : Merge :=
  let removed := without old.customerInfo new.customerInfo
  let added := without new.customerInfo old.customerInfo
  { s with
    closed := if removed.entries = [] then s.closed
      else s.closed ++ [⟨aKernel, { new with customerInfo := removed }, false⟩]
    opened := if added.entries = [] then s.opened
      else s.opened ++ [⟨aKernel, { old with customerInfo := added }, false⟩] }

/-- A kernel that both nets have: the greater number wins. -/
def updateKernel (aKernel : Uuid) (new old : KernelInfos) (s : Merge) : Merge :=
  if old.indexNumber < new.indexNumber then
    let s := getCustomerDiff aKernel old new s
    { s with net := s.net.insertNew aKernel new }
  else { s with net := s.net.insertNew aKernel old }

/-- The turns of the loop of `MSynchronizeNetInfo` up to the next kernel of the new net. -/
def synchronizeStep (aFrom : Descriptor) (new : Uuid × KernelInfos)
    (rest : List (Uuid × KernelInfos) → Merge → Except Abort Merge) :
    List (Uuid × KernelInfos) → Merge → Except Abort Merge
  | [], s => do rest [] (← putKernel aFrom new.1 new.2 s)
  | old :: olds, s =>
    if new.1 < old.1 then do rest (old :: olds) (← putKernel aFrom new.1 new.2 s)
    else if old.1 < new.1 then do
      let s ← popKernel aFrom old.1 old.2 s
      synchronizeStep aFrom new rest olds s
    else rest olds (updateKernel new.1 new.2 old.2 s)

/-- The loops of `MSynchronizeNetInfo`. -/
def synchronizeLoop (aFrom : Descriptor) :
    List (Uuid × KernelInfos) → List (Uuid × KernelInfos) → Merge → Except Abort Merge
  | [], olds, s => olds.foldlM (fun s old => popKernel aFrom old.1 old.2 s) s
  | new :: news, olds, s => synchronizeStep aFrom new (synchronizeLoop aFrom news) olds s

def synchronizeNetInfo (aNewNet : KernelInfosArray) (aFrom : Descriptor) (d : InfoData) :
    Except Abort (InfoData × KernelInfosDiff) := do
  let s ← synchronizeLoop aFrom aNewNet.net.entries d.fnet.net.entries
    ⟨d.uuidFrom, .empty, [], []⟩
  let diff : KernelInfosDiff := ⟨s.opened, s.closed⟩
  let fnet := if diff.isValid then { d.fnet with net := s.net }.wasChanged else d.fnet
  return ({ d with fnet := fnet, uuidFrom := s.from_ }, diff)

/-- `MAddKernel`: the flag says that the descriptor is new to the kernel. -/
def addKernel (aInfo : DescriptorInfo) (aFrom : Descriptor) (d : InfoData)
    (aOpened : List DiffItem) : Except Abort (Bool × InfoData × List DiffItem) :=
  match d.uuidFrom.find aInfo.uuid with
  | none => do
    let s ← putKernel aFrom aInfo.uuid ⟨aInfo.link.name, .empty, 0⟩
      ⟨d.uuidFrom, d.fnet.net, aOpened, []⟩
    return (true, { d with fnet := { d.fnet with net := s.net }, uuidFrom := s.from_ }, s.opened)
  | some from_ =>
    .ok (aFrom ∉ from_, { d with uuidFrom := d.uuidFrom.insert aInfo.uuid (insert aFrom from_) },
      aOpened)

/-- One turn of the loop of `MRemoveKernel`. -/
def removeStep (aFrom : Descriptor) (s : InfoData × List DiffItem) (e : Uuid × KernelInfos) :
    Except Abort (InfoData × List DiffItem) :=
  match s.1.uuidFrom.find e.1 with
  | none => .error .missingUuidFrom
  | some from_ =>
    if aFrom ∈ from_ ∧ from_.erase aFrom = ∅ then
      .ok ({ s.1 with
        fnet := { s.1.fnet with net := s.1.fnet.net.erase e.1 }
        uuidFrom := s.1.uuidFrom.erase e.1 }, s.2 ++ [⟨e.1, e.2, true⟩])
    else .ok ({ s.1 with uuidFrom := s.1.uuidFrom.insert e.1 (from_.erase aFrom) }, s.2)

/-- `MRemoveKernel`: the kernels that are known by one descriptor only. -/
def removeKernel (aFrom : Descriptor) (d : InfoData) (aClosed : List DiffItem) :
    Except Abort (InfoData × List DiffItem) :=
  d.fnet.net.entries.foldlM (removeStep aFrom) (d, aClosed)

def init (aMe : Id) : Except Abort InfoData := do
  let s ← putKernel invalidDescriptor aMe.uuid ⟨aMe.name, .empty, 0⟩ ⟨.empty, .empty, [], []⟩
  return ⟨⟨s.net, 1⟩, s.from_, .empty, .empty, []⟩

/-- `MStart`, with the descriptors that are open already. -/
def start (aMe : Id) (aDescriptors : SortedMap Descriptor DescriptorInfo) :
    Except Abort InfoData := do
  aDescriptors.entries.foldlM (fun d e => do
    let r ← putConsumerToMyInfo aMe e.1 e.2 d []
    return r.1) (← init aMe)

def handleOpen (aMe : Id) (aFrom : Descriptor) (aInfo : DescriptorInfo) (d : InfoData) :
    Except Abort (InfoData × Synchronized) := do
  let (d, opened) ← putConsumerToMyInfo aMe aFrom aInfo d []
  let (sentTo, d, opened) ← match aInfo.link.type with
    | .consumer => .ok (d.allDescriptors, d, opened)
    | .kernel => do
      let (isNew, d, opened) ← addKernel aInfo aFrom d opened
      pure (if isNew then [aFrom] else d.allDescriptors, d, opened)
  let graph ← d.graph.addNode aMe.uuid
    (SortedMap.empty.insert aInfo.uuid (aInfo.link.latency : ℤ))
  let d := { d with graph := graph }.resetCache
  return (d, ⟨sentTo, d.fnet, ⟨opened, []⟩⟩)

def handleClose (aMe : Id) (aFrom : Descriptor) (aInfo : DescriptorInfo) (d : InfoData) :
    Except Abort (InfoData × Synchronized) := do
  let (d, closed) ← popConsumerFromMyInfo aMe aFrom aInfo d []
  let sentTo := d.allDescriptors
  let (d, closed) ← match aInfo.link.type with
    | .consumer => .ok ({ d with graph := d.graph.removeNode aInfo.uuid }, closed)
    | .kernel => do
      let (d, closed) ← removeKernel aFrom d closed
      let d ← rebuildGraph d
      pure (d, closed)
  let d := d.resetCache
  return (d, ⟨sentTo, d.fnet, ⟨[], closed⟩⟩)

/-- `MHandle` of a snapshot, with what is done when something has changed. -/
def handle (aNet : KernelInfosArray) (aFrom : Descriptor) (d : InfoData) :
    Except Abort (InfoData × Option Synchronized) := do
  let (d, diff) ← synchronizeNetInfo aNet aFrom d
  if diff.isValid then
    -- a snapshot can be received before its descriptor has been opened
    let sentTo := if aFrom ∈ d.allDescriptors then d.allDescriptors.filter (· ≠ aFrom) else []
    let d ← rebuildGraph d.resetCache
    return (d, some ⟨sentTo, d.fnet, diff⟩)
  else return (d, none)

end InfoData

inductive Event where
  | opened (aFrom : Descriptor) (aInfo : DescriptorInfo)
  | closed (aFrom : Descriptor) (aInfo : DescriptorInfo)
  | netInfo (aFrom : Descriptor) (aNet : KernelInfosArray)

namespace InfoData

def process (aMe : Id) : Event → InfoData → Except Abort (InfoData × KernelInfosDiff)
  | .opened aFrom aInfo, d => do
    let r ← d.handleOpen aMe aFrom aInfo
    return (r.1, r.2.diff)
  | .closed aFrom aInfo, d => do
    let r ← d.handleClose aMe aFrom aInfo
    return (r.1, r.2.diff)
  | .netInfo aFrom aNet, d => do
    let r ← d.handle aNet aFrom
    return (r.1, (r.2.map Synchronized.diff).getD .empty)

def step (aMe : Id) (e : Event) (d : InfoData) : Except Abort InfoData := do
  let r ← d.process aMe e
  return r.1

end InfoData

end UdtKernel
