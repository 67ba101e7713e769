import UdtKernel.RequiredDG.Table

set_option autoImplicit false

/-! The operations of `CRequiredDG`: `MAddClient`, `MRemoveClient`, `MSetDemandsDGFor`. -/

namespace UdtKernel.RequiredDG
open UdtKernel.Lib UdtKernel.Address

/-- `MGetUUIDFor`: the identifiers that conform to a name, with their depths. -/
def getUUIDFor (aIds : SortedMap Uuid Text) (aName : Text) (isInvertGroup : Bool) :
    Except Abort (SortedMap Uuid ℕ) :=
  aIds.entries.foldlM (fun res e => do
    let val ← doesIdConformTo e.2 aName isInvertGroup
    return if val ≠ 0 then res.insert e.1 val else res) .empty

def getOnlyNearestUUIDFor (aTo : SortedMap Uuid ℕ) : SortedMap Uuid ℕ :=
  match aTo.values.min? with
  | none => aTo
  | some minPrior => aTo.filter fun _ depth => depth = minPrior

/-- The senders of a demand, only the nearest ones if it is for these. -/
def sendersFor (aIds : SortedMap Uuid Text) (aWhat : DemandDg) :
    Except Abort (SortedMap Uuid ℕ) := do
  let uuids ← getUUIDFor aIds aWhat.nameFrom aWhat.flags.invertGroup
  return if aWhat.flags.nearest then getOnlyNearestUUIDFor uuids else uuids

/-- The recorded distance; `operator[]` makes a record that does not exist zero. -/
def nearestOf (dg : RequiredDG) (aTo : Uuid) (aHandler : ℕ) : ℕ :=
  (dg.nearestInfo.find (toLex (aTo, aHandler))).getD 0

def setNearest (dg : RequiredDG) (aTo : Uuid) (aHandler aDistance : ℕ) : RequiredDG :=
  { dg with nearestInfo := dg.nearestInfo.insert (toLex (aTo, aHandler)) aDistance }

def eraseNearest (dg : RequiredDG) (aTo : Uuid) (aHandler : ℕ) : RequiredDG :=
  { dg with nearestInfo := dg.nearestInfo.erase (toLex (aTo, aHandler)) }

/-- The distance of the nearest senders, the greatest one when there are none. -/
def firstDistance (aUuids : SortedMap Uuid ℕ) : ℕ :=
  match aUuids.entries with
  | [] => unsignedMax
  | e :: _ => e.2

/-- One turn of `MAddSendersOfMsgFor`. -/
def addSendersOf (swap : SwapHeader) (aFor : Uuid) (s : Patch) (aWhat : DemandDg) :
    Except Abort Patch := do
  let uuids ← sendersFor s.dg.ids aWhat
  let dg := if aWhat.flags.nearest then
      s.dg.setNearest aFor aWhat.handler (firstDistance uuids)
    else s.dg
  return uuids.keys.foldl (fun s u => sendPacketFromTo swap u aFor aWhat s) { s with dg := dg }

def addSendersOfMsgFor (swap : SwapHeader) (aFor : Uuid) (aAdded : List DemandDg) (s : Patch) :
    Except Abort Patch := aAdded.foldlM (addSendersOf swap aFor) s

/-- One turn of `MRemoveSendersOfMsgFor`. -/
def removeSendersOf (swap : SwapHeader) (aTo : Uuid) (s : Patch) (aWhat : DemandDg) :
    Except Abort Patch := do
  let uuids ← sendersFor s.dg.ids aWhat
  let dg := if aWhat.flags.nearest then s.dg.eraseNearest aTo aWhat.handler else s.dg
  uuids.keys.foldlM (fun s u => unSendPacketFromTo swap u aTo aWhat s) { s with dg := dg }

def removeSendersOfMsgFor (swap : SwapHeader) (aTo : Uuid) (aWhat : List DemandDg) (s : Patch) :
    Except Abort Patch := aWhat.foldlM (removeSendersOf swap aTo) s

/-- One turn of the loop of `MGetDiffDemandsDG`, on the old demands still to be removed, the
    last one first, and the new ones to be added. -/
def diffTurn (d : DemandDg) (s : List DemandDg × List DemandDg) :
    List DemandDg × List DemandDg :=
  if s.1.any (·.isEqual d) then (s.1.eraseP (·.isEqual d), s.2) else (s.1, d :: s.2)

/-- `MGetDiffDemandsDG`: the demands removed and those added. -/
def getDiffDemandsDG (aOld : Option (List DemandDg)) (aNew : List DemandDg) :
    List DemandDg × List DemandDg :=
  match aOld with
  | none => ([], aNew)
  | some old =>
    let diff := aNew.foldr diffTurn (old.reverse, [])
    (diff.1.reverse, diff.2)

def getDemandFor (dg : RequiredDG) (aUuid : Uuid) : List DemandDg := (dg.dgs.find aUuid).getD []

def removeAllSendersOfMsgsFor (swap : SwapHeader) (aUuid : Uuid) (s : Patch) :
    Except Abort Patch :=
  match s.dg.dgs.find aUuid with
  | none => .ok s
  | some removedList => removeSendersOfMsgFor swap aUuid removedList
      { s with dg := { s.dg with dgs := s.dg.dgs.erase aUuid } }

def setDemandsDGFor (swap : SwapHeader) (aFor : Uuid) (aReqDgs : List DemandDg)
    (dg : RequiredDG) : Except Abort Patch :=
  if aReqDgs = [] then removeAllSendersOfMsgsFor swap aFor ⟨dg, .empty, .empty⟩
  else do
    let diff := getDiffDemandsDG (dg.dgs.find aFor) aReqDgs
    let dg := { dg with dgs := dg.dgs.insert aFor aReqDgs }
    let s ← removeSendersOfMsgFor swap aFor diff.1 ⟨dg, .empty, .empty⟩
    addSendersOfMsgFor swap aFor diff.2 s

/-- `way_info_t`: a demand of a receiver that a sender conforms to, and how far it is. -/
structure WayInfo where
  from_ : Uuid
  for_ : Uuid
  what : DemandDg
  distance : ℕ
  deriving DecidableEq

def demandsOf (aFor : DemandDgsFor) : List (Uuid × DemandDg) :=
  aFor.entries.flatMap fun e => e.2.map fun d => (e.1, d)

def getDistance (aFrom : Id) (aFor : DemandDgsFor) : Except Abort (List WayInfo) :=
  (demandsOf aFor).mapM fun e => do
    let depth ← doesIdConformTo aFrom.name e.2.nameFrom e.2.flags.invertGroup
    return ⟨aFrom.uuid, e.1, e.2, depth⟩

def getListOfReceiversOfMsgsFrom (dg : RequiredDG) (aFrom : Id) :
    Except Abort (List WayInfo) := do
  let ways ← getDistance aFrom dg.dgs
  return ways.filter fun w => w.distance ≠ 0

/-- The ways by which all of `aUuids` send for the demand of `w`. -/
def waysFor (w : WayInfo) (aUuids : SortedMap Uuid ℕ) (aDistance : ℕ) : List WayInfo :=
  aUuids.keys.map fun u => ⟨u, w.for_, w.what, aDistance⟩

/-- `MRemoveSenderIfNeed`: what is added nonetheless, the ways it takes the place of. -/
def removeSenderIfNeed : List WayInfo → RequiredDG →
    Except Abort (List WayInfo × List WayInfo × RequiredDG)
  | [], dg => .ok ([], [], dg)
  | w :: ws, dg =>
    if w.what.flags.nearest then do
      let current := dg.nearestOf w.for_ w.what.handler
      if current < w.distance then
        removeSenderIfNeed ws (dg.setNearest w.for_ w.what.handler current)
      else if w.distance < current then
        let prev ← getUUIDFor dg.ids w.what.nameFrom w.what.flags.invertGroup
        let (added, removed, dg) ←
          removeSenderIfNeed ws (dg.setNearest w.for_ w.what.handler w.distance)
        return (w :: added, waysFor w (getOnlyNearestUUIDFor prev) current ++ removed, dg)
      else
        let (added, removed, dg) ←
          removeSenderIfNeed ws (dg.setNearest w.for_ w.what.handler current)
        return (w :: added, removed, dg)
    else do
      let (added, removed, dg) ← removeSenderIfNeed ws dg
      return (w :: added, removed, dg)

/-- `MAddSenderIfNeed`: the ways that take the place of those removed. -/
def addSenderIfNeed (aFrom : Uuid) : List WayInfo → RequiredDG →
    Except Abort (List WayInfo × RequiredDG)
  | [], dg => .ok ([], dg)
  | w :: ws, dg =>
    if w.what.flags.nearest then do
      let current := dg.nearestOf w.for_ w.what.handler
      let dg := dg.setNearest w.for_ w.what.handler current
      if w.distance < current then .error .removedSenderTooNear
      else if w.distance = current then
        let others ← getUUIDFor dg.ids w.what.nameFrom w.what.flags.invertGroup
        let others := getOnlyNearestUUIDFor (others.erase aFrom)
        -- with no more senders the record stays as it is
        if others.entries = [] ∨ firstDistance others = current then addSenderIfNeed aFrom ws dg
        else
          let depth := firstDistance others
          let (added, dg) ← addSenderIfNeed aFrom ws (dg.setNearest w.for_ w.what.handler depth)
          return (waysFor w others depth ++ added, dg)
      else addSenderIfNeed aFrom ws dg
    else addSenderIfNeed aFrom ws dg

/-- `MTakeIntoAccountOnlyNearestSendersIfNeed`, on what is added and what is removed. -/
def takeIntoAccountOnlyNearestSendersIfNeed (aFrom : Uuid) (aAdded aRemoved : List WayInfo)
    (dg : RequiredDG) : Except Abort (List WayInfo × List WayInfo × RequiredDG) := do
  let (added, newRemoved, dg) ← removeSenderIfNeed aAdded dg
  let (newAdded, dg) ← addSenderIfNeed aFrom aRemoved dg
  return (added ++ newAdded, aRemoved ++ newRemoved, dg)

/-- `MUpdateSendInfoFor`. The lists that it leaves out for a registrator's demand would not be
    added to, for only a real handler is reported. -/
def updateSendInfoFor (swap : SwapHeader) (aAdd aRemove : List WayInfo) (s : Patch) :
    Except Abort Patch := do
  let s ← aRemove.foldlM (fun s w => unSendPacketFromTo swap w.from_ w.for_ w.what s) s
  return aAdd.foldl (fun s w => sendPacketFromTo swap w.from_ w.for_ w.what s) s

def addReceiversOfMsgsFrom (swap : SwapHeader) (aFrom : Id) (s : Patch) : Except Abort Patch := do
  let ways ← getListOfReceiversOfMsgsFrom s.dg aFrom
  let (added, removed, dg) ← takeIntoAccountOnlyNearestSendersIfNeed aFrom.uuid ways [] s.dg
  updateSendInfoFor swap added removed { s with dg := dg }

def addClient (swap : SwapHeader) (aId : Id) (dg : RequiredDG) : Except Abort Patch := do
  let s ← addReceiversOfMsgsFrom swap aId ⟨dg, .empty, .empty⟩
  if (s.dg.ids.find aId.uuid).isSome then .error .clientIsKnown
  else return { s with dg := { s.dg with ids := s.dg.ids.insert aId.uuid aId.name } }

def getDemandsByHandlers (aHandlers : List ℕ) (aDemand : List DemandDg) : List DemandDg :=
  aHandlers.filterMap fun h => aDemand.find? (·.handler = h)

/-- Every receiver of a message of `aFrom`, message by message, with its handlers. -/
def receiversFrom (dg : RequiredDG) (aFrom : Uuid) : List (Uuid × MsgHandlers) :=
  ((dg.whatIsSendingBy.find aFrom).getD .empty).values.flatMap fun routing =>
    routing.expected.values.flatMap fun r => r.receivers.entries

def getWhatMsgSentFrom (dg : RequiredDG) (aFrom : Uuid) : DemandDgsFor :=
  (dg.receiversFrom aFrom).foldl (fun res e => res.alter e.1 fun o =>
    some (o.getD [] ++ getDemandsByHandlers e.2.handlers (dg.getDemandFor e.1))) .empty

def removeAllReceiversForMsgsFrom (swap : SwapHeader) (aFrom : Id) (s : Patch) :
    Except Abort Patch := do
  let result := s.dg.getWhatMsgSentFrom aFrom.uuid
  let s ← if demandsOf result ≠ [] then do
      let ways ← getDistance aFrom result
      let (added, removed, dg) ← takeIntoAccountOnlyNearestSendersIfNeed aFrom.uuid [] ways s.dg
      updateSendInfoFor swap added removed { s with dg := dg }
    else .ok s
  return { s with dg := { s.dg with whatIsSendingBy := s.dg.whatIsSendingBy.erase aFrom.uuid } }

def isValidId (aId : Id) : Bool := aId.name ≠ [] || aId.uuid ≠ 0

def removeClient (swap : SwapHeader) (aUuid : Uuid) (dg : RequiredDG) : Except Abort Patch :=
  let unchanged : Patch := ⟨dg, .empty, .empty⟩
  match dg.ids.find aUuid with
  | none => .ok unchanged
  | some name =>
    if isValidId ⟨aUuid, name⟩ then do
      let s ← removeAllSendersOfMsgsFor swap aUuid unchanged
      let s ← removeAllReceiversForMsgsFrom swap ⟨aUuid, name⟩ s
      return { s with dg := { s.dg with ids := s.dg.ids.erase aUuid } }
    else .ok unchanged

end UdtKernel.RequiredDG
