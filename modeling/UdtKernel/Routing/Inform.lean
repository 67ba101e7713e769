import UdtKernel.RequiredDG.Expected
import UdtKernel.Info.Net
import UdtKernel.Lib.Outcome
import UdtKernel.RequiredDG.Subscribe

set_option autoImplicit false

/-! The customers are told who sends for their messages: `MInformNewReceiver`. -/

namespace UdtKernel.RoutingService
open UdtKernel.Lib UdtKernel.RequiredDG

/-- The loop over the links of a kernel; `_update` keeps what the last consumer has changed. -/
def handleConsumers (f : Id → RequiredDG → Except Abort Patch) (links : KernLinks)
    (dg : RequiredDG) : Except Abort Patch :=
  links.entries.foldlM (fun s e => match e.2.type with
    | .kernel => .ok s
    | .consumer => f ⟨e.1, e.2.name⟩ s.dg) ⟨dg, .empty, .empty⟩

def handleNewId (swap : SwapHeader) : KernLinks → RequiredDG → Except Abort Patch :=
  handleConsumers (addClient swap)

def handleCloseId (swap : SwapHeader) : KernLinks → RequiredDG → Except Abort Patch :=
  handleConsumers fun aId => removeClient swap aId.uuid

/-- A table with what `MInformNewReceiver` has been called with, in order. -/
structure Handled where
  dg : RequiredDG
  updates : List (DemandDgsFor × DemandDgsFor)

def handleItem (f : KernLinks → RequiredDG → Except Abort Patch) (s : Handled) (i : DiffItem) :
    Except Abort Handled := do
  let p ← f i.infos.customerInfo s.dg
  return ⟨p.dg, s.updates ++ [(p.new, p.removed)]⟩

/-- The part of `MHandleDiff` that changes the table. -/
def handleDiff (swap : SwapHeader) (aDiff : KernelInfosDiff) (dg : RequiredDG) :
    Except Abort Handled := do
  let s ← aDiff.opened.foldlM (handleItem (handleNewId swap)) ⟨dg, []⟩
  aDiff.closed.foldlM (handleItem (handleCloseId swap)) s

def informArray (aDiff : KernelInfosDiff) : List Uuid :=
  (aDiff.opened.filter DiffItem.isKernel).map DiffItem.kernel

def consumersOf (links : KernLinks) : List Uuid :=
  (links.entries.filter fun e => e.2.type = .consumer).map Prod.fst

theorem mem_consumersOf {links : KernLinks} {u : Uuid} :
    u ∈ consumersOf links ↔ ∃ link, links.find u = some link ∧ link.type = .consumer := by
  unfold consumersOf
  rw [List.mem_map]
  constructor
  · rintro ⟨⟨v, link⟩, hmem, rfl⟩
    obtain ⟨hmem, htype⟩ := List.mem_filter.1 hmem
    exact ⟨link, (SortedMap.mem_entries_iff ..).1 hmem, of_decide_eq_true htype⟩
  · rintro ⟨link, hlink, htype⟩
    exact ⟨(u, link), List.mem_filter.2 ⟨(SortedMap.mem_entries_iff ..).2 hlink,
      decide_eq_true htype⟩, rfl⟩

theorem consumersOf_nodup (links : KernLinks) : (consumersOf links).Nodup :=
  (links.keys_nodup).sublist (List.filter_sublist.map Prod.fst)

end UdtKernel.RoutingService

namespace UdtKernel
open UdtKernel.Lib UdtKernel.RequiredDG

/-- `CDescriptors`: what each descriptor leads to, once it is open, and the descriptor of each
    program. -/
structure Descriptors where
  descriptors : SortedMap Descriptor (Option DescriptorInfo)
  byUuids : SortedMap Uuid Descriptor

namespace Descriptors

def ofProgram (d : Descriptors) (aVal : Uuid) : Descriptor :=
  (d.byUuids.find aVal).getD invalidDescriptor

def info (d : Descriptors) (aVal : Descriptor) : Option DescriptorInfo :=
  (d.descriptors.find aVal).join

/-- The programs of `MGetAll(E_CONSUMER)`. -/
def customers (d : Descriptors) : List Uuid :=
  d.descriptors.entries.filterMap fun e =>
    e.2.bind fun info => if info.link.type = .consumer then some info.uuid else none

/-- The descriptor found for a program leads to it, and one is found for each customer. -/
def Found (d : Descriptors) : Prop :=
  (∀ e ∈ d.byUuids.entries, isValidDescriptor e.2 = true ∧
    (d.info e.2).map DescriptorInfo.uuid = some e.1) ∧
  ∀ u ∈ d.customers, (d.byUuids.find u).isSome = true

instance (d : Descriptors) : Decidable d.Found :=
  inferInstanceAs (Decidable ((∀ e ∈ _, _) ∧ ∀ u ∈ _, _))

end Descriptors

/-- A list of demands that is sent to a descriptor. -/
structure Sent where
  aTo : Descriptor
  aFor : Uuid
  demands : List DemandDg
  deriving DecidableEq

namespace RoutingService

/-- The loop of `MInformNewReceiver` over one of its lists. -/
def informAll (d : Descriptors) (aWhat : DemandDgsFor) : List Sent :=
  aWhat.entries.filterMap fun e =>
    if isValidDescriptor (d.ofProgram e.1) then some ⟨d.ofProgram e.1, e.1, e.2⟩ else none

def setRemoved (d : DemandDg) : DemandDg := { d with flags := { d.flags with removed := true } }

def informNewReceiver (d : Descriptors) (aWhat : DemandDgsFor × DemandDgsFor) : List Sent :=
  informAll d aWhat.1 ++ informAll d (aWhat.2.mapVal fun _ ds => ds.map setRemoved)

/-- `set_intersection`: the lists of the keys that both have are appended. -/
def setIntersection (aTo aFrom : DemandDgsFor) : DemandDgsFor :=
  aTo.mapVal fun u ds => ds ++ (aFrom.find u).getD []

/-- What the routing service is told that changes the table. -/
inductive TableEvent where
  | diff (aDiff : KernelInfosDiff)
  | newDemands (aDemands : DemandDgsFor)
  | demandsFrom (aFrom : Descriptor) (aP : List DemandDg)

/-- One turn of the loop of `MHandleNewDemands`. -/
def newDemandsTurn (swap : SwapHeader) (s : Patch) (e : Uuid × List DemandDg) :
    Except Abort Patch := do
  let added ← setDemandsDGFor swap e.1 e.2 s.dg
  return ⟨added.dg, setIntersection s.new added.new, setIntersection s.removed added.removed⟩

/-- The lists with which `MHandleNewDemands` starts: those to be sent to the customers are there,
    but not those of what is removed. -/
def emptyLists (d : Descriptors) : DemandDgsFor :=
  d.customers.foldl (fun m u => m.insertNew u []) .empty

/-- `MHandleDiff`, `MHandleNewDemands` and `MHandleFrom`, as to the table and what the customers
    are told. -/
def handle (swap : SwapHeader) (d : Descriptors) :
    TableEvent → RequiredDG → Except Abort (RequiredDG × List Sent)
  | .diff aDiff, dg => do
    let handled ← handleDiff swap aDiff dg
    return (handled.dg, handled.updates.flatMap (informNewReceiver d))
  | .newDemands aDemands, dg => do
    let s ← aDemands.entries.foldlM (newDemandsTurn swap) ⟨dg, emptyLists d, .empty⟩
    return (s.dg, informNewReceiver d (s.new, s.removed))
  | .demandsFrom aFrom aP, dg =>
    match d.info aFrom with
    | none => .ok (dg, informNewReceiver d (.empty, .empty))
    | some info => do
      let s ← setDemandsDGFor swap info.uuid aP dg
      return (s.dg, informNewReceiver d (s.new, s.removed))

/-- A receiver and a message that is sent to it. -/
abbrev Subscription := Uuid × RequiredDG.Msg

/-- The receivers and messages that a list tells of, as new or as removed. -/
def toldPairs (isRemoved : Bool) (ds : List DemandDg) : Set Subscription :=
  {p | ∃ d ∈ ds, d.flags.removed = isRemoved ∧ d.uuidFrom = some p.1 ∧ d.msg = p.2}

def apply (known : Set Subscription) (m : Sent) : Set Subscription :=
  (known ∪ toldPairs false m.demands) \ toldPairs true m.demands

/-- What a program makes of the lists that are sent to it, in the order sent. -/
def told (d : Descriptors) (u : Uuid) (sent : List Sent) (known : Set Subscription) :
    Set Subscription :=
  (sent.filter fun m => (d.info m.aTo).map DescriptorInfo.uuid = some u).foldl apply known

def realPairs (dg : RequiredDG) (u : Uuid) : Set Subscription := {p | ⟨u, p.1, p.2⟩ ∈ real dg}

def reportedPairs (m : DemandDgsFor) (u : Uuid) : Set Subscription :=
  {p | ⟨u, p.1, p.2⟩ ∈ triples m}

theorem told_append (d : Descriptors) (u : Uuid) (sent sent' : List Sent)
    (known : Set Subscription) :
    told d u (sent ++ sent') known = told d u sent' (told d u sent known) := by
  unfold told
  rw [List.filter_append, List.foldl_append]

/-- What a list tells of, when its demands are all new or all removed. -/
theorem toldPairs_of_forall {isRemoved : Bool} {ds : List DemandDg}
    (h : ∀ d ∈ ds, d.flags.removed = isRemoved) :
    toldPairs isRemoved ds = {p | ∃ d ∈ ds, d.uuidFrom = some p.1 ∧ d.msg = p.2} ∧
      toldPairs (!isRemoved) ds = ∅ := by
  constructor
  · ext p
    exact exists_congr fun d => and_congr_right fun hd => and_iff_right (h d hd)
  · refine Set.eq_empty_iff_forall_notMem.2 fun p ⟨d, hd, hflag, _⟩ => ?_
    rw [h d hd] at hflag
    cases isRemoved <;> cases hflag

theorem foldl_apply_new {sent : List Sent} (h : ∀ m ∈ sent, Unmarked m.demands)
    (known : Set Subscription) : sent.foldl apply known =
      known ∪ {p | ∃ m ∈ sent, ∃ d ∈ m.demands, d.uuidFrom = some p.1 ∧ d.msg = p.2} := by
  induction sent generalizing known with
  | nil => simp
  | cons m sent ih =>
    obtain ⟨hall, hnone⟩ := toldPairs_of_forall (h m List.mem_cons_self)
    rw [List.foldl_cons, ih fun m' hm' => h m' (List.mem_cons_of_mem m hm'), apply, hall,
      show toldPairs true m.demands = ∅ from hnone, Set.sdiff_empty, Set.union_assoc]
    congr 1
    ext p
    simp only [Set.mem_union, Set.mem_ofPred_eq, List.mem_cons, exists_eq_or_imp]

theorem foldl_apply_removed {sent : List Sent}
    (h : ∀ m ∈ sent, ∀ d ∈ m.demands, d.flags.removed = true) (known : Set Subscription) :
    sent.foldl apply known =
      known \ {p | ∃ m ∈ sent, ∃ d ∈ m.demands, d.uuidFrom = some p.1 ∧ d.msg = p.2} := by
  induction sent generalizing known with
  | nil => simp
  | cons m sent ih =>
    obtain ⟨hall, hnone⟩ := toldPairs_of_forall (h m List.mem_cons_self)
    rw [List.foldl_cons, ih fun m' hm' => h m' (List.mem_cons_of_mem m hm'), apply, hall,
      show toldPairs false m.demands = ∅ from hnone, Set.union_empty, Set.sdiff_sdiff]
    congr 1
    ext p
    simp only [Set.mem_union, Set.mem_ofPred_eq, List.mem_cons, exists_eq_or_imp]

def knows (d : Descriptors) (u : Uuid) (p : Subscription) (sent : List Sent) (known : Bool) :
    Bool :=
  (sent.filter fun m => (d.info m.aTo).map DescriptorInfo.uuid = some u).foldl
    (fun b m => decide ((b = true ∨ ∃ d ∈ m.demands,
        d.flags.removed = false ∧ d.uuidFrom = some p.1 ∧ d.msg = p.2) ∧
      ¬∃ d ∈ m.demands, d.flags.removed = true ∧ d.uuidFrom = some p.1 ∧ d.msg = p.2)) known

theorem mem_told_iff (d : Descriptors) (u : Uuid) (p : Subscription) (sent : List Sent)
    {known : Set Subscription} {b : Bool} (h : p ∈ known ↔ b = true) :
    p ∈ told d u sent known ↔ knows d u p sent b = true := by
  unfold told knows
  generalize sent.filter (fun m => (d.info m.aTo).map DescriptorInfo.uuid = some u) = ms
  induction ms generalizing known b with
  | nil => exact h
  | cons m ms ih =>
    rw [List.foldl_cons, List.foldl_cons]
    refine ih ?_
    rw [decide_eq_true_eq, ← h]
    rfl

def sends (dg : RequiredDG) (u : Uuid) (p : Subscription) : Bool :=
  (dg.cell u p.2 p.1).any fun c => 0 < c.real

theorem mem_realPairs_iff {dg : RequiredDG} {u : Uuid} {p : Subscription} :
    p ∈ realPairs dg u ↔ sends dg u p = true := by
  unfold realPairs real sends
  rw [Set.mem_ofPred_eq, Set.mem_ofPred_eq, Option.any_eq_true]
  simp only [decide_eq_true_eq]

section Customers
variable {d : Descriptors}

/-- The descriptor of a program leads to it. -/
theorem info_ofProgram (hd : d.Found) {u : Uuid} (h : isValidDescriptor (d.ofProgram u) = true) :
    (d.info (d.ofProgram u)).map DescriptorInfo.uuid = some u := by
  unfold Descriptors.ofProgram at h ⊢
  cases hfind : d.byUuids.find u with
  | none =>
    rw [hfind] at h
    cases h
  | some aTo => exact (hd.1 (u, aTo) ((SortedMap.mem_entries_iff ..).2 hfind)).2

theorem valid_ofProgram (hd : d.Found) {u : Uuid} (hu : u ∈ d.customers) :
    isValidDescriptor (d.ofProgram u) = true := by
  obtain ⟨aTo, hfind⟩ := Option.isSome_iff_exists.1 (hd.2 u hu)
  unfold Descriptors.ofProgram
  rw [hfind]
  exact (hd.1 (u, aTo) ((SortedMap.mem_entries_iff ..).2 hfind)).1

/-- Just the list of a customer is sent to it. -/
theorem mem_informAll (hd : d.Found) {u : Uuid} (hu : u ∈ d.customers) {aWhat : DemandDgsFor}
    {m : Sent} : (m ∈ informAll d aWhat ∧ (d.info m.aTo).map DescriptorInfo.uuid = some u) ↔
      ∃ ds, aWhat.find u = some ds ∧ m = ⟨d.ofProgram u, u, ds⟩ := by
  unfold informAll
  rw [List.mem_filterMap]
  constructor
  · rintro ⟨⟨⟨v, ds⟩, he, hm⟩, hto⟩
    simp only at hm
    split_ifs at hm with hvalid
    cases hm
    obtain rfl : v = u := Option.some.inj ((info_ofProgram hd hvalid).symm.trans hto)
    exact ⟨ds, (SortedMap.mem_entries_iff ..).1 he, rfl⟩
  · rintro ⟨ds, hds, rfl⟩
    have hvalid := valid_ofProgram hd hu
    refine ⟨⟨(u, ds), (SortedMap.mem_entries_iff ..).2 hds, ?_⟩, info_ofProgram hd hvalid⟩
    rw [if_pos hvalid]

/-- What a customer makes of the two lists. -/
theorem told_informNewReceiver (hd : d.Found) {u : Uuid} (hu : u ∈ d.customers)
    {new removed : DemandDgsFor} (hnew : ∀ x, Pushed new u x → x.flags.removed = false)
    (known : Set Subscription) : told d u (informNewReceiver d (new, removed)) known =
      (known ∪ reportedPairs new u) \ reportedPairs removed u := by
  unfold informNewReceiver
  rw [told_append]
  unfold told
  have hmem : ∀ {aWhat : DemandDgsFor} {m : Sent}, m ∈ (informAll d aWhat).filter (fun m =>
      (d.info m.aTo).map DescriptorInfo.uuid = some u) ↔
        ∃ ds, aWhat.find u = some ds ∧ m = ⟨d.ofProgram u, u, ds⟩ := by
    intro aWhat m
    rw [List.mem_filter, decide_eq_true_eq, mem_informAll hd hu]
  rw [foldl_apply_removed, foldl_apply_new]
  · congr 1
    · congr 1
      ext p
      simp only [Set.mem_ofPred_eq, hmem, reportedPairs, triples]
      constructor
      · rintro ⟨m, ⟨ds, hds, rfl⟩, h⟩
        exact ⟨ds, hds, h⟩
      · rintro ⟨ds, hds, h⟩
        exact ⟨_, ⟨ds, hds, rfl⟩, h⟩
    · ext p
      simp only [Set.mem_ofPred_eq, hmem, reportedPairs, triples, SortedMap.find_mapVal]
      simp only [Option.map_eq_some_iff]
      constructor
      · rintro ⟨m, ⟨-, ⟨ds, hds, rfl⟩, rfl⟩, x, hx, h⟩
        obtain ⟨y, hy, rfl⟩ := List.mem_map.1 hx
        exact ⟨ds, hds, y, hy, h⟩
      · rintro ⟨ds, hds, y, hy, h⟩
        exact ⟨_, ⟨_, ⟨ds, hds, rfl⟩, rfl⟩, setRemoved y, List.mem_map_of_mem hy, h⟩
  · intro m hm x hx
    obtain ⟨ds, hds, rfl⟩ := hmem.1 hm
    exact hnew x ⟨ds, hds, hx⟩
  · intro m hm x hx
    obtain ⟨ds, hds, rfl⟩ := hmem.1 hm
    rw [SortedMap.find_mapVal] at hds
    obtain ⟨ds, -, rfl⟩ := Option.map_eq_some_iff.1 hds
    obtain ⟨y, -, rfl⟩ := List.mem_map.1 hx
    rfl

end Customers

end RoutingService

end UdtKernel
