import UdtKernel.Lib.Run
import UdtKernel.Routing.HandleFrom

set_option autoImplicit false

/-! Kernels that send packets on to each other until they are with their programs: the kernels of
machines of one byte order, which know the same protocols. -/

namespace UdtKernel.Multicast
open UdtKernel.Lib UdtKernel.HandleFrom UdtKernel.Distribute
open UdtKernel.ReceiverStage (Kernel StageAbort)

/-- What is at the other end of a descriptor of a kernel. -/
inductive Peer
  | kernel (k : Uuid)
  | program (u : Uuid)
  deriving DecidableEq

structure Site where
  id : Id
  me : Surroundings
  kernel : Kernel

/-- A packet that a kernel has given out by one of its descriptors. -/
structure Hop where
  kernel : Uuid
  desc : Descriptor
  data : UserData

/-- The kernels and the packets under way. What was to be sent, and what came to nobody, is noted
for each receiver. -/
structure Net where
  sites : Uuid → Site
  flight : List Hop
  delivered : List (Uuid × UserData)
  reports : List (Routing × FailSend)
  posted : List UserData
  lost : List UserData

/-- What can happen: a kernel or its tables become others, packets come in from the programs of a
kernel or from outside, and the first packets on a link are handled by the kernel at its end, are
taken by the program there, or get lost, be it that `MSendTo` has not taken them. -/
inductive Op
  | change (k : Uuid) (site : Site)
  | post (k : Uuid) (aData : List UserData)
  | forward (k : Uuid) (d : Descriptor) (n : ℕ)
  | deliver (k : Uuid) (d : Descriptor) (n : ℕ)
  | lose (k : Uuid) (d : Descriptor) (n : ℕ)

def start (sites : Uuid → Site) : Net := ⟨sites, [], [], [], [], []⟩

/-- The first packets on a link, and what stays under way. -/
def takeLink (k : Uuid) (d : Descriptor) : ℕ → List Hop → List UserData × List Hop
  | 0, hops => ([], hops)
  | _, [] => ([], [])
  | n + 1, hop :: hops =>
    if hop.kernel = k ∧ hop.desc = d then
      let (taken, left) := takeLink k d n hops
      (hop.data :: taken, left)
    else
      let (taken, left) := takeLink k d (n + 1) hops
      (taken, hop :: left)

section
variable (leads : Uuid → Descriptor → Option Peer) (parsers : ReceiverStage.ParserFactory)
  (swaps : SwapEndian.ParserFactory)

def inOrder (m : UserData) : UserData :=
  if m.dataId.endian ≠ shareEndian then (swappedOf swaps m).getD m else m

def single (m : UserData) (u : Uuid) : UserData := inOrder swaps (withRouting m [u])

def singles (m : UserData) : List UserData := m.dataId.routing.uuids.map (single swaps m)

/-- What a kernel does not send of a packet: there is no descriptor, or the bytes cannot be
swapped. -/
def notSent (me : Surroundings) (m : UserData) : List UserData :=
  m.dataId.routing.uuids.filterMap fun u =>
    if (forwardOf me swaps m u).isSome then none else some (single swaps m u)

def handle (k : Uuid) (aData : List UserData) (s : Net) : Except StageAbort Net := do
  let site := s.sites k
  let (_, _, route, _) ← findReceivers parsers site.kernel aData
  let (kernel, h, notes) ← handleFrom site.me parsers swaps site.id site.kernel aData
  .ok { s with
    sites := Function.update s.sites k { site with kernel := kernel }
    flight := s.flight ++ h.copies.map fun c => ⟨k, c.1, c.2⟩
    reports := s.reports ++ notes
    lost := s.lost ++ route.flatMap (notSent swaps site.me) }

def step : Op → Net → Except StageAbort Net
  | .change k site, s => .ok { s with sites := Function.update s.sites k site }
  | .post k aData, s => do
    let (_, _, route, _) ← findReceivers parsers (s.sites k).kernel aData
    handle parsers swaps k aData { s with posted := s.posted ++ route.flatMap (singles swaps) }
  | .forward k d n, s =>
    match leads k d with
    | some (.kernel k') =>
      let (taken, left) := takeLink k d n s.flight
      handle parsers swaps k' taken { s with flight := left }
    | _ => .ok s
  | .deliver k d n, s =>
    match leads k d with
    | some (.program u) =>
      let (taken, left) := takeLink k d n s.flight
      .ok { s with flight := left, delivered := s.delivered ++ taken.map (Prod.mk u) }
    | _ => .ok s
  | .lose k d n, s =>
    let (taken, left) := takeLink k d n s.flight
    .ok { s with flight := left, lost := s.lost ++ taken.flatMap (singles swaps) }

end

/-- No packet is on its way to nobody. -/
def AllRouted (flight : List Hop) : Prop := ∀ hop ∈ flight, hop.data.dataId.routing.uuids ≠ []

def underWay (swaps : SwapEndian.ParserFactory) (flight : List Hop) : List UserData :=
  flight.flatMap fun hop => singles swaps hop.data

def arrived (swaps : SwapEndian.ParserFactory) (delivered : List (Uuid × UserData)) :
    List UserData := delivered.flatMap fun p => singles swaps p.2

theorem takeLink_perm (k : Uuid) (d : Descriptor) (n : ℕ) (hops : List Hop) :
    hops.Perm ((takeLink k d n hops).1.map (Hop.mk k d) ++ (takeLink k d n hops).2) := by
  fun_induction takeLink k d n hops with
  | case1 hops => exact List.Perm.refl _
  | case2 n => exact List.Perm.refl _
  | case3 n hop hops h taken left htake ih =>
    rw [htake] at ih
    obtain ⟨rfl, rfl⟩ := h
    exact ih.cons hop
  | case4 n hop hops h taken left htake ih =>
    rw [htake] at ih
    exact (ih.cons hop).trans List.perm_middle.symm

section Forwarding
variable {swaps : SwapEndian.ParserFactory} {me : Surroundings}

theorem inOrder_withRouting (m : UserData) (us : List Uuid) :
    inOrder swaps (withRouting m us) = withRouting (inOrder swaps m) us := by
  unfold inOrder
  rw [swappedOf_withRouting]
  change (if m.dataId.endian ≠ shareEndian then _ else _) = _
  split_ifs with hforeign
  · cases swappedOf swaps m with
    | none => rfl
    | some x => rfl
  · rfl

theorem swappedOf_endian {m x : UserData} (h : swappedOf swaps m = some x) :
    x.dataId.endian = shareEndian := by
  unfold swappedOf at h
  split_ifs at h
  rw [← Option.some.inj h]

/-- What is sent to a receiver, if anything is. -/
theorem forwardOf_eq_some {m x : UserData} {u : Uuid} {d : Descriptor} :
    forwardOf me swaps m u = some (d, x) ↔
      ∃ y, (if m.dataId.endian ≠ shareEndian ∧ me.isLocal u then swappedOf swaps m else some m) =
        some y ∧ outputDescriptor me.next u = some d ∧ x = withRouting y [u] := by
  unfold forwardOf
  rw [Option.bind_eq_some_iff]
  refine exists_congr fun y => and_congr_right fun _ => ?_
  rw [Option.map_eq_some_iff]
  constructor
  · rintro ⟨d', hd, heq⟩
    obtain ⟨rfl, rfl⟩ := Prod.mk.inj heq
    exact ⟨hd, rfl⟩
  · rintro ⟨hd, rfl⟩
    exact ⟨d, hd, rfl⟩

theorem singles_of_forwardOf {m : UserData} {u : Uuid} {p : Descriptor × UserData}
    (h : forwardOf me swaps m u = some p) : singles swaps p.2 = [single swaps m u] := by
  obtain ⟨y, hy, -, hp⟩ := forwardOf_eq_some.1 h
  rw [hp]
  change [single swaps (withRouting y [u]) u] = _
  refine congrArg (fun x => [x]) ?_
  change inOrder swaps (withRouting y [u]) = inOrder swaps (withRouting m [u])
  rw [inOrder_withRouting, inOrder_withRouting]
  split_ifs at hy with hswap
  · have hsame : inOrder swaps y = y := by
      unfold inOrder
      rw [if_neg (not_not.2 (swappedOf_endian hy))]
    rw [hsame]
    unfold inOrder
    rw [if_pos hswap.1, hy]
    rfl
  · rw [Option.some.inj hy]

/-- Of every packet a kernel sends on a part of the receivers and no other. -/
theorem singles_forwards (m : UserData) :
    (singles swaps m).Perm
      ((forwards me swaps m).flatMap (fun p => singles swaps p.2) ++ notSent swaps me m) := by
  have hparts : singles swaps m = m.dataId.routing.uuids.flatMap fun u =>
      (forwardOf me swaps m u).toList.flatMap (fun p => singles swaps p.2) ++
        (if (forwardOf me swaps m u).isSome then none else some (single swaps m u)).toList := by
    unfold singles
    rw [List.map_eq_flatMap]
    refine List.flatMap_congr fun u _ => ?_
    cases h : forwardOf me swaps m u with
    | none => rfl
    | some p =>
      rw [Option.toList_some, List.flatMap_singleton]
      exact (singles_of_forwardOf h).symm.trans (List.append_nil _).symm
  rw [hparts]
  refine (List.flatMap_append_perm _ _ _).symm.trans ?_
  unfold forwards notSent
  rw [flatMap_filterMap_toList, List.filterMap_eq_flatMap_toList _ m.dataId.routing.uuids]

/-- What is read off a copy receiver by receiver is so off the copies for each. -/
theorem flatMap_perReceiver {α : Type} (f : Descriptor → UserData → Uuid → α)
    (hf : ∀ d m u, f d (withRouting m [u]) u = f d m u) (c : Descriptor × UserData) :
    (perReceiver c).flatMap (fun p => p.2.dataId.routing.uuids.map (f p.1 p.2)) =
      c.2.dataId.routing.uuids.map (f c.1 c.2) := by
  unfold perReceiver
  rw [List.flatMap_map, List.map_eq_flatMap]
  exact List.flatMap_congr fun u _ => congrArg (fun x => [x]) (hf c.1 c.2 u)

end Forwarding

section Handling
variable {leads : Uuid → Descriptor → Option Peer} {parsers : ReceiverStage.ParserFactory}
  {swaps : SwapEndian.ParserFactory}

/-- What a kernel that handles packets with receivers does to the net. -/
structure Handled (swaps : SwapEndian.ParserFactory) (k : Uuid) (route : List UserData)
    (s s' : Net) : Prop where
  delivered : s'.delivered = s.delivered
  posted : s'.posted = s.posted
  lost : s'.lost = s.lost ++ route.flatMap (notSent swaps (s.sites k).me)
  tables : ∀ j, (s'.sites j).me = (s.sites j).me
  flight : ∃ copies : List (Descriptor × UserData),
    s'.flight = s.flight ++ (copies.map fun c => ⟨k, c.1, c.2⟩) ∧
    (copies.flatMap perReceiver).Perm (route.flatMap (forwards (s.sites k).me swaps)) ∧
    ∀ c ∈ copies, c.2.dataId.routing.uuids ≠ []

theorem handle_ok (swaps : SwapEndian.ParserFactory) {k : Uuid}
    {aData notRoute route : List UserData} {s : Net} {kernel : Kernel}
    {errors : List FailSend} (hfind : findReceivers parsers (s.sites k).kernel aData =
      .ok (kernel, notRoute, route, errors)) :
    ∃ s', handle parsers swaps k aData s = .ok s' ∧ Handled swaps k route s s' := by
  obtain ⟨h, hhandle, hsends, hrouted⟩ :=
    handleFrom_sends hfind (s.sites k).me swaps (s.sites k).id
  unfold handle
  dsimp only
  rw [hfind, hhandle]
  refine ⟨_, rfl, rfl, rfl, rfl, fun j => ?_, h.copies, rfl, hsends, hrouted⟩
  dsimp only
  rw [Function.update_apply]
  split_ifs with hj
  · rw [hj]
  · rfl

/-- Every receiver of what a kernel handles is sent to or noted. -/
theorem Handled.singles {k : Uuid} {route : List UserData} {s s' : Net}
    (h : Handled swaps k route s s') : (underWay swaps s'.flight ++ s'.lost).Perm
      (underWay swaps s.flight ++ (s.lost ++ route.flatMap (singles swaps))) := by
  obtain ⟨copies, hflight, hsends, -⟩ := h.flight
  have hcopies : copies.flatMap (fun c => Multicast.singles swaps c.2) =
      (copies.flatMap perReceiver).flatMap fun p => Multicast.singles swaps p.2 := by
    rw [List.flatMap_assoc]
    exact List.flatMap_congr fun c _ =>
      (flatMap_perReceiver (fun _ => single swaps) (fun _ _ _ => rfl) c).symm
  have hnew : (copies.flatMap (fun c => Multicast.singles swaps c.2) ++
      route.flatMap (notSent swaps (s.sites k).me)).Perm
        (route.flatMap (Multicast.singles swaps)) := by
    rw [hcopies]
    refine ((hsends.flatMap_right _).append_right _).trans ?_
    rw [List.flatMap_assoc]
    refine (List.flatMap_append_perm _ _ _).trans ?_
    exact List.Perm.flatMap_left _ fun m _ => (singles_forwards m).symm
  unfold underWay
  rw [hflight, h.lost, List.flatMap_append, List.flatMap_map]
  rw [List.perm_iff_count] at hnew ⊢
  intro m
  have hm := hnew m
  simp only [List.count_append] at hm ⊢
  omega

/-- Every receiver of what was to be sent is under way, reached or noted as lost. -/
structure Conserves (swaps : SwapEndian.ParserFactory) (s : Net) : Prop where
  routed : AllRouted s.flight
  accounts : s.posted.Perm (underWay swaps s.flight ++ (arrived swaps s.delivered ++ s.lost))

theorem Conserves.start (sites : Uuid → Site) : Conserves swaps (start sites) :=
  ⟨fun _ h => absurd h List.not_mem_nil, List.Perm.refl _⟩

theorem Handled.routed {k : Uuid} {route : List UserData} {s s' : Net}
    (h : Handled swaps k route s s') (hs : AllRouted s.flight) : AllRouted s'.flight := by
  obtain ⟨copies, hflight, -, hrouted⟩ := h.flight
  intro hop hhop
  rw [hflight, List.mem_append] at hhop
  rcases hhop with hhop | hhop
  · exact hs hop hhop
  · obtain ⟨c, hc, rfl⟩ := List.mem_map.1 hhop
    exact hrouted c hc

/-- Packets that are given to a kernel have come in or were under way. -/
theorem Handled.conserves {k : Uuid} {route : List UserData} {s s' : Net}
    (h : Handled swaps k route s s') (hrouted : AllRouted s.flight)
    (haccounts : s.posted.Perm (underWay swaps s.flight ++
      (arrived swaps s.delivered ++ (s.lost ++ route.flatMap (Multicast.singles swaps))))) :
    Conserves swaps s' := by
  have hsingles := h.singles
  refine ⟨h.routed hrouted, ?_⟩
  rw [h.posted]
  rw [h.delivered]
  rw [List.perm_iff_count] at hsingles haccounts ⊢
  intro m
  have hm := hsingles m
  have hm' := haccounts m
  simp only [List.count_append] at hm hm' ⊢
  omega

theorem underWay_takeLink (k : Uuid) (d : Descriptor) (n : ℕ) (hops : List Hop) :
    (underWay swaps hops).Perm ((takeLink k d n hops).1.flatMap (Multicast.singles swaps) ++
      underWay swaps (takeLink k d n hops).2) := by
  refine ((takeLink_perm k d n hops).flatMap_right _).trans (List.Perm.of_eq ?_)
  rw [List.flatMap_append, List.flatMap_map]
  rfl

theorem arrived_append (delivered : List (Uuid × UserData)) (u : Uuid) (taken : List UserData) :
    arrived swaps (delivered ++ taken.map (Prod.mk u)) =
      arrived swaps delivered ++ taken.flatMap (Multicast.singles swaps) := by
  unfold arrived
  rw [List.flatMap_append, List.flatMap_map]

theorem routed_of_takeLink {k : Uuid} {d : Descriptor} {n : ℕ} {hops : List Hop}
    (h : AllRouted hops) :
    (∀ m ∈ (takeLink k d n hops).1, m.dataId.routing.uuids ≠ []) ∧
      AllRouted (takeLink k d n hops).2 := by
  have hperm := takeLink_perm k d n hops
  constructor
  · exact fun m hm => h ⟨k, d, m⟩ (hperm.mem_iff.2
      (List.mem_append_left _ (List.mem_map_of_mem hm)))
  · exact fun hop hhop => h hop (hperm.mem_iff.2 (List.mem_append_right _ hhop))

inductive Went (leads : Uuid → Descriptor → Option Peer) (swaps : SwapEndian.ParserFactory)
    (s : Net) : Op → Net → Prop
  | change {k : Uuid} {site : Site} :
    Went leads swaps s (.change k site) { s with sites := Function.update s.sites k site }
  | post {k : Uuid} {aData route : List UserData} {s' : Net}
    (h : Handled swaps k route
      { s with posted := s.posted ++ route.flatMap (Multicast.singles swaps) } s') :
    Went leads swaps s (.post k aData) s'
  | forward {k k' : Uuid} {d : Descriptor} {n : ℕ} {s' : Net}
    (hleads : leads k d = some (.kernel k'))
    (h : Handled swaps k' (takeLink k d n s.flight).1
      { s with flight := (takeLink k d n s.flight).2 } s') :
    Went leads swaps s (.forward k d n) s'
  | noKernel {k : Uuid} {d : Descriptor} {n : ℕ} (h : ∀ k', leads k d ≠ some (.kernel k')) :
    Went leads swaps s (.forward k d n) s
  | deliver {k u : Uuid} {d : Descriptor} {n : ℕ} (hleads : leads k d = some (.program u)) :
    Went leads swaps s (.deliver k d n) { s with
      flight := (takeLink k d n s.flight).2
      delivered := s.delivered ++ (takeLink k d n s.flight).1.map (Prod.mk u) }
  | noProgram {k : Uuid} {d : Descriptor} {n : ℕ} (h : ∀ u, leads k d ≠ some (.program u)) :
    Went leads swaps s (.deliver k d n) s
  | lose {k : Uuid} {d : Descriptor} {n : ℕ} :
    Went leads swaps s (.lose k d n) { s with
      flight := (takeLink k d n s.flight).2
      lost := s.lost ++ (takeLink k d n s.flight).1.flatMap (Multicast.singles swaps) }

theorem step_went (hparsers : ReceiverStage.AllContiguous parsers) {s : Net}
    (hrouted : AllRouted s.flight) (op : Op) :
    ∃ s', step leads parsers swaps op s = .ok s' ∧ Went leads swaps s op s' := by
  cases op with
  | change k site => exact ⟨_, rfl, .change⟩
  | post k aData =>
    obtain ⟨kernel, notRoute, found, errors, hfind⟩ :=
      findReceivers_ok hparsers (s.sites k).kernel aData
    generalize aData.filter isRouted ++ found = route at hfind
    obtain ⟨s', hhandle, hhandled⟩ := handle_ok swaps
      (s := { s with posted := s.posted ++ route.flatMap (Multicast.singles swaps) }) hfind
    refine ⟨s', ?_, .post hhandled⟩
    rw [step, hfind]
    exact hhandle
  | forward k d n =>
    rw [step]
    cases hleads : leads k d with
    | none => exact ⟨s, rfl, .noKernel fun k' hk' => nomatch hleads.symm.trans hk'⟩
    | some peer =>
      cases peer with
      | program u =>
        exact ⟨s, rfl, .noKernel fun k' hk' => nomatch hleads.symm.trans hk'⟩
      | kernel k' =>
        have hfind := findReceivers_routed parsers (s.sites k').kernel
          (routed_of_takeLink (k := k) (d := d) (n := n) hrouted).1
        obtain ⟨s', hhandle, hhandled⟩ := handle_ok swaps
          (s := { s with flight := (takeLink k d n s.flight).2 }) hfind
        exact ⟨s', hhandle, .forward hleads hhandled⟩
  | deliver k d n =>
    rw [step]
    cases hleads : leads k d with
    | none => exact ⟨s, rfl, .noProgram fun u hu => nomatch hleads.symm.trans hu⟩
    | some peer =>
      cases peer with
      | program u => exact ⟨_, rfl, .deliver hleads⟩
      | kernel k' =>
        exact ⟨s, rfl, .noProgram fun u hu => nomatch hleads.symm.trans hu⟩
  | lose k d n => exact ⟨_, rfl, .lose⟩

theorem Conserves.went {s s' : Net} {op : Op} (h : Conserves swaps s)
    (hwent : Went leads swaps s op s') : Conserves swaps s' := by
  have haccounts := h.accounts
  cases hwent with
  | change => exact ⟨h.routed, h.accounts⟩
  | noKernel => exact h
  | noProgram => exact h
  | @post k aData route s' hhandled =>
    refine hhandled.conserves h.routed ?_
    have hall := haccounts.append_right (route.flatMap (Multicast.singles swaps))
    rw [List.append_assoc, List.append_assoc] at hall
    exact hall
  | @forward k k' d n s' hleads hhandled =>
    refine hhandled.conserves (routed_of_takeLink h.routed).2 ?_
    refine haccounts.trans (((underWay_takeLink k d n s.flight).append_right _).trans ?_)
    rw [List.perm_iff_count]
    intro m
    simp only [List.count_append]
    omega
  | @deliver k u d n hleads =>
    refine ⟨(routed_of_takeLink h.routed).2, ?_⟩
    refine haccounts.trans (((underWay_takeLink k d n s.flight).append_right _).trans ?_)
    rw [arrived_append, List.perm_iff_count]
    intro m
    simp only [List.count_append]
    omega
  | @lose k d n =>
    refine ⟨(routed_of_takeLink h.routed).2, ?_⟩
    refine haccounts.trans (((underWay_takeLink k d n s.flight).append_right _).trans ?_)
    rw [List.perm_iff_count]
    intro m
    simp only [List.count_append]
    omega

end Handling

section Addressing
variable {leads : Uuid → Descriptor → Option Peer} {parsers : ReceiverStage.ParserFactory}
  {swaps : SwapEndian.ParserFactory}

/-- By the descriptors of the programs a kernel sends each program what is for it, and nothing
else. -/
def Faithful (leads : Uuid → Descriptor → Option Peer) (k : Uuid) (me : Surroundings) : Prop :=
  ∀ u d v, outputDescriptor me.next u = some d → leads k d = some (.program v) →
    v = u ∧ me.isLocal u = true

structure IsFor (u : Uuid) (m : UserData) : Prop where
  native : m.dataId.endian = shareEndian
  routed : m.dataId.routing.uuids ≠ []
  only : ∀ r ∈ m.dataId.routing.uuids, r = u

theorem isFor_iff {u : Uuid} {m : UserData} : IsFor u m ↔ m.dataId.endian = shareEndian ∧
    m.dataId.routing.uuids ≠ [] ∧ ∀ r ∈ m.dataId.routing.uuids, r = u :=
  ⟨fun h => ⟨h.native, h.routed, h.only⟩, fun ⟨h₁, h₂, h₃⟩ => ⟨h₁, h₂, h₃⟩⟩

instance (u : Uuid) (m : UserData) : Decidable (IsFor u m) := decidable_of_iff _ isFor_iff.symm

structure Addressed (leads : Uuid → Descriptor → Option Peer) (s : Net) : Prop where
  faithful : ∀ k, Faithful leads k (s.sites k).me
  flight : ∀ hop ∈ s.flight, ∀ u, leads hop.kernel hop.desc = some (.program u) → IsFor u hop.data
  delivered : ∀ p ∈ s.delivered, IsFor p.1 p.2

/-- What a faithful kernel sends to a program. -/
theorem Faithful.isFor {k v : Uuid} {me : Surroundings} (h : Faithful leads k me)
    {m : UserData} {p : Descriptor × UserData} (hp : p ∈ forwards me swaps m)
    (hleads : leads k p.1 = some (.program v)) : IsFor v p.2 := by
  obtain ⟨u, -, hu⟩ := List.mem_filterMap.1 hp
  obtain ⟨y, hy, hdesc, hdata⟩ := forwardOf_eq_some.1 hu
  obtain ⟨rfl, hlocal⟩ := h u p.1 v hdesc hleads
  rw [hdata]
  refine ⟨?_, List.cons_ne_nil _ _, fun r hr => List.mem_singleton.1 hr⟩
  change y.dataId.endian = shareEndian
  split_ifs at hy with hswap
  · exact swappedOf_endian hy
  · rw [← Option.some.inj hy]
    exact not_not.1 fun hforeign => hswap ⟨hforeign, hlocal⟩

theorem isFor_of_perReceiver {v : Uuid} {c : Descriptor × UserData}
    (hrouted : c.2.dataId.routing.uuids ≠ []) (h : ∀ p ∈ perReceiver c, IsFor v p.2) :
    IsFor v c.2 := by
  have hone (u : Uuid) (hu : u ∈ c.2.dataId.routing.uuids) : IsFor v (withRouting c.2 [u]) :=
    h (c.1, withRouting c.2 [u]) (List.mem_map_of_mem hu)
  obtain ⟨u, hu⟩ := List.exists_mem_of_ne_nil _ hrouted
  exact ⟨(hone u hu).native, hrouted, fun r hr => (hone r hr).only r List.mem_cons_self⟩

theorem Handled.addressed {k : Uuid} {route : List UserData} {s s' : Net}
    (hhandled : Handled swaps k route s s') (h : Addressed leads s) : Addressed leads s' := by
  refine ⟨fun j => ?_, fun hop hhop v hleads => ?_, ?_⟩
  · rw [hhandled.tables]
    exact h.faithful j
  · obtain ⟨copies, hflight, hsends, hrouted⟩ := hhandled.flight
    rw [hflight, List.mem_append] at hhop
    rcases hhop with hhop | hhop
    · exact h.flight hop hhop v hleads
    · obtain ⟨c, hc, rfl⟩ := List.mem_map.1 hhop
      refine isFor_of_perReceiver (hrouted c hc) fun p hp => ?_
      have hmem := hsends.mem_iff.1 (List.mem_flatMap_of_mem hc hp)
      obtain ⟨m, -, hm⟩ := List.mem_flatMap.1 hmem
      obtain ⟨u, -, rfl⟩ := List.mem_map.1 hp
      exact (h.faithful k).isFor hm hleads
  · rw [hhandled.delivered]
    exact h.delivered

theorem Addressed.went {s s' : Net} {op : Op} (h : Addressed leads s)
    (hop : ∀ k site, op = .change k site → Faithful leads k site.me)
    (hwent : Went leads swaps s op s') : Addressed leads s' := by
  have hleft (k : Uuid) (d : Descriptor) (n : ℕ) : ∀ hop ∈ (takeLink k d n s.flight).2,
      ∀ u, leads hop.kernel hop.desc = some (.program u) → IsFor u hop.data :=
    fun hop hhop => h.flight hop
      ((takeLink_perm k d n s.flight).mem_iff.2 (List.mem_append_right _ hhop))
  cases hwent with
  | @change k site =>
    refine ⟨fun j => ?_, h.flight, h.delivered⟩
    dsimp only
    rw [Function.update_apply]
    split_ifs with hj
    · rw [hj]
      exact hop k site rfl
    · exact h.faithful j
  | noKernel => exact h
  | noProgram => exact h
  | post hhandled => exact hhandled.addressed ⟨h.faithful, h.flight, h.delivered⟩
  | @forward k k' d n s' hleads hhandled =>
    exact hhandled.addressed ⟨h.faithful, hleft k d n, h.delivered⟩
  | @deliver k u d n hleads =>
    refine ⟨h.faithful, hleft k d n, fun p hp => ?_⟩
    rcases List.mem_append.1 hp with hp | hp
    · exact h.delivered p hp
    · obtain ⟨m, hm, rfl⟩ := List.mem_map.1 hp
      refine h.flight ⟨k, d, m⟩ ?_ u hleads
      exact (takeLink_perm k d n s.flight).mem_iff.2
        (List.mem_append_left _ (List.mem_map_of_mem hm))
  | @lose k d n => exact ⟨h.faithful, hleft k d n, h.delivered⟩

def isTo (u : Uuid) (m : UserData) : Bool := m.dataId.routing.uuids = [u]

theorem single_routing (m : UserData) (u : Uuid) :
    (single swaps m u).dataId.routing.uuids = [u] := by
  unfold single
  rw [inOrder_withRouting]
  rfl

/-- What is for a program has come to it. -/
theorem arrived_filter {delivered : List (Uuid × UserData)} (h : ∀ p ∈ delivered, IsFor p.1 p.2)
    (u : Uuid) : (arrived swaps delivered).filter (isTo u) =
      arrived swaps (delivered.filter fun p => p.1 = u) := by
  unfold arrived
  induction delivered with
  | nil => rfl
  | cons p delivered ih =>
    have hto (x : UserData) (hx : x ∈ singles swaps p.2) : x.dataId.routing.uuids = [p.1] := by
      obtain ⟨r, hr, rfl⟩ := List.mem_map.1 hx
      rw [single_routing, (h p List.mem_cons_self).only r hr]
    rw [List.flatMap_cons, List.filter_append, ih fun q hq => h q (List.mem_cons_of_mem _ hq)]
    by_cases hu : p.1 = u
    · have hall : (singles swaps p.2).filter (isTo u) = singles swaps p.2 :=
        List.filter_eq_self.2 fun x hx => decide_eq_true (hu ▸ hto x hx)
      rw [hall, List.filter_cons, if_pos (decide_eq_true hu), List.flatMap_cons]
    · have hnone : (singles swaps p.2).filter (isTo u) = [] := by
        refine List.filter_eq_nil_iff.2 fun x hx htrue => hu ?_
        exact List.singleton_inj.1 ((hto x hx).symm.trans (of_decide_eq_true htrue))
      rw [hnone, List.filter_cons, if_neg (ne_true_of_eq_false (decide_eq_false hu)),
        List.nil_append]

end Addressing

section Draining
variable {leads : Uuid → Descriptor → Option Peer} {parsers : ReceiverStage.ParserFactory}
  {swaps : SwapEndian.ParserFactory} {reach : Uuid → Uuid → Prop} {rank : Uuid → Uuid → ℕ}

/-- From each kernel a receiver is reached from, a descriptor leads to it, as a program of that
kernel, or to a kernel that is nearer to it. -/
def Leading (leads : Uuid → Descriptor → Option Peer) (reach : Uuid → Uuid → Prop)
    (rank : Uuid → Uuid → ℕ) (tables : Uuid → Surroundings) : Prop :=
  ∀ u k, reach u k → ∃ d, outputDescriptor (tables k).next u = some d ∧
    ((leads k d = some (.program u) ∧ (tables k).isLocal u = true) ∨
      ∃ k', leads k d = some (.kernel k') ∧ reach u k' ∧ rank u k' < rank u k)

def Swappable (swaps : SwapEndian.ParserFactory) (m : UserData) : Prop :=
  m.dataId.endian = shareEndian ∨ SwapEndian.canSwap swaps m.dataId m.data = true

/-- A packet is on its way to the program that it is for, or to a kernel that its receivers are
reached from. -/
def OnWay (leads : Uuid → Descriptor → Option Peer) (swaps : SwapEndian.ParserFactory)
    (reach : Uuid → Uuid → Prop) (k : Uuid) (d : Descriptor) (m : UserData) : Prop :=
  (∃ u, leads k d = some (.program u) ∧ IsFor u m) ∨
    ∃ k', leads k d = some (.kernel k') ∧ Swappable swaps m ∧
      ∀ u ∈ m.dataId.routing.uuids, reach u k'

/-- The kernel or the program at the end of a link takes packets from it. -/
def Moves (leads : Uuid → Descriptor → Option Peer) (s : Net) : Op → Prop
  | .forward k d n => 0 < n ∧ (∃ k', leads k d = some (.kernel k')) ∧
    ∃ hop ∈ s.flight, hop.kernel = k ∧ hop.desc = d
  | .deliver k d n => 0 < n ∧ (∃ u, leads k d = some (.program u)) ∧
    ∃ hop ∈ s.flight, hop.kernel = k ∧ hop.desc = d
  | _ => False

instance (o : Option Peer) : Decidable (∃ u, o = some (.program u)) :=
  match o with
  | some (.program u) => isTrue ⟨u, rfl⟩
  | some (.kernel _) => isFalse fun ⟨_, h⟩ => nomatch h
  | none => isFalse fun ⟨_, h⟩ => nomatch h

instance (o : Option Peer) : Decidable (∃ k', o = some (.kernel k')) :=
  match o with
  | some (.kernel k') => isTrue ⟨k', rfl⟩
  | some (.program _) => isFalse fun ⟨_, h⟩ => nomatch h
  | none => isFalse fun ⟨_, h⟩ => nomatch h

instance (o : Option Peer) (P : Uuid → Prop) [DecidablePred P] :
    Decidable (∃ u, o = some (.program u) ∧ P u) :=
  match o with
  | some (.program u) => decidable_of_iff (P u)
    ⟨fun h => ⟨u, rfl, h⟩, fun ⟨_, heq, h⟩ => Peer.program.inj (Option.some.inj heq) ▸ h⟩
  | some (.kernel _) => isFalse fun ⟨_, h, _⟩ => nomatch h
  | none => isFalse fun ⟨_, h, _⟩ => nomatch h

instance (o : Option Peer) (P : Uuid → Prop) [DecidablePred P] :
    Decidable (∃ k', o = some (.kernel k') ∧ P k') :=
  match o with
  | some (.kernel k') => decidable_of_iff (P k')
    ⟨fun h => ⟨k', rfl, h⟩, fun ⟨_, heq, h⟩ => Peer.kernel.inj (Option.some.inj heq) ▸ h⟩
  | some (.program _) => isFalse fun ⟨_, h, _⟩ => nomatch h
  | none => isFalse fun ⟨_, h, _⟩ => nomatch h

instance (k : Uuid) (d : Descriptor) (m : UserData) [∀ u k, Decidable (reach u k)] :
    Decidable (OnWay leads swaps reach k d m) :=
  have : DecidablePred fun k' => Swappable swaps m ∧ ∀ u ∈ m.dataId.routing.uuids, reach u k' :=
    fun _ => inferInstanceAs (Decidable ((_ ∨ _) ∧ _))
  inferInstanceAs (Decidable (_ ∨ _))

instance (s : Net) : (op : Op) → Decidable (Moves leads s op)
  | .forward _ _ _ => inferInstanceAs (Decidable (_ ∧ _ ∧ _))
  | .deliver _ _ _ => inferInstanceAs (Decidable (_ ∧ _ ∧ _))
  | .change _ _ | .post _ _ | .lose _ _ _ => isFalse not_false

/-- How many links a receiver is still away at most. -/
def way (leads : Uuid → Descriptor → Option Peer) (rank : Uuid → Uuid → ℕ) (k : Uuid)
    (d : Descriptor) (u : Uuid) : ℕ :=
  match leads k d with
  | some (.kernel k') => rank u k' + 2
  | _ => 1

def ways (leads : Uuid → Descriptor → Option Peer) (rank : Uuid → Uuid → ℕ) (k : Uuid)
    (c : Descriptor × UserData) : List ℕ := c.2.dataId.routing.uuids.map (way leads rank k c.1)

def potential (leads : Uuid → Descriptor → Option Peer) (rank : Uuid → Uuid → ℕ)
    (flight : List Hop) : ℕ :=
  (flight.flatMap fun hop => ways leads rank hop.kernel (hop.desc, hop.data)).sum

theorem one_le_way (leads : Uuid → Descriptor → Option Peer) (rank : Uuid → Uuid → ℕ) (k : Uuid)
    (d : Descriptor) (u : Uuid) : 1 ≤ way leads rank k d u := by
  unfold way
  split
  · exact Nat.le_add_left _ _
  · exact le_refl _

/-- A kernel that a receiver is reached from sends it what it gets, one link nearer. -/
theorem Leading.forwardOf {tables : Uuid → Surroundings} (h : Leading leads reach rank tables)
    {k : Uuid} {m : UserData} (hswap : Swappable swaps m) {u : Uuid} (hu : reach u k) :
    ∃ d y, HandleFrom.forwardOf (tables k) swaps m u = some (d, withRouting y [u]) ∧
      Swappable swaps y ∧ way leads rank k d u ≤ rank u k + 1 ∧
      ((leads k d = some (.program u) ∧ y.dataId.endian = shareEndian) ∨
        ∃ k', leads k d = some (.kernel k') ∧ reach u k') := by
  obtain ⟨d, hdesc, hd⟩ := h u k hu
  have hway : way leads rank k d u ≤ rank u k + 1 := by
    unfold way
    rcases hd with ⟨hd, -⟩ | ⟨k', hd, -, hless⟩
    · rw [hd]
      exact Nat.le_add_left _ _
    · rw [hd]
      dsimp only
      omega
  have hnext (y : UserData) (hnative : (tables k).isLocal u = true →
      y.dataId.endian = shareEndian) : (leads k d = some (.program u) ∧
        y.dataId.endian = shareEndian) ∨ ∃ k', leads k d = some (.kernel k') ∧ reach u k' :=
    hd.imp (fun ⟨hprogram, hlocal⟩ => ⟨hprogram, hnative hlocal⟩)
      fun ⟨k', hk', hreach, _⟩ => ⟨k', hk', hreach⟩
  by_cases hforeign : m.dataId.endian ≠ shareEndian ∧ (tables k).isLocal u = true
  · have hcan := hswap.resolve_left hforeign.1
    obtain ⟨y, hy⟩ : ∃ y, swappedOf swaps m = some y := by
      unfold swappedOf
      rw [if_pos hcan]
      exact ⟨_, rfl⟩
    refine ⟨d, y, forwardOf_eq_some.2 ⟨y, ?_, hdesc, rfl⟩, .inl (swappedOf_endian hy), hway,
      hnext y fun _ => swappedOf_endian hy⟩
    rw [if_pos hforeign]
    exact hy
  · refine ⟨d, m, forwardOf_eq_some.2 ⟨m, ?_, hdesc, rfl⟩, hswap, hway, hnext m fun hlocal =>
      not_not.1 fun hother => hforeign ⟨hother, hlocal⟩⟩
    rw [if_neg hforeign]

theorem notSent_eq_nil {tables : Uuid → Surroundings} (h : Leading leads reach rank tables)
    {k : Uuid} {m : UserData} (hswap : Swappable swaps m)
    (hreach : ∀ u ∈ m.dataId.routing.uuids, reach u k) : notSent swaps (tables k) m = [] := by
  unfold notSent
  refine List.filterMap_eq_nil_iff.2 fun u hu => ?_
  obtain ⟨d, y, hforward, -⟩ := h.forwardOf hswap (hreach u hu)
  rw [hforward]
  rfl

/-- Each receiver is one link nearer behind a kernel. -/
theorem ways_forwards {tables : Uuid → Surroundings} (h : Leading leads reach rank tables)
    {k k' : Uuid} {d : Descriptor} (hleads : leads k d = some (.kernel k')) {m : UserData}
    (hswap : Swappable swaps m) (hreach : ∀ u ∈ m.dataId.routing.uuids, reach u k') :
    ((forwards (tables k') swaps m).flatMap (ways leads rank k')).sum +
      m.dataId.routing.uuids.length ≤ (ways leads rank k (d, m)).sum := by
  unfold forwards ways
  rw [flatMap_filterMap_toList]
  generalize m.dataId.routing.uuids = us at hreach
  induction us with
  | nil => exact le_refl _
  | cons u us ih =>
    obtain ⟨d', y, hforward, -, hway, -⟩ := h.forwardOf hswap (hreach u List.mem_cons_self)
    have hrest := ih fun x hx => hreach x (List.mem_cons_of_mem _ hx)
    have hhere : way leads rank k d u = rank u k' + 2 := by
      unfold way
      rw [hleads]
    rw [List.flatMap_cons, hforward, Option.toList_some, List.flatMap_singleton, List.sum_append,
      List.length_cons, List.map_cons, List.sum_cons, hhere]
    change [way leads rank k' d' u].sum + _ + _ ≤ _
    rw [List.sum_singleton]
    omega

theorem onWay_of_forwards {tables : Uuid → Surroundings} (h : Leading leads reach rank tables)
    {k : Uuid} {m : UserData} (hswap : Swappable swaps m)
    (hreach : ∀ u ∈ m.dataId.routing.uuids, reach u k) {p : Descriptor × UserData}
    (hp : p ∈ forwards (tables k) swaps m) : OnWay leads swaps reach k p.1 p.2 := by
  obtain ⟨u, hu, hforward⟩ := List.mem_filterMap.1 hp
  obtain ⟨d, y, hforward', hy, -, hnext⟩ := h.forwardOf hswap (hreach u hu)
  obtain rfl := Option.some.inj (hforward.symm.trans hforward')
  rcases hnext with ⟨hnext, hnative⟩ | ⟨k', hnext, hu'⟩
  · exact .inl ⟨u, hnext, hnative, List.cons_ne_nil _ _, fun r hr => List.mem_singleton.1 hr⟩
  · exact .inr ⟨k', hnext, hy, fun r hr => List.mem_singleton.1 hr ▸ hu'⟩

theorem onWay_of_perReceiver {k : Uuid} {c : Descriptor × UserData}
    (hrouted : c.2.dataId.routing.uuids ≠ [])
    (h : ∀ p ∈ perReceiver c, OnWay leads swaps reach k p.1 p.2) :
    OnWay leads swaps reach k c.1 c.2 := by
  have hone (u : Uuid) (hu : u ∈ c.2.dataId.routing.uuids) :
      OnWay leads swaps reach k c.1 (withRouting c.2 [u]) :=
    h (c.1, withRouting c.2 [u]) (List.mem_map_of_mem hu)
  obtain ⟨u, hu⟩ := List.exists_mem_of_ne_nil _ hrouted
  rcases hone u hu with ⟨v, hleads, hfor⟩ | ⟨k', hleads, hswap, -⟩
  · refine .inl ⟨v, hleads, hfor.native, hrouted, fun r hr => ?_⟩
    rcases hone r hr with ⟨w, hw, hother⟩ | ⟨k', hk', -⟩
    · cases hleads.symm.trans hw
      exact hother.only r List.mem_cons_self
    · cases hleads.symm.trans hk'
  · refine .inr ⟨k', hleads, hswap, fun r hr => ?_⟩
    rcases hone r hr with ⟨v, hv, -⟩ | ⟨k'', hleads', -, hreach⟩
    · cases hleads.symm.trans hv
    · cases hleads.symm.trans hleads'
      exact hreach r List.mem_cons_self

/-- Nothing under way can get lost by what the kernels do. -/
structure Drains (leads : Uuid → Descriptor → Option Peer) (swaps : SwapEndian.ParserFactory)
    (reach : Uuid → Uuid → Prop) (rank : Uuid → Uuid → ℕ) (s : Net) : Prop where
  routed : AllRouted s.flight
  tables : Leading leads reach rank fun k => (s.sites k).me
  onWay : ∀ hop ∈ s.flight, OnWay leads swaps reach hop.kernel hop.desc hop.data

theorem sum_ways_forwards {tables : Uuid → Surroundings} (h : Leading leads reach rank tables)
    {k k' : Uuid} {d : Descriptor} (hleads : leads k d = some (.kernel k')) (route : List UserData)
    (hroute : ∀ m ∈ route, Swappable swaps m ∧ ∀ u ∈ m.dataId.routing.uuids, reach u k') :
    ((route.flatMap (forwards (tables k') swaps)).flatMap (ways leads rank k')).sum +
      (route.flatMap fun m => m.dataId.routing.uuids).length ≤
        (route.flatMap fun m => ways leads rank k (d, m)).sum := by
  induction route with
  | nil => exact le_refl _
  | cons m route ih =>
    have hrest := ih fun x hx => hroute x (List.mem_cons_of_mem _ hx)
    obtain ⟨hswap, hreach⟩ := hroute m List.mem_cons_self
    have hfirst := ways_forwards h hleads hswap hreach
    rw [List.flatMap_cons, List.flatMap_append, List.sum_append, List.flatMap_cons,
      List.length_append, List.flatMap_cons, List.sum_append]
    omega

theorem potential_append (hops hops' : List Hop) : potential leads rank (hops ++ hops') =
    potential leads rank hops + potential leads rank hops' := by
  unfold potential
  rw [List.flatMap_append, List.sum_append]

theorem potential_takeLink (leads : Uuid → Descriptor → Option Peer) (rank : Uuid → Uuid → ℕ)
    (k : Uuid) (d : Descriptor) (n : ℕ) (hops : List Hop) :
    potential leads rank hops =
      ((takeLink k d n hops).1.flatMap fun m => ways leads rank k (d, m)).sum +
        potential leads rank (takeLink k d n hops).2 := by
  have hperm := ((takeLink_perm k d n hops).flatMap_right
    fun hop => ways leads rank hop.kernel (hop.desc, hop.data)).sum_eq
  rw [List.flatMap_append, List.flatMap_map, List.sum_append] at hperm
  exact hperm

theorem Handled.drains {k k' : Uuid} {d : Descriptor} {route : List UserData} {s s' : Net}
    (hhandled : Handled swaps k' route s s') (h : Drains leads swaps reach rank s)
    (hleads : leads k d = some (.kernel k'))
    (hroute : ∀ m ∈ route, Swappable swaps m ∧ ∀ u ∈ m.dataId.routing.uuids, reach u k') :
    Drains leads swaps reach rank s' ∧ s'.lost = s.lost ∧
      potential leads rank s'.flight + (route.flatMap fun m => m.dataId.routing.uuids).length ≤
        potential leads rank s.flight + (route.flatMap fun m => ways leads rank k (d, m)).sum := by
  obtain ⟨copies, hflight, hsends, hrouted⟩ := hhandled.flight
  refine ⟨⟨hhandled.routed h.routed, ?_, fun hop hhop => ?_⟩, ?_, ?_⟩
  · have hsame : (fun j => (s'.sites j).me) = fun j => (s.sites j).me := funext hhandled.tables
    rw [hsame]
    exact h.tables
  · rw [hflight, List.mem_append] at hhop
    rcases hhop with hhop | hhop
    · exact h.onWay hop hhop
    · obtain ⟨c, hc, rfl⟩ := List.mem_map.1 hhop
      refine onWay_of_perReceiver (hrouted c hc) fun p hp => ?_
      have hmem := hsends.mem_iff.1 (List.mem_flatMap_of_mem hc hp)
      obtain ⟨m, hm, hp⟩ := List.mem_flatMap.1 hmem
      exact onWay_of_forwards h.tables (hroute m hm).1 (hroute m hm).2 hp
  · have hnone : route.flatMap (notSent swaps (s.sites k').me) = [] :=
      List.flatMap_eq_nil_iff.2 fun m hm =>
        notSent_eq_nil h.tables (hroute m hm).1 (hroute m hm).2
    rw [hhandled.lost, hnone, List.append_nil]
  · have hcopies : copies.flatMap (ways leads rank k') =
        (copies.flatMap perReceiver).flatMap (ways leads rank k') := by
      rw [List.flatMap_assoc]
      exact List.flatMap_congr fun c _ => (flatMap_perReceiver
        (fun d _ u => way leads rank k' d u) (fun _ _ _ => rfl) c).symm
    have hsum := sum_ways_forwards h.tables hleads route hroute
    rw [← (hsends.flatMap_right _).sum_eq, ← hcopies] at hsum
    have hnew : potential leads rank (copies.map fun c => ⟨k', c.1, c.2⟩) =
        (copies.flatMap (ways leads rank k')).sum := by
      unfold potential
      rw [List.flatMap_map]
    rw [hflight, potential_append, hnew]
    omega

theorem takeLink_ne_nil {k : Uuid} {d : Descriptor} {n : ℕ} (hn : 0 < n) {hops : List Hop}
    (h : ∃ hop ∈ hops, hop.kernel = k ∧ hop.desc = d) : (takeLink k d n hops).1 ≠ [] := by
  fun_induction takeLink k d n hops with
  | case1 hops => exact absurd hn (lt_irrefl _)
  | case2 n =>
    obtain ⟨hop, hhop, -⟩ := h
    cases hhop
  | case3 n hop hops hlink taken left htake ih => exact List.cons_ne_nil _ _
  | case4 n hop hops hlink taken left htake ih =>
    rw [htake] at ih
    obtain ⟨hop', hhop, hlink'⟩ := h
    rcases List.mem_cons.1 hhop with rfl | hhop
    · exact absurd hlink' hlink
    · exact ih hn ⟨hop', hhop, hlink'⟩

theorem Drains.takeLink {s : Net} (h : Drains leads swaps reach rank s) (k : Uuid)
    (d : Descriptor) (n : ℕ) (delivered : List (Uuid × UserData)) :
    Drains leads swaps reach rank
      { s with flight := (takeLink k d n s.flight).2, delivered := delivered } :=
  ⟨(routed_of_takeLink h.routed).2, h.tables, fun hop hhop => h.onWay hop
    ((takeLink_perm k d n s.flight).mem_iff.2 (List.mem_append_right _ hhop))⟩

/-- More has come to programs, each of which got only what is for it. -/
def Arrives (s s' : Net) : Prop :=
  ∃ new, s'.delivered = s.delivered ++ new ∧ ∀ p ∈ new, IsFor p.1 p.2

theorem Arrives.of_eq {s s' : Net} (h : s'.delivered = s.delivered) : Arrives s s' :=
  ⟨[], by rw [h, List.append_nil], fun _ hp => absurd hp List.not_mem_nil⟩

theorem Arrives.trans {s s' s'' : Net} (h : Arrives s s') (h' : Arrives s' s'') :
    Arrives s s'' := by
  obtain ⟨new, hnew, hfor⟩ := h
  obtain ⟨new', hnew', hfor'⟩ := h'
  refine ⟨new ++ new', by rw [hnew', hnew, List.append_assoc], fun p hp => ?_⟩
  exact (List.mem_append.1 hp).elim (hfor p) (hfor' p)

/-- A move loses nothing and brings a receiver nearer. -/
theorem Drains.moves {s s' : Net} {op : Op} (h : Drains leads swaps reach rank s)
    (hmoves : Moves leads s op) (hwent : Went leads swaps s op s') :
    Drains leads swaps reach rank s' ∧ s'.lost = s.lost ∧ s'.posted = s.posted ∧ Arrives s s' ∧
      potential leads rank s'.flight + 1 ≤ potential leads rank s.flight := by
  cases hwent with
  | change => exact hmoves.elim
  | post => exact hmoves.elim
  | lose => exact hmoves.elim
  | noKernel hnone =>
    obtain ⟨-, ⟨k', hk'⟩, -⟩ := hmoves
    exact absurd hk' (hnone k')
  | noProgram hnone =>
    obtain ⟨-, ⟨u, hu⟩, -⟩ := hmoves
    exact absurd hu (hnone u)
  | @forward k k' d n s' hleads hhandled =>
    obtain ⟨hn, -, hlink⟩ := hmoves
    have htaken (m : UserData) (hm : m ∈ (Multicast.takeLink k d n s.flight).1) :
        (⟨k, d, m⟩ : Hop) ∈ s.flight := (takeLink_perm k d n s.flight).mem_iff.2
      (List.mem_append_left _ (List.mem_map_of_mem hm))
    have hroute (m : UserData) (hm : m ∈ (Multicast.takeLink k d n s.flight).1) :
        Swappable swaps m ∧ ∀ u ∈ m.dataId.routing.uuids, reach u k' := by
      rcases h.onWay _ (htaken m hm) with ⟨u, hu, -⟩ | ⟨k'', hk'', hon⟩
      · cases hleads.symm.trans hu
      · cases hleads.symm.trans hk''
        exact hon
    obtain ⟨hdrains, hlost, hless⟩ :=
      hhandled.drains (h.takeLink k d n s.delivered) hleads hroute
    refine ⟨hdrains, hlost, hhandled.posted, .of_eq hhandled.delivered, ?_⟩
    obtain ⟨m, hm⟩ := List.exists_mem_of_ne_nil _ (takeLink_ne_nil hn hlink)
    obtain ⟨u, hu⟩ := List.exists_mem_of_ne_nil _ (h.routed _ (htaken m hm))
    have hreceivers : 0 < ((Multicast.takeLink k d n s.flight).1.flatMap
        fun m => m.dataId.routing.uuids).length :=
      List.length_pos_of_mem (List.mem_flatMap_of_mem hm hu)
    have hpotential := potential_takeLink leads rank k d n s.flight
    dsimp only at hless
    omega
  | @deliver k u d n hleads =>
    obtain ⟨hn, -, hlink⟩ := hmoves
    refine ⟨h.takeLink k d n _, rfl, rfl, ⟨_, rfl, fun p hp => ?_⟩, ?_⟩
    · obtain ⟨m, hm, rfl⟩ := List.mem_map.1 hp
      have hhop := (takeLink_perm k d n s.flight).mem_iff.2
        (List.mem_append_left _ (List.mem_map_of_mem hm))
      rcases h.onWay _ hhop with ⟨v, hv, hfor⟩ | ⟨k', hk', -⟩
      · cases hleads.symm.trans hv
        exact hfor
      · cases hleads.symm.trans hk'
    obtain ⟨m, hm⟩ := List.exists_mem_of_ne_nil _ (takeLink_ne_nil hn hlink)
    have hhop := (takeLink_perm k d n s.flight).mem_iff.2
      (List.mem_append_left _ (List.mem_map_of_mem hm))
    obtain ⟨r, hr⟩ := List.exists_mem_of_ne_nil _ (h.routed _ hhop)
    have hone : way leads rank k d r ≤ ((Multicast.takeLink k d n s.flight).1.flatMap
        fun m => ways leads rank k (d, m)).sum :=
      List.single_le_sum (fun _ _ => Nat.zero_le _) _
        (List.mem_flatMap_of_mem hm (List.mem_map_of_mem hr))
    have hpositive := one_le_way leads rank k d r
    have hpotential := potential_takeLink leads rank k d n s.flight
    dsimp only
    omega

/-- When nothing can move, nothing is under way. -/
theorem Drains.flight_eq_nil {s : Net} (h : Drains leads swaps reach rank s)
    (hstuck : ∀ op, ¬Moves leads s op) : s.flight = [] := by
  refine List.eq_nil_iff_forall_not_mem.2 fun hop hhop => ?_
  rcases h.onWay hop hhop with ⟨u, hleads, -⟩ | ⟨k', hleads, -⟩
  · exact hstuck (.deliver hop.kernel hop.desc 1)
      ⟨Nat.one_pos, ⟨u, hleads⟩, hop, hhop, rfl, rfl⟩
  · exact hstuck (.forward hop.kernel hop.desc 1)
      ⟨Nat.one_pos, ⟨k', hleads⟩, hop, hhop, rfl, rfl⟩

end Draining

section Runs
variable {parsers : ReceiverStage.ParserFactory}

theorem run_conserving (hparsers : ReceiverStage.AllContiguous parsers)
    (leads : Uuid → Descriptor → Option Peer) (swaps : SwapEndian.ParserFactory)
    (sites : Uuid → Site) (ops : List Op) :
    ∃ s, runAll (step leads parsers swaps) ops (start sites) = .ok s ∧ Conserves swaps s := by
  refine runAll_of_step (P := fun _ _ => True) (fun s op hs _ => ?_) (Conserves.start sites)
    (everyStep_of_forall (fun _ _ => trivial) ops _)
  obtain ⟨s', hstep, hwent⟩ := step_went hparsers hs.routed op
  exact ⟨s', hstep, hs.went hwent⟩

/-- The program 2 is with the kernel 11, the programs 5 and 6 are with the kernel 12. -/
def chainLeads (k : Uuid) (d : Descriptor) : Option Peer :=
  if k = 11 then
    if d = 1 then some (.program 2) else if d = 9 then some (.kernel 12) else none
  else if d = 1 then some (.program 5) else if d = 3 then some (.program 6) else none

def chainSites (k : Uuid) : Site where
  id := ⟨k, []⟩
  me := {
    next u :=
      if k = 11 then if u = 2 then [1] else if u = 5 ∨ u = 6 then [9] else []
      else if u = 5 then [1] else if u = 6 then [3] else []
    isLocal u := if k = 11 then u = 2 else u = 5 ∨ u = 6
    sendTo _ := ([], []) }
  kernel := ReceiverStage.onePairKernel

def chainSwaps : SwapEndian.ParserFactory := fun _ => some SwapEndian.numberParser

def farPacket : UserData :=
  ⟨⟨3, ['n'], 0, [], [], [], ⟨⟨1, []⟩, [5, 2, 6]⟩, .default, .big, ⟨⟨0, 0, 0⟩, []⟩⟩, [7, 8, 9]⟩

def chainOps : List Op := [.post 11 [ReceiverStage.pairPacket [1, 5], farPacket]]

def chainMoves : List Op := [.forward 11 9 4, .deliver 12 3 1, .deliver 11 1 2, .deliver 12 1 1]

/-- Whatever the tables of the kernels say at any moment, and in whatever order links are served, a
receiver of a packet is never forgotten and never served twice. -/
theorem run_conserves (hparsers : ReceiverStage.AllContiguous parsers)
    (leads : Uuid → Descriptor → Option Peer) (swaps : SwapEndian.ParserFactory)
    (sites : Uuid → Site) (ops : List Op) :
    ∃ s, runAll (step leads parsers swaps) ops (start sites) = .ok s ∧
      s.posted.Perm (underWay swaps s.flight ++ (arrived swaps s.delivered ++ s.lost)) := by
  obtain ⟨s, hrun, hs⟩ := run_conserving hparsers leads swaps sites ops
  exact ⟨s, hrun, hs.accounts⟩

theorem run_conserves_chain :
    ∃ s, runAll (step chainLeads ReceiverStage.pairFactory chainSwaps)
        (chainOps ++ [.lose 11 1 1] ++ chainMoves) (start chainSites) = .ok s ∧
      s.posted.Perm (underWay chainSwaps s.flight ++ (arrived chainSwaps s.delivered ++ s.lost)) :=
  run_conserves ReceiverStage.pairFactory_contiguous chainLeads chainSwaps chainSites
    (chainOps ++ [.lose 11 1 1] ++ chainMoves)

example : (runAll (step chainLeads ReceiverStage.pairFactory chainSwaps)
    (chainOps ++ [.lose 11 1 1] ++ chainMoves) (start chainSites)).toOption.map (fun s =>
      (s.delivered.map fun p => (p.1, p.2.data), s.lost.map UserData.data, s.flight.length)) =
        some ([(6, [9, 8, 7]), (2, [9, 8, 7]), (5, [9, 8, 7])], [[1, 5]], 0) := by
  decide +kernel

/-- When the kernels use the descriptors of their programs for these programs only, a program gets
nothing but what is for it, in its byte order and at most once, and what is for it and does not
come is still under way or is lost. -/
theorem run_addresses (hparsers : ReceiverStage.AllContiguous parsers)
    {leads : Uuid → Descriptor → Option Peer} (swaps : SwapEndian.ParserFactory)
    {sites : Uuid → Site} (hsites : ∀ k, Faithful leads k (sites k).me) {ops : List Op}
    (hops : ∀ k site, .change k site ∈ ops → Faithful leads k site.me) :
    ∃ s, runAll (step leads parsers swaps) ops (start sites) = .ok s ∧
      (∀ p ∈ s.delivered, IsFor p.1 p.2) ∧
      ∀ u, (s.posted.filter (isTo u)).Perm ((underWay swaps s.flight).filter (isTo u) ++
        (arrived swaps (s.delivered.filter fun p => p.1 = u) ++ s.lost.filter (isTo u))) := by
  have hstart : Addressed leads (start sites) :=
    ⟨hsites, fun _ h => absurd h List.not_mem_nil, fun _ h => absurd h List.not_mem_nil⟩
  have hfits : EveryStep (step leads parsers swaps)
      (fun _ op => ∀ k site, op = .change k site → Faithful leads k site.me) ops (start sites) :=
    everyStep_of_mem (by rintro _ hop - k site rfl; exact hops k site hop) _
  obtain ⟨s, hrun, hs, haddressed⟩ := runAll_of_step
    (I := fun s => Conserves swaps s ∧ Addressed leads s) (fun s op hs hop => by
      obtain ⟨s', hstep, hwent⟩ := step_went hparsers hs.1.routed op
      exact ⟨s', hstep, hs.1.went hwent, hs.2.went hop hwent⟩)
    ⟨Conserves.start sites, hstart⟩ hfits
  refine ⟨s, hrun, haddressed.delivered, fun u => ?_⟩
  have hall := hs.accounts.filter (isTo u)
  rw [List.filter_append, List.filter_append, arrived_filter haddressed.delivered] at hall
  exact hall

theorem chain_faithful (k : Uuid) : Faithful chainLeads k (chainSites k).me := by
  intro u d v hdesc hleads
  unfold outputDescriptor chainSites at hdesc
  unfold chainLeads at hleads
  unfold chainSites
  grind [isValidDescriptor]

theorem run_addresses_chain :
    ∃ s, runAll (step chainLeads ReceiverStage.pairFactory chainSwaps)
        (chainOps ++ [.change 12 (chainSites 12)] ++ chainMoves) (start chainSites) = .ok s ∧
      (∀ p ∈ s.delivered, IsFor p.1 p.2) ∧
      ∀ u, (s.posted.filter (isTo u)).Perm ((underWay chainSwaps s.flight).filter (isTo u) ++
        (arrived chainSwaps (s.delivered.filter fun p => p.1 = u) ++ s.lost.filter (isTo u))) :=
  run_addresses ReceiverStage.pairFactory_contiguous chainSwaps chain_faithful fun k site hmem => by
    simp only [chainOps, chainMoves, List.mem_append, List.mem_cons, reduceCtorEq, Op.change.injEq,
      List.not_mem_nil, or_false, false_or, or_self] at hmem
    obtain ⟨rfl, rfl⟩ := hmem
    exact chain_faithful 12

/-- After any run, once the receivers of what is under way are reached from where it goes, the
kernels and programs can take packets only so often, nothing more is lost, no program gets what is
not for it, and when there is nothing to take each has got all that was under way for it. -/
theorem run_drains (hparsers : ReceiverStage.AllContiguous parsers)
    {leads : Uuid → Descriptor → Option Peer} {swaps : SwapEndian.ParserFactory}
    {sites : Uuid → Site} {ops : List Op} {s : Net}
    (hrun : runAll (step leads parsers swaps) ops (start sites) = .ok s)
    {reach : Uuid → Uuid → Prop} {rank : Uuid → Uuid → ℕ}
    (htables : Leading leads reach rank fun k => (s.sites k).me)
    (hflight : ∀ hop ∈ s.flight, OnWay leads swaps reach hop.kernel hop.desc hop.data)
    {moves : List Op} (hmoves : EveryStep (step leads parsers swaps) (Moves leads) moves s) :
    ∃ s' new, runAll (step leads parsers swaps) moves s = .ok s' ∧ s'.lost = s.lost ∧
      moves.length + potential leads rank s'.flight ≤ potential leads rank s.flight ∧
      s'.delivered = s.delivered ++ new ∧ (∀ p ∈ new, IsFor p.1 p.2) ∧
      ((∀ op, ¬Moves leads s' op) → s'.flight = [] ∧
        s.posted.Perm (arrived swaps s'.delivered ++ s.lost) ∧
        ∀ u, ((underWay swaps s.flight).filter (isTo u)).Perm
          (arrived swaps (new.filter fun p => p.1 = u))) := by
  obtain ⟨t, hrun', hs⟩ := run_conserving hparsers leads swaps sites ops
  obtain rfl : s = t := Except.ok.inj (hrun.symm.trans hrun')
  obtain ⟨s', hrun', ⟨hs', hdrains, hlost, hposted, new, hnew, hfor⟩, hless⟩ := runAll_decreases
    (f := fun t => potential leads rank t.flight)
    (I := fun t => Conserves swaps t ∧ Drains leads swaps reach rank t ∧ t.lost = s.lost ∧
      t.posted = s.posted ∧ Arrives s t)
    (fun t op ht hop => by
      obtain ⟨ht, hdrains, hlost, hposted, harrives⟩ := ht
      obtain ⟨t', hstep, hwent⟩ := step_went hparsers ht.routed op
      obtain ⟨hdrains', hlost', hposted', harrives', hless⟩ := hdrains.moves hop hwent
      exact ⟨t', hstep, ⟨ht.went hwent, hdrains', hlost'.trans hlost, hposted'.trans hposted,
        harrives.trans harrives'⟩, hless⟩)
    ⟨hs, ⟨hs.routed, htables, hflight⟩, rfl, rfl, .of_eq rfl⟩ hmoves
  refine ⟨s', new, hrun', hlost, hless, hnew, hfor, fun hstuck => ?_⟩
  have hnone := hdrains.flight_eq_nil hstuck
  have haccounts := hs'.accounts
  rw [hnone, hposted, hlost] at haccounts
  refine ⟨hnone, haccounts, fun u => ?_⟩
  rw [← arrived_filter hfor]
  refine List.Perm.filter _ ?_
  -- what was delivered and lost before takes the same part of both accounts
  have hbefore := hs.accounts
  have hsplit : arrived swaps s'.delivered = arrived swaps s.delivered ++ arrived swaps new := by
    unfold arrived
    rw [hnew, List.flatMap_append]
  have hboth := hbefore.symm.trans haccounts
  rw [hsplit, List.perm_iff_count] at hboth
  rw [List.perm_iff_count]
  intro m
  have hm := hboth m
  simp only [underWay, List.flatMap_nil, List.nil_append, List.count_append] at hm ⊢
  omega

/-- The programs that the kernels know, and how far they are. -/
def ChainReach (u k : Uuid) : Prop :=
  (k = 11 ∧ (u = 2 ∨ u = 5 ∨ u = 6)) ∨ (k = 12 ∧ (u = 5 ∨ u = 6))

def chainRank (_ k : Uuid) : ℕ := if k = 11 then 1 else 0

instance (u k : Uuid) : Decidable (ChainReach u k) := inferInstanceAs (Decidable (_ ∨ _))

def chainNet : Net :=
  (runAll (step chainLeads ReceiverStage.pairFactory chainSwaps) chainOps
    (start chainSites)).toOption.getD (start chainSites)

theorem chain_leading :
    Leading chainLeads ChainReach chainRank fun k => (chainNet.sites k).me := by
  rintro u k (⟨rfl, rfl | rfl | rfl⟩ | ⟨rfl, rfl | rfl⟩)
  · exact ⟨1, by decide +kernel, .inl ⟨rfl, by decide +kernel⟩⟩
  · exact ⟨9, by decide +kernel, .inr ⟨12, rfl, .inr ⟨rfl, .inl rfl⟩, Nat.one_pos⟩⟩
  · exact ⟨9, by decide +kernel, .inr ⟨12, rfl, .inr ⟨rfl, .inr rfl⟩, Nat.one_pos⟩⟩
  · exact ⟨1, by decide +kernel, .inl ⟨rfl, by decide +kernel⟩⟩
  · exact ⟨3, by decide +kernel, .inl ⟨rfl, by decide +kernel⟩⟩

theorem run_drains_chain :
    ∃ s' new, runAll (step chainLeads ReceiverStage.pairFactory chainSwaps) chainMoves chainNet =
        .ok s' ∧ s'.lost = chainNet.lost ∧
      chainMoves.length + potential chainLeads chainRank s'.flight ≤
        potential chainLeads chainRank chainNet.flight ∧
      s'.delivered = chainNet.delivered ++ new ∧ (∀ p ∈ new, IsFor p.1 p.2) ∧
      ((∀ op, ¬Moves chainLeads s' op) → s'.flight = [] ∧
        chainNet.posted.Perm (arrived chainSwaps s'.delivered ++ chainNet.lost) ∧
        ∀ u, ((underWay chainSwaps chainNet.flight).filter (isTo u)).Perm
          (arrived chainSwaps (new.filter fun p => p.1 = u))) := by
  have hrun : runAll (step chainLeads ReceiverStage.pairFactory chainSwaps) chainOps
      (start chainSites) = .ok chainNet := by
    obtain ⟨s, hrun, -⟩ := run_conserving ReceiverStage.pairFactory_contiguous chainLeads
      chainSwaps chainSites chainOps
    unfold chainNet
    rw [hrun]
    rfl
  exact run_drains ReceiverStage.pairFactory_contiguous hrun chain_leading (by decide +kernel)
    (by decide +kernel)

end Runs

end UdtKernel.Multicast
