import UdtKernel.RequiredDG.Run
import UdtKernel.Routing.Network

set_option autoImplicit false

/-! The identifiers of the table are the programs of the net. -/

namespace UdtKernel
open UdtKernel.Lib UdtKernel.InfoData UdtKernel.RoutingService

structure Routed where
  data : InfoData
  dg : RequiredDG

namespace Routed

def step (swap : RequiredDG.SwapHeader) (aMe : Id) (e : Event) (s : Routed) :
    Except Abort Routed := do
  let (data, diff) ← s.data.process aMe e
  let handled ← handleDiff swap diff s.dg
  return ⟨data, handled.dg⟩

/-- `MStart` of both services. -/
def start (swap : RequiredDG.SwapHeader) (aMe : Id)
    (aDescriptors : SortedMap Descriptor DescriptorInfo) (g : Genealogy) : Except Abort Routed := do
  let data ← InfoData.start aMe aDescriptors
  let s ← RequiredDG.addClient swap aMe (RequiredDG.start g)
  return ⟨data, s.dg⟩

/-- The identifiers of the table are the programs of the net. -/
def Follows (aMe : Id) (s : Routed) : Prop :=
  ∀ u, (s.dg.ids.find u).isSome = true ↔ IsProgram aMe s.data.fnet.net u

def StepOk (aMe : Id) (s : Routed) (e : Event) : Prop :=
  e.Valid ∧ ClientFits aMe s.data.fnet.net e ∧ ∀ r ∈ (s.data.process aMe e).toOption,
    KeepTypes s.data.fnet.net r.1.fnet.net ∧ OneKernel s.data.fnet.net r.1.fnet.net ∧
      ValidClients aMe r.1.fnet.net

instance (aMe : Id) (s : Routed) (e : Event) : Decidable (StepOk aMe s e) :=
  inferInstanceAs (Decidable (_ ∧ _ ∧ ∀ r ∈ (s.data.process aMe e).toOption, _))

structure Following (swap : RequiredDG.SwapHeader) (aMe : Id) (s : Routed) : Prop where
  known : Known aMe.uuid s.data
  undemanded : Undemanded swap s.dg
  valid : ValidClients aMe s.data.fnet.net
  follows : Follows aMe s

variable {swap : RequiredDG.SwapHeader} {aMe : Id}

theorem process_clientDiff {d : InfoData} (h : Known aMe.uuid d) {e : Event} (he : e.Valid)
    (hfits : ClientFits aMe d.fnet.net e) (htypes : ∀ r ∈ (process aMe e d).toOption,
      KeepTypes d.fnet.net r.1.fnet.net) :
    ∃ d' diff, process aMe e d = .ok (d', diff) ∧ Known aMe.uuid d' ∧
      ClientDiff d.fnet.net d'.fnet.net diff := by
  cases e with
  | opened aFrom aInfo =>
    obtain ⟨d', diff, hok, ho⟩ := process_opened h aFrom aInfo
    exact ⟨d', diff, hok, ho.known h, ho.clientDiff h hok hfits⟩
  | closed aFrom aInfo =>
    obtain ⟨d', diff, hok, hc⟩ := process_closed h (ne_invalid he) aInfo
    exact ⟨d', diff, hok, hc.known h (ne_invalid he), hc.clientDiff h (ne_invalid he) hfits⟩
  | netInfo aFrom aNet =>
    obtain ⟨d', diff, hok, hs, -⟩ := process_netInfo h aFrom aNet
    have hkeep := htypes (d', diff) (by rw [hok]; rfl)
    exact ⟨d', diff, hok, hs.known h (ne_invalid he), hs.clientDiff hok hkeep⟩

theorem step_following {s : Routed} {e : Event} (h : Following swap aMe s) (he : StepOk aMe s e) :
    ∃ s', step swap aMe e s = .ok s' ∧ Following swap aMe s' := by
  obtain ⟨hvalid, hfits, hafter⟩ := he
  obtain ⟨d', diff, hok, hknown, hdiff⟩ :=
    process_clientDiff h.known hvalid hfits fun r hr => (hafter r hr).1
  obtain ⟨-, hone, hclients⟩ := hafter (d', diff) (by rw [hok]; rfl)
  obtain ⟨handled, hhandled, hundemanded, hids⟩ := handleDiff_spec h.undemanded
    (hdiff.opened_nodup hone)
    (fun u hu => by
      rw [← Option.not_isSome_iff_eq_none, h.follows u]
      exact hdiff.opened_new hone hclients hu)
    fun u hu => (hdiff.closed_valid h.valid hu).1
  refine ⟨⟨d', handled.dg⟩, ?_, hknown, hundemanded, hclients, fun u => ?_⟩
  · unfold step
    rw [hok]
    simp only [bind, Except.bind, hhandled]
    rfl
  · rw [hids, h.follows u]
    exact (hdiff.isProgram_iff hone h.valid u).symm

theorem start_following (swap : RequiredDG.SwapHeader) (aMe : Id)
    (aDescriptors : SortedMap Descriptor DescriptorInfo) (g : Genealogy)
    (hdescriptors : ∀ e ∈ aDescriptors.entries, e.2.link.type = .kernel) :
    ∃ s, start swap aMe aDescriptors g = .ok s ∧ Following swap aMe s := by
  obtain ⟨d, hd, hstarted⟩ := start_spec aMe aDescriptors
  have hstart : Undemanded swap (RequiredDG.start g) := ⟨RequiredDG.kept_start g, fun _ => rfl⟩
  obtain ⟨p, hp, hundemanded, hids⟩ := hstart.addClient aMe rfl
  have hnone : clients d.fnet.net = [] := by
    refine List.eq_nil_iff_forall_not_mem.2 fun ⟨k, u⟩ hmem => ?_
    obtain ⟨link, hlink, htype⟩ := mem_clients.1 hmem
    obtain ⟨infos, hk, hu⟩ := Option.bind_eq_some_iff.1 hlink
    obtain ⟨my, hmy, hlinks⟩ := hstarted.own
    by_cases hme : k = aMe.uuid
    · subst hme
      rw [hmy] at hk
      cases hk
      rw [hlinks] at hu
      obtain ⟨e, he, rfl⟩ := Option.map_eq_some_iff.1 hu
      have hkernel := hdescriptors e (List.mem_of_find?_eq_some he)
      rw [htype] at hkernel
      cases hkernel
    · rw [hstarted.others k hme] at hk
      cases hk
  refine ⟨⟨d, p.dg⟩, ?_, hstarted.known, hundemanded, ?_, fun u => ?_⟩
  · unfold start
    rw [hd]
    simp only [bind, Except.bind, hp]
    rfl
  · intro q hq
    change q ∈ clients d.fnet.net at hq
    rw [hnone] at hq
    cases hq
  · unfold IsProgram
    rw [hids, SortedMap.find_insert, hnone]
    change (if u = aMe.uuid then _ else none : Option Text).isSome = true ↔ _
    split_ifs with hu <;> simp [hu]

theorem run_follows (swap : RequiredDG.SwapHeader) (aMe : Id)
    (aDescriptors : SortedMap Descriptor DescriptorInfo) (g : Genealogy) (events : List Event)
    (hdescriptors : ∀ e ∈ aDescriptors.entries, e.2.link.type = .kernel)
    (hevents : ∀ s ∈ (start swap aMe aDescriptors g).toOption,
      EveryStep (step swap aMe) (StepOk aMe) events s) :
    ∃ s₀ s, start swap aMe aDescriptors g = .ok s₀ ∧
      runAll (step swap aMe) events s₀ = .ok s ∧ Follows aMe s := by
  obtain ⟨s₀, hs₀, hfollowing⟩ := start_following swap aMe aDescriptors g hdescriptors
  have hrun : Outcome (fun _ => False) (Following swap aMe)
      (runAll (step swap aMe) events s₀) := by
    refine runAll_outcome (fun s e hs he => ?_) hfollowing (hevents s₀ (by rw [hs₀]; rfl))
    obtain ⟨s', hok, hs'⟩ := step_following hs he
    rw [hok]
    exact hs'
  cases hr : runAll (step swap aMe) events s₀ with
  | error e =>
    rw [hr] at hrun
    exact absurd hrun id
  | ok s =>
    rw [hr] at hrun
    exact ⟨s₀, s, hs₀, hr, hrun.follows⟩

/-- A consumer is linked and leaves, and another one comes with its kernel. -/
def followedEvents : List Event :=
  [.opened 2 (programInfo 7 .consumer 1), .closed 2 (programInfo 7 .consumer 1),
    .netInfo 3 ⟨SortedMap.empty.insert 5 ⟨['k'], SortedMap.empty.insert 8 ⟨['p'], .consumer, 1⟩, 1⟩,
      1⟩]

theorem run_follows_consumers : ∃ s₀ s,
    start RequiredDG.noSwap ⟨1, ['k']⟩ .empty .empty = .ok s₀ ∧
    runAll (step RequiredDG.noSwap ⟨1, ['k']⟩) followedEvents s₀ = .ok s ∧
    Follows ⟨1, ['k']⟩ s :=
  run_follows RequiredDG.noSwap ⟨1, ['k']⟩ .empty .empty followedEvents (by decide) (by decide)

def consumerNet (kernel consumer : Uuid) (indexNumber : ℕ) : SortedMap Uuid KernelInfos :=
  SortedMap.empty.insert kernel
    ⟨['k'], SortedMap.empty.insert consumer ⟨['p'], .consumer, 1⟩, indexNumber⟩

def movedEvents : List Event :=
  [.netInfo 3 ⟨(consumerNet 5 8 1).insert 6 ⟨['k'], .empty, 1⟩, 1⟩,
    .netInfo 3 ⟨(consumerNet 6 8 2).insert 5 ⟨['k'], .empty, 2⟩, 2⟩]

/-- The own kernel is an identifier, too; and the id of a consumer that moves, is linked by two
    kernels or has two descriptors is not new. -/
theorem follows_false_of_own_kernel :
    (∃ s₀ s, start RequiredDG.noSwap ⟨1, ['k']⟩ .empty .empty = .ok s₀ ∧
      runAll (step RequiredDG.noSwap ⟨1, ['k']⟩) [.opened 2 (programInfo 7 .consumer 1)] s₀ =
        .ok s ∧ (s.dg.ids.find 1).isSome = true ∧ ∀ p ∈ clients s.data.fnet.net, p.2 ≠ 1) ∧
    ∃ s₀, start RequiredDG.noSwap ⟨1, ['k']⟩ .empty .empty = .ok s₀ ∧
      ∀ events ∈ [movedEvents,
        [.netInfo 3 ⟨consumerNet 5 8 1, 1⟩, .netInfo 4 ⟨consumerNet 6 8 1, 1⟩],
        [.opened 2 (programInfo 7 .consumer 1), .opened 3 (programInfo 7 .consumer 1)]],
        runAll (step RequiredDG.noSwap ⟨1, ['k']⟩) events s₀ = .error .clientIsKnown := by
  refine ⟨⟨_, _, rfl, rfl, rfl, by decide⟩, _, rfl, fun events hevents => ?_⟩
  simp only [List.mem_cons, List.not_mem_nil, or_false] at hevents
  rcases hevents with rfl | rfl | rfl <;> rfl

end Routed

end UdtKernel
