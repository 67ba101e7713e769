import UdtKernel.Routing.Distribute

set_option autoImplicit false

/-! When a distribution loses nothing. -/

namespace UdtKernel.Lossless
open UdtKernel.Lib UdtKernel.Distribute

def IsSet (e : ErrorType) (r : FailSend) : Prop := r.error &&& e = e

instance (e : ErrorType) (r : FailSend) : Decidable (IsSet e r) :=
  inferInstanceAs (Decidable (_ = _))

/-- What one message turns into: copies, each with the descriptor it is put out by, and
    error reports. -/
structure Share where
  copies : List (Descriptor × UserData)
  reports : List FailSend

def Share.dataFor (s : Share) (d : Descriptor) : List UserData :=
  s.copies.flatMap fun c => if c.1 = d then [c.2] else []

/-- The share accounts for every uuid the message is routed to. -/
structure Accounts (m : UserData) (s : Share) : Prop where
  distinct : (s.copies.map Prod.fst).Nodup
  copyOf : ∀ c ∈ s.copies, ∃ us, c.2 = withRouting m us
  reportOf : ∀ r ∈ s.reports, ∃ us, r.info = setRouting m.dataId us
  once : ∀ u ∈ m.dataId.routing.uuids,
    s.copies.countP (fun c => u ∈ c.2.dataId.routing.uuids) +
      s.reports.countP (fun r => IsSet eNoRoute r ∧ u ∈ r.info.routing.uuids) = 1
  copyCount : ∀ c ∈ s.copies, ∀ u ∈ c.2.dataId.routing.uuids,
    c.2.dataId.routing.uuids.count u = m.dataId.routing.uuids.count u
  reportCount : ∀ r ∈ s.reports, IsSet eNoRoute r → ∀ u ∈ r.info.routing.uuids,
    r.info.routing.uuids.count u = m.dataId.routing.uuids.count u

/-- Nothing is lost between the messages given and what was output and reported. -/
def NothingLost (what : List UserData) (errors : List FailSend) (out : Distributed) : Prop :=
  StrictlySorted out.sendTo ∧ ∃ shares : List Share,
    List.Forall₂ Accounts what shares ∧
    (∀ d, dataFor d out.sendTo = shares.flatMap fun s => s.dataFor d) ∧
    out.errors = errors ++ shares.flatMap Share.reports

def shareOf (next : Uuid → List Descriptor) (m : UserData) : Share :=
  if m.dataId.routing.uuids = [] then
    ⟨[], [(FailSend.ofInfo m.dataId).setError eUnknownError]⟩
  else
    let o := getOutputDescriptors next m.dataId.routing
    let m' := withRouting m o.remains
    if o.descr.entries = [] then ⟨[], [(FailSend.ofInfo m'.dataId).setError eNoRoute]⟩
    else ⟨o.descr.entries.map fun e =>
      (e.1, { m' with dataId := { m'.dataId with routing := e.2 } }), []⟩

theorem dataFor_routingMsgToDescriptor (m : UserData) (descr : SortedMap Descriptor Routing)
    (d : Descriptor) : dataFor d (routingMsgToDescriptor m descr) =
      Share.dataFor ⟨descr.entries.map fun e =>
        (e.1, { m with dataId := { m.dataId with routing := e.2 } }), []⟩ d := by
  simp [dataFor, routingMsgToDescriptor, Share.dataFor, List.flatMap_map]

theorem routingMsgToDescriptor_sorted (m : UserData) (descr : SortedMap Descriptor Routing) :
    StrictlySorted (routingMsgToDescriptor m descr) :=
  List.pairwise_map.2 descr.sorted

theorem distributeMsg_spec (next : Uuid → List Descriptor) (a : Distributed) (m : UserData)
    (ha : StrictlySorted a.sendTo) :
    StrictlySorted (distributeMsg next a m).sendTo ∧
    (∀ d, dataFor d (distributeMsg next a m).sendTo =
      dataFor d a.sendTo ++ (shareOf next m).dataFor d) ∧
    (distributeMsg next a m).errors = a.errors ++ (shareOf next m).reports := by
  by_cases hr : m.dataId.routing.uuids = []
  · have hne : eUnknownError ≠ eNoError := by decide
    simp [distributeMsg, shareOf, hr, noteError, hne, ha, Share.dataFor]
  · by_cases hd : (getOutputDescriptors next m.dataId.routing).descr.entries = []
    · have hne : eNoRoute ≠ eNoError := by decide
      simp [distributeMsg, shareOf, hr, hd, noteError, hne, ha, Share.dataFor]
    · have hout : routingMsgToDescriptor
          (withRouting m (getOutputDescriptors next m.dataId.routing).remains)
          (getOutputDescriptors next m.dataId.routing).descr ≠ [] := by
        simpa [routingMsgToDescriptor] using hd
      have hs := routingMsgToDescriptor_sorted
        (withRouting m (getOutputDescriptors next m.dataId.routing).remains)
        (getOutputDescriptors next m.dataId.routing).descr
      simp only [distributeMsg, shareOf, hr, hd, hout, noteError, ne_eq, not_false_eq_true,
        not_true_eq_false, if_true, if_false, false_and, List.append_nil, and_true]
      refine ⟨sortedSplice_sorted _ _ hs ha, fun d => ?_⟩
      rw [dataFor_sortedSplice d _ _ hs ha, dataFor_routingMsgToDescriptor]

theorem distributeMsgByDescriptors_spec (next : Uuid → List Descriptor) (what : List UserData)
    (a : Distributed) (ha : StrictlySorted a.sendTo) :
    StrictlySorted (distributeMsgByDescriptors next what a).sendTo ∧
    (∀ d, dataFor d (distributeMsgByDescriptors next what a).sendTo =
      dataFor d a.sendTo ++ what.flatMap fun m => (shareOf next m).dataFor d) ∧
    (distributeMsgByDescriptors next what a).errors =
      a.errors ++ what.flatMap fun m => (shareOf next m).reports := by
  induction what generalizing a with
  | nil => simpa [distributeMsgByDescriptors] using ha
  | cons m what ih =>
    obtain ⟨hs, hd, he⟩ := distributeMsg_spec next a m ha
    obtain ⟨hs', hd', he'⟩ := ih (distributeMsg next a m) hs
    simp only [distributeMsgByDescriptors, List.foldl_cons] at hs' hd' he' ⊢
    refine ⟨hs', fun d => ?_, ?_⟩
    · rw [hd' d, hd d, List.flatMap_cons, List.append_assoc]
    · rw [he', he, List.flatMap_cons, List.append_assoc]

theorem routable_of_goingBy {next : Uuid → List Descriptor} {d : Descriptor} {us : List Uuid}
    {u : Uuid} (h : u ∈ goingBy next d us) : outputDescriptor next u = some d := by
  simpa using (List.mem_filter.1 h).2

/-- Whatever the code outputs or reports names only uuids that have a descriptor. -/
theorem shareOf_copies_routable {next : Uuid → List Descriptor} {m : UserData}
    {c : Descriptor × UserData} (hc : c ∈ (shareOf next m).copies) {u : Uuid}
    (hu : u ∈ c.2.dataId.routing.uuids) : Routable next u := by
  unfold shareOf at hc
  split at hc
  · cases hc
  · simp only at hc
    split at hc
    · cases hc
    · obtain ⟨e, he, rfl⟩ := List.mem_map.1 hc
      rw [SortedMap.mem_entries_iff, getOutputDescriptors_find] at he
      split at he
      · cases he
      · have hr : e.2 = ⟨m.dataId.routing.from_, goingBy next e.1 m.dataId.routing.uuids⟩ :=
          (Option.some.inj he).symm
        simp only [hr] at hu
        simp [Routable, routable_of_goingBy hu]

theorem shareOf_reports_routable {next : Uuid → List Descriptor} {m : UserData} {r : FailSend}
    (hr : r ∈ (shareOf next m).reports) {u : Uuid} (hu : u ∈ r.info.routing.uuids) :
    Routable next u := by
  unfold shareOf at hr
  split at hr
  · rename_i hnil
    rw [List.mem_singleton.1 hr] at hu
    simp [FailSend.ofInfo, hnil] at hu
  · simp only at hr
    split at hr
    · rw [List.mem_singleton.1 hr] at hu
      simp only [FailSend.setError_info, FailSend.ofInfo, withRouting, setRouting_routing,
        getOutputDescriptors_remains] at hu
      simpa using (List.mem_filter.1 hu).2
    · cases hr

theorem withRouting_self (m : UserData) : withRouting m m.dataId.routing.uuids = m := rfl

theorem shareOf_accounts {next : Uuid → List Descriptor} {m : UserData}
    (h : ∀ u ∈ m.dataId.routing.uuids, Routable next u) : Accounts m (shareOf next m) := by
  by_cases hr : m.dataId.routing.uuids = []
  · simp only [shareOf, hr, if_true]
    have hns : ¬ IsSet eNoRoute ((FailSend.ofInfo m.dataId).setError eUnknownError) := by
      simp only [IsSet, FailSend.setError, FailSend.ofInfo]; decide
    refine ⟨List.nodup_nil, by simp, ?_, by simp [hr], by simp, ?_⟩
    · intro r hr'
      exact ⟨m.dataId.routing.uuids, by rw [List.mem_singleton.1 hr']; rfl⟩
    · intro r hr' hset
      exact absurd (List.mem_singleton.1 hr' ▸ hset) hns
  · have hd : (getOutputDescriptors next m.dataId.routing).descr.entries ≠ [] := by
      rw [Ne, descr_entries_eq_nil_iff]
      obtain ⟨u, hu⟩ := List.exists_mem_of_ne_nil _ hr
      exact fun hall => hall u hu (h u hu)
    have hrem : (getOutputDescriptors next m.dataId.routing).remains =
        m.dataId.routing.uuids := by
      rw [getOutputDescriptors_remains]
      exact List.filter_eq_self.2 fun u hu => by simpa using h u hu
    simp only [shareOf, hr, hd, if_false, hrem, withRouting_self]
    -- an entry of the map holds exactly the uuids that leave by its descriptor
    have hentry : ∀ e ∈ (getOutputDescriptors next m.dataId.routing).descr.entries,
        e.2 = ⟨m.dataId.routing.from_, goingBy next e.1 m.dataId.routing.uuids⟩ := by
      intro e he
      rw [SortedMap.mem_entries_iff, getOutputDescriptors_find] at he
      split at he
      · cases he
      · exact (Option.some.inj he).symm
    refine ⟨?_, ?_, by simp, ?_, ?_, by simp⟩
    · rw [List.map_map]
      exact SortedMap.keys_nodup _
    · intro c hc
      obtain ⟨e, he, rfl⟩ := List.mem_map.1 hc
      exact ⟨goingBy next e.1 m.dataId.routing.uuids, by rw [hentry e he]; rfl⟩
    · intro u hu
      obtain ⟨d, hud⟩ := Option.isSome_iff_exists.1 (h u hu)
      have hmem : d ∈ (getOutputDescriptors next m.dataId.routing).descr.keys := by
        rw [SortedMap.mem_keys_iff]
        refine ⟨_, (getOutputDescriptors_find next m.dataId.routing d).trans (if_neg ?_)⟩
        exact List.ne_nil_of_mem (List.mem_filter.2 ⟨hu, by simpa using hud⟩)
      have hone := List.count_eq_one_of_mem (SortedMap.keys_nodup _) hmem
      rw [List.countP_map, List.countP_nil, Nat.add_zero, ← hone, SortedMap.keys, List.count,
        List.countP_map]
      refine List.countP_congr fun e he => ?_
      simp only [Function.comp_apply, decide_eq_true_eq, beq_iff_eq, hentry e he]
      constructor
      · intro hg
        exact Option.some.inj ((routable_of_goingBy hg).symm.trans hud)
      · rintro rfl
        exact List.mem_filter.2 ⟨hu, by simpa using hud⟩
    · intro c hc u hu
      obtain ⟨e, he, rfl⟩ := List.mem_map.1 hc
      simp only [hentry e he] at hu ⊢
      exact List.count_filter (by simpa using routable_of_goingBy hu)

theorem exists_share_of_mem {what : List UserData} {shares : List Share}
    (h : List.Forall₂ Accounts what shares) {m : UserData} (hm : m ∈ what) :
    ∃ s ∈ shares, Accounts m s := by
  induction h with
  | nil => cases hm
  | cons hacc _ ih =>
    rcases List.mem_cons.1 hm with rfl | hm
    · exact ⟨_, List.mem_cons_self, hacc⟩
    · obtain ⟨s, hs, hs'⟩ := ih hm
      exact ⟨s, List.mem_cons_of_mem _ hs, hs'⟩

theorem forall₂_shareOf {next : Uuid → List Descriptor} {what : List UserData}
    (h : ∀ m ∈ what, ∀ u ∈ m.dataId.routing.uuids, Routable next u) :
    List.Forall₂ Accounts what (what.map (shareOf next)) := by
  rw [List.forall₂_map_right_iff, List.forall₂_same]
  exact fun m hm => shareOf_accounts (h m hm)

theorem routable_of_nothingLost {next : Uuid → List Descriptor}
    {what hasNotRoute : List UserData} {errors : List FailSend}
    (h : NothingLost what errors
      (distributeMsgByDescriptors next what ⟨hasNotRoute, [], errors⟩)) :
    ∀ m ∈ what, ∀ u ∈ m.dataId.routing.uuids, Routable next u := by
  obtain ⟨-, hdata, herr⟩ := distributeMsgByDescriptors_spec next what
    ⟨hasNotRoute, [], errors⟩ List.Pairwise.nil
  obtain ⟨-, shares, hacc, hd, he⟩ := h
  intro m hm u hu
  obtain ⟨s, hs, hms⟩ := exists_share_of_mem hacc hm
  have hreports : shares.flatMap Share.reports = what.flatMap fun m => (shareOf next m).reports :=
    List.append_cancel_left (he.symm.trans herr)
  by_cases hc : ∃ c ∈ s.copies, u ∈ c.2.dataId.routing.uuids
  · obtain ⟨c, hc, huc⟩ := hc
    have hin : c.2 ∈ shares.flatMap fun s => s.dataFor c.1 :=
      List.mem_flatMap.2 ⟨s, hs, List.mem_flatMap.2 ⟨c, hc, by simp⟩⟩
    rw [← hd c.1, hdata c.1] at hin
    simp only [dataFor, List.flatMap_nil, List.nil_append] at hin
    obtain ⟨m', -, hin⟩ := List.mem_flatMap.1 hin
    obtain ⟨c', hc', hin⟩ := List.mem_flatMap.1 hin
    split at hin
    · exact shareOf_copies_routable hc' (List.mem_singleton.1 hin ▸ huc)
    · cases hin
  · have hzero : s.copies.countP (fun c => u ∈ c.2.dataId.routing.uuids) = 0 :=
      List.countP_eq_zero.2 fun c hcs hcu => hc ⟨c, hcs, by simpa using hcu⟩
    have hone := hms.once u hu
    rw [hzero, Nat.zero_add] at hone
    obtain ⟨r, hr, hru⟩ := List.countP_pos_iff.1 (by omega :
      0 < s.reports.countP (fun r => IsSet eNoRoute r ∧ u ∈ r.info.routing.uuids))
    simp only [decide_eq_true_eq] at hru
    have hin : r ∈ shares.flatMap Share.reports := List.mem_flatMap.2 ⟨s, hs, hr⟩
    rw [hreports] at hin
    obtain ⟨m', -, hin⟩ := List.mem_flatMap.1 hin
    exact shareOf_reports_routable hin hru.2

/-- Messages are distributed without loss exactly when every receiver has a descriptor. -/
theorem distribute_nothingLost_iff (next : Uuid → List Descriptor)
    (what hasNotRoute : List UserData) (errors : List FailSend) :
    NothingLost what errors (distributeMsgByDescriptors next what ⟨hasNotRoute, [], errors⟩) ↔
      ∀ m ∈ what, ∀ u ∈ m.dataId.routing.uuids, Routable next u := by
  refine ⟨routable_of_nothingLost, fun h => ?_⟩
  obtain ⟨hsorted, hdata, herr⟩ := distributeMsgByDescriptors_spec next what
    ⟨hasNotRoute, [], errors⟩ List.Pairwise.nil
  refine ⟨hsorted, what.map (shareOf next), forall₂_shareOf h, fun d => ?_, ?_⟩
  · simpa [dataFor, List.flatMap_map] using hdata d
  · simpa [List.flatMap_map] using herr

def packetToSeven : UserData :=
  ⟨⟨1, ['p'], 0, [], [7], [], ⟨⟨5, []⟩, [7]⟩, .default, .little, ⟨⟨0, 0, 0⟩, [1]⟩⟩, []⟩

/-- With no way to its only receiver the packet is reported with an empty routing list. -/
theorem nothingLost_false_of_no_descriptor : ¬ NothingLost [packetToSeven] []
    (distributeMsgByDescriptors (fun _ => []) [packetToSeven] ⟨[], [], []⟩) := by
  intro h
  have hr := routable_of_nothingLost h packetToSeven List.mem_cons_self 7 (by decide)
  exact absurd hr (by decide)

end UdtKernel.Lossless
