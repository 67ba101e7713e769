import UdtKernel.RequiredDG.Run

set_option autoImplicit false

/-! What is recorded of a demand for the nearest ones is their distance, in every run. -/

namespace UdtKernel.RequiredDG
open UdtKernel.Lib UdtKernel.Address

/-- What is recorded for a demand for the nearest ones is their depth. -/
def Exact (swap : SwapHeader) (dg : RequiredDG) : Prop :=
  ∀ r, ∀ d ∈ dg.getDemandFor r, d.flags.nearest = true →
    Live swap dg d ∧ dg.nearestOf r d.handler = leastDepth dg.ids d

/-- When an operation keeps the recorded distances exact: no demand for the nearest ones loses
    the last identifier that conforms to it. -/
def NearestSafe (swap : SwapHeader) (dg : RequiredDG) : Op → Prop
  | .addClient aId => ∀ e ∈ demandsOf dg.dgs, Conformable aId.name e.2 ∧
      (e.2.flags.nearest = true → nameDepth aId.name e.2 ≤ unsignedMax)
  | .removeClient aUuid => Safe swap dg (.removeClient aUuid) ∧
      ∀ e ∈ demandsOf dg.dgs, e.1 ≠ aUuid → e.2.flags.nearest = true →
        depthOf dg.ids e.2 aUuid ≠ 0 →
        ∃ i ∈ (dg.ids.erase aUuid).entries, nameDepth i.2 e.2 ≠ 0
  | .setDemandsDGFor aFor aReqDgs => Safe swap dg (.setDemandsDGFor aFor aReqDgs) ∧
      ∀ d ∈ aReqDgs, d.flags.nearest = true → Live swap dg d

def NearestStepOk (swap : SwapHeader) (dg : RequiredDG) (op : Op) : Prop :=
  Granted dg op ∧ NearestSafe swap dg op

instance (swap : SwapHeader) (dg : RequiredDG) (op : Op) : Decidable (NearestSafe swap dg op) :=
  match op with
  | .addClient _ => inferInstanceAs (Decidable (∀ e ∈ demandsOf dg.dgs, _))
  | .removeClient _ => inferInstanceAs (Decidable (_ ∧ _))
  | .setDemandsDGFor .. => inferInstanceAs (Decidable (_ ∧ _))

instance (swap : SwapHeader) (dg : RequiredDG) (op : Op) : Decidable (NearestStepOk swap dg op) :=
  inferInstanceAs (Decidable (_ ∧ _))

variable {swap : SwapHeader}

theorem leastDepth_pos (aIds : SortedMap Uuid Text) (d : DemandDg) : leastDepth aIds d ≠ 0 := by
  unfold leastDepth
  cases hmin : ((aIds.values.map fun name => nameDepth name d).filter (· ≠ 0)).min? with
  | none => decide
  | some n =>
    obtain ⟨hmem, -⟩ := List.min?_eq_some_iff.1 hmin
    exact (mem_depths.1 hmem).1

/-- The nearest identifiers are those at the least depth. -/
theorem selected_iff {aIds : SortedMap Uuid Text} {d : DemandDg} (hn : d.flags.nearest = true)
    (u : Uuid) :
    Selected aIds d u ↔ depthOf aIds d u ≠ 0 ∧ depthOf aIds d u = leastDepth aIds d := by
  constructor
  · intro h
    exact ⟨h.1, (leastDepth_of_selected hn h).symm⟩
  · rintro ⟨hz, heq⟩
    refine ⟨hz, fun _ v hv => ?_⟩
    obtain ⟨x, hx⟩ := exists_selected hv
    rw [heq, leastDepth_of_selected hn hx]
    exact hx.2 hn v hv

/-- A demand that some identifier conforms to has the right record in every kept table. -/
theorem Kept.recorded {dg : RequiredDG} (hk : Kept swap dg) {r : Uuid} {d : DemandDg}
    (hd : d ∈ dg.getDemandFor r) (hn : d.flags.nearest = true) (hlive : Live swap dg d) {v : Uuid}
    (hv : depthOf dg.ids d v ≠ 0) : dg.nearestOf r d.handler = leastDepth dg.ids d := by
  obtain ⟨u, hu⟩ := exists_selected hv
  rw [hk.nearest r d hd hn hlive u hu, leastDepth_of_selected hn hu]

theorem NearestSafe.safe {dg : RequiredDG} (he : Exact swap dg) {op : Op}
    (h : NearestSafe swap dg op) : Safe swap dg op := by
  cases op with
  | addClient aId =>
    intro e hmem
    refine ⟨(h e hmem).1, fun hn _ _ hnone => ?_⟩
    have hrec := (he e.1 e.2 (mem_demandsOf.1 hmem) hn).2
    rw [hrec, leastDepth_of_none fun u => ?_]
    · exact (h e hmem).2 hn
    · by_contra hu
      obtain ⟨name, hname, hdepth⟩ := mem_of_depthOf hu
      have hz := hnone (u, name) ((SortedMap.mem_entries_iff _ _ _).2 hname)
      exact hu (hdepth.trans hz)
  | removeClient aUuid => exact h.1
  | setDemandsDGFor aFor aReqDgs => exact h.1

theorem apply_exact {dg : RequiredDG} (hk : Kept swap dg) (he : Exact swap dg) {op : Op}
    (hgranted : Granted dg op) (hsafe : NearestSafe swap dg op) :
    ∃ s, apply swap op dg = .ok s ∧ Kept swap s.dg ∧ Exact swap s.dg := by
  have hsafe' := hsafe.safe he
  cases op with
  | addClient aId =>
    obtain ⟨s, hs, hks, hids, hdgs, hgen, hsame, -⟩ := addClient_spec hk hgranted
      (fun r d hd => (hsafe' (r, d) (mem_demandsOf.2 hd)).1)
      (fun r d hd hn hlive hz hnone =>
        (hsafe' (r, d) (mem_demandsOf.2 hd)).2 hn hlive hz (depthOf_all_zero hnone))
    refine ⟨s, hs, hks, fun r d hd hn => ?_⟩
    have hd₀ : d ∈ dg.getDemandFor r := by
      unfold getDemandFor at hd ⊢
      rwa [← hdgs]
    have hlive : Live swap s.dg d := by
      rw [Live, hgen]
      exact (he r d hd₀ hn).1
    refine ⟨hlive, ?_⟩
    by_cases hnone : ∀ v, depthOf s.dg.ids d v = 0
    · have hself := hnone aId.uuid
      rw [hids, depthOf_insert, if_pos rfl] at hself
      have hold : ∀ v, depthOf dg.ids d v = 0 := fun v => by
        have hv := hnone v
        rw [hids, depthOf_insert] at hv
        split_ifs at hv with hvu
        · rw [depthOf, hvu, hgranted]
        · exact hv
      rw [hsame r d hd₀ hself, (he r d hd₀ hn).2, leastDepth_of_none hold,
        leastDepth_of_none hnone]
    · push Not at hnone
      obtain ⟨v, hv⟩ := hnone
      exact hks.recorded hd hn hlive hv
  | removeClient aUuid =>
    obtain ⟨s, hs, hks, hgen, hsame, -⟩ :=
      removeClient_spec hk fun r hr d hd => hsafe' (r, d) (mem_demandsOf.2 hd) hr
    refine ⟨s, hs, hks, fun r d hd hn => ?_⟩
    rcases hsame with ⟨heq, -⟩ | ⟨hids, hsame⟩
    · rw [heq] at hd ⊢
      exact he r d hd hn
    · obtain ⟨hr, hd₀, hsame⟩ := hsame r d hd
      have hlive : Live swap s.dg d := by
        rw [Live, hgen]
        exact (he r d hd₀ hn).1
      refine ⟨hlive, ?_⟩
      by_cases hnone : ∀ v, depthOf s.dg.ids d v = 0
      · have hself : depthOf dg.ids d aUuid = 0 := by
          by_contra hz
          obtain ⟨i, hi, hiz⟩ := hsafe.2 (r, d) (mem_demandsOf.2 hd₀) hr hn hz
          have hi' := hnone i.1
          rw [hids, depthOf, (SortedMap.mem_entries_iff _ i.1 i.2).1 hi] at hi'
          exact hiz hi'
        have hold : ∀ v, depthOf dg.ids d v = 0 := fun v => by
          have hv := hnone v
          rw [hids, depthOf_erase] at hv
          split_ifs at hv with hvu
          · rw [hvu, hself]
          · exact hv
        rw [hsame hself, (he r d hd₀ hn).2, leastDepth_of_none hold, leastDepth_of_none hnone]
      · push Not at hnone
        obtain ⟨v, hv⟩ := hnone
        exact hks.recorded hd hn hlive hv
  | setDemandsDGFor aFor aReqDgs =>
    obtain ⟨s, hs, hks, hids, hgen, hdemand, hrec, -⟩ := setDemandsDGFor_spec hk hgranted
      (fun d hd => (hsafe'  d hd).1) (fun d hd => (hsafe' d hd).2)
    refine ⟨s, hs, hks, fun r d hd hn => ⟨?_, ?_⟩⟩
    · rw [Live, hgen]
      rw [hdemand] at hd
      split_ifs at hd
      · exact hsafe.2 d hd hn
      · exact (he r d hd hn).1
    · rcases hrec r d hd hn with heq | ⟨o, ho, hpl, heq⟩
      · exact heq
      · have hon : o.flags.nearest = true := by rw [plain_flags hpl]; exact hn
        rw [heq, (he r o ho hon).2, hids]
        unfold leastDepth nameDepth
        rw [(plain_eq hpl).1, plain_flags hpl]

theorem runOps_exact {ops : List Op} {dg : RequiredDG} (hk : Kept swap dg) (he : Exact swap dg)
    (h : EveryStep swap (NearestStepOk swap) ops dg) :
    ∃ dg', runOps swap ops dg = .ok dg' ∧ Kept swap dg' ∧ Exact swap dg' := by
  induction ops generalizing dg with
  | nil => exact ⟨dg, rfl, hk, he⟩
  | cons op ops ih =>
    obtain ⟨⟨hgranted, hsafe⟩, hrest⟩ := h
    obtain ⟨s, hs, hks, hes⟩ := apply_exact hk he hgranted hsafe
    obtain ⟨dg', hdg', hk', he'⟩ := ih hks hes (hrest s hs)
    exact ⟨dg', (runOps_cons hs).trans hdg', hk', he'⟩

/-- For every demand for the nearest ones the recorded distance is their depth, and just they
    are registered. -/
theorem runOps_nearest (swap : SwapHeader) (g : Genealogy) (ops : List Op)
    (h : EveryStep swap (NearestStepOk swap) ops (start g)) :
    ∃ dg, runOps swap ops (start g) = .ok dg ∧
      ∀ r, ∀ d ∈ dg.getDemandFor r, d.flags.nearest = true →
        dg.nearestInfo.find (toLex (r, d.handler)) = some (leastDepth dg.ids d) ∧
        msgsOf swap dg.msgsGenealogy d ≠ [] ∧
        ∀ s m, Listed dg s m r d.handler ↔ m ∈ msgsOf swap dg.msgsGenealogy d ∧
          depthOf dg.ids d s ≠ 0 ∧ depthOf dg.ids d s = leastDepth dg.ids d := by
  obtain ⟨dg, hdg, hk, he⟩ := runOps_exact (kept_start g) (fun r d hd => by cases hd) h
  refine ⟨dg, hdg, fun r d hd hn => ⟨?_, (he r d hd hn).1, fun s m => ?_⟩⟩
  · have hrec := (he r d hd hn).2
    unfold nearestOf at hrec
    cases hfind : dg.nearestInfo.find (toLex (r, d.handler)) with
    | none =>
      rw [hfind] at hrec
      exact absurd hrec.symm (leastDepth_pos _ _)
    | some n =>
      rw [hfind] at hrec
      exact congrArg some hrec
  · rw [hk.recomputed, ← selected_iff hn]
    constructor
    · rintro ⟨e, hemem, heh, hsel, hm⟩
      obtain rfl := (hk.lists r).eq_of_handler hemem hd heh
      exact ⟨hm, hsel⟩
    · rintro ⟨hm, hsel⟩
      exact ⟨d, hd, rfl, hsel, hm⟩

theorem runOps_nearest_replace :
    EveryStep noSwap (NearestStepOk noSwap) replaceOps (start .empty) ∧
      ∃ dg, runOps noSwap replaceOps (start .empty) = .ok dg ∧
        ∀ r, ∀ d ∈ dg.getDemandFor r, d.flags.nearest = true →
          dg.nearestInfo.find (toLex (r, d.handler)) = some (leastDepth dg.ids d) ∧
          msgsOf noSwap dg.msgsGenealogy d ≠ [] ∧
          ∀ s m, Listed dg s m r d.handler ↔ m ∈ msgsOf noSwap dg.msgsGenealogy d ∧
            depthOf dg.ids d s ≠ 0 ∧ depthOf dg.ids d s = leastDepth dg.ids d :=
  ⟨by decide, runOps_nearest noSwap .empty replaceOps (by decide)⟩

/-- The last identifier that conforms leaves: what is recorded stays its depth. -/
def lastOps : List Op :=
  [.setDemandsDGFor 1 [demandOf ['s', '@', 'a'] 1 true], .addClient ⟨2, ['s', '@', 'a']⟩,
    .removeClient 2]

theorem nearest_false_of_last_sender :
    EveryStep noSwap Granted lastOps (start .empty) ∧
      ∃ dg, runOps noSwap lastOps (start .empty) = .ok dg ∧
        ∃ d ∈ dg.getDemandFor 1, d.flags.nearest = true ∧
          dg.nearestInfo.find (toLex (1, d.handler)) ≠ some (leastDepth dg.ids d) := by
  refine ⟨by decide, ?_⟩
  have hfinal : (runOps noSwap lastOps (start .empty)).map (fun dg =>
      decide (∃ d ∈ dg.getDemandFor 1, d.flags.nearest = true ∧
        dg.nearestInfo.find (toLex (1, d.handler)) ≠ some (leastDepth dg.ids d))) = .ok true := by
    decide
  cases hrun : runOps noSwap lastOps (start .empty) with
  | error e => rw [hrun] at hfinal; cases hfinal
  | ok dg =>
    rw [hrun] at hfinal
    exact ⟨dg, rfl, of_decide_eq_true (Except.ok.inj hfinal)⟩

end UdtKernel.RequiredDG
