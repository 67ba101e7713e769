import UdtKernel.RequiredDG.RemoveClient

set_option autoImplicit false

/-! The table is what would be computed anew after every run of its operations. -/

namespace UdtKernel.RequiredDG
open UdtKernel.Lib UdtKernel.Address

inductive Op where
  | addClient (aId : Id)
  | removeClient (aUuid : Uuid)
  | setDemandsDGFor (aFor : Uuid) (aReqDgs : List DemandDg)

def apply (swap : SwapHeader) : Op → RequiredDG → Except Abort Patch
  | .addClient aId, dg => addClient swap aId dg
  | .removeClient aUuid, dg => removeClient swap aUuid dg
  | .setDemandsDGFor aFor aReqDgs, dg => setDemandsDGFor swap aFor aReqDgs dg

def runOps (swap : SwapHeader) (ops : List Op) (dg : RequiredDG) : Except Abort RequiredDG :=
  ops.foldlM (fun dg op => do
    let s ← apply swap op dg
    return s.dg) dg

/-- What the callers see to: a client is new, and the demands of one receiver have different
    handlers and are different. -/
def Granted (dg : RequiredDG) : Op → Prop
  | .addClient aId => dg.ids.find aId.uuid = none
  | .removeClient _ => True
  | .setDemandsDGFor _ aReqDgs => ListOk aReqDgs

/-- When an operation does not go wrong. Names can be tested against demands; a new client is
    not farther than what is recorded for a demand without senders; a client that leaves is
    undone in vain for what it is undone for once more; and a demand that is equal to an old one
    is the old one up to its priority. -/
def Safe (swap : SwapHeader) (dg : RequiredDG) : Op → Prop
  | .addClient aId => ∀ e ∈ demandsOf dg.dgs, Conformable aId.name e.2 ∧
      (e.2.flags.nearest = true → Live swap dg e.2 → nameDepth aId.name e.2 ≠ 0 →
        (∀ i ∈ dg.ids.entries, nameDepth i.2 e.2 = 0) →
        nameDepth aId.name e.2 ≤ dg.nearestOf e.1 e.2.handler)
  | .removeClient aUuid => ∀ e ∈ demandsOf dg.dgs, e.1 ≠ aUuid → Selected dg.ids e.2 aUuid →
      2 ≤ (msgsOf swap dg.msgsGenealogy e.2).length → UndoOk swap dg aUuid e.1 e.2
  | .setDemandsDGFor aFor aReqDgs => ∀ d ∈ aReqDgs, AllConformable dg.ids d ∧
      ∀ o ∈ dg.getDemandFor aFor, o.isEqual d = true → plain o = plain d

/-- Every operation of a run is as `P` says of it and the table it is applied to. -/
def EveryStep (swap : SwapHeader) (P : RequiredDG → Op → Prop) : List Op → RequiredDG → Prop
  | [], _ => True
  | op :: ops, dg => P dg op ∧ ∀ s, apply swap op dg = .ok s → EveryStep swap P ops s.dg

def StepOk (swap : SwapHeader) (dg : RequiredDG) (op : Op) : Prop :=
  Granted dg op ∧ Safe swap dg op

instance (ds : List DemandDg) : Decidable (ListOk ds) :=
  decidable_of_iff ((ds.map DemandDg.handler).Nodup ∧ ds.Pairwise fun d e => d.isEqual e = false)
    ⟨fun h => ⟨h.1, h.2⟩, fun h => ⟨h.handlers, h.different⟩⟩

theorem forall_depthOf {aIds : SortedMap Uuid Text} {d : DemandDg} {P : Uuid → ℕ → Prop} :
    (∀ v, depthOf aIds d v ≠ 0 → P v (depthOf aIds d v)) ↔
      ∀ i ∈ aIds.entries, nameDepth i.2 d ≠ 0 → P i.1 (nameDepth i.2 d) := by
  constructor
  · intro h i hi
    have hv := h i.1
    rwa [depthOf, (SortedMap.mem_entries_iff aIds i.1 i.2).1 hi] at hv
  · intro h v hv
    obtain ⟨name, hname, heq⟩ := mem_of_depthOf hv
    rw [heq] at hv ⊢
    exact h (v, name) ((SortedMap.mem_entries_iff aIds v name).2 hname) hv

instance (aIds : SortedMap Uuid Text) (d : DemandDg) (u : Uuid) : Decidable (Selected aIds d u) :=
  decidable_of_iff (depthOf aIds d u ≠ 0 ∧ (d.flags.nearest = true →
      ∀ i ∈ aIds.entries, nameDepth i.2 d ≠ 0 → depthOf aIds d u ≤ nameDepth i.2 d))
    (and_congr_right fun _ => imp_congr_right fun _ =>
      (forall_depthOf (P := fun _ n => depthOf aIds d u ≤ n)).symm)

instance (aIds : SortedMap Uuid Text) (d : DemandDg) : Decidable (AllConformable aIds d) :=
  inferInstanceAs (Decidable (∀ e ∈ aIds.entries, Conformable e.2 d))

instance (swap : SwapHeader) (dg : RequiredDG) (d : DemandDg) : Decidable (Live swap dg d) :=
  inferInstanceAs (Decidable (_ ≠ _))

theorem undoOk_same_iff {dg : RequiredDG} {u : Uuid} {d : DemandDg} :
    (∀ v, Selected (dg.ids.erase u) d v → depthOf dg.ids d v = depthOf dg.ids d u) ↔
      ∀ i ∈ (dg.ids.erase u).entries, Selected (dg.ids.erase u) d i.1 →
        depthOf dg.ids d i.1 = depthOf dg.ids d u := by
  refine ⟨fun h i _ => h i.1, fun h v hsel => ?_⟩
  obtain ⟨name, hname, -⟩ := mem_of_depthOf hsel.1
  exact h (v, name) ((SortedMap.mem_entries_iff _ v name).2 hname) hsel

theorem undoOk_iff {swap : SwapHeader} {dg : RequiredDG} {u r : Uuid} {d : DemandDg} :
    ((d.flags.registrator = true ∨ ∀ e ∈ dg.getDemandFor r, e = d ∨ ¬Selected dg.ids e u ∨
        ∀ m ∈ msgsOf swap dg.msgsGenealogy e, m ∉ msgsOf swap dg.msgsGenealogy d) ∧
      (d.flags.nearest = false ∨ ∀ i ∈ (dg.ids.erase u).entries,
        ¬Selected (dg.ids.erase u) d i.1 ∨ depthOf dg.ids d i.1 = depthOf dg.ids d u)) ↔
      UndoOk swap dg u r d := by
  constructor
  · rintro ⟨halone, hsame⟩
    constructor
    · intro hr e he hne hsel
      have hall := halone.resolve_left (by simp [hr])
      exact ((hall e he).resolve_left hne).resolve_left (not_not_intro hsel)
    · intro hn
      have hall := hsame.resolve_left (by simp [hn])
      exact undoOk_same_iff.2 fun i hi hsel => (hall i hi).resolve_left (not_not_intro hsel)
  · intro h
    constructor
    · by_cases hr : d.flags.registrator = true
      · exact .inl hr
      · refine .inr fun e he => ?_
        by_cases hed : e = d
        · exact .inl hed
        · by_cases hsel : Selected dg.ids e u
          · exact .inr (.inr (h.alone (Bool.eq_false_iff.2 hr) e he hed hsel))
          · exact .inr (.inl hsel)
    · by_cases hn : d.flags.nearest = true
      · refine .inr fun i hi => ?_
        by_cases hsel : Selected (dg.ids.erase u) d i.1
        · exact .inr (undoOk_same_iff.1 (h.same hn) i hi hsel)
        · exact .inl hsel
      · exact .inl (Bool.eq_false_iff.2 hn)

instance (swap : SwapHeader) (dg : RequiredDG) (u r : Uuid) (d : DemandDg) :
    Decidable (UndoOk swap dg u r d) :=
  decidable_of_iff _ undoOk_iff

instance (dg : RequiredDG) (op : Op) : Decidable (Granted dg op) := by
  cases op <;> unfold Granted <;> infer_instance

instance (swap : SwapHeader) (dg : RequiredDG) (op : Op) : Decidable (Safe swap dg op) := by
  cases op <;> unfold Safe <;> infer_instance

instance (swap : SwapHeader) (dg : RequiredDG) (op : Op) : Decidable (StepOk swap dg op) :=
  inferInstanceAs (Decidable (_ ∧ _))

/-- Whether every operation of a run is as `P` says can be computed. -/
instance decidableEveryStep (swap : SwapHeader) (P : RequiredDG → Op → Prop)
    [∀ dg op, Decidable (P dg op)] :
    (ops : List Op) → (dg : RequiredDG) → Decidable (EveryStep swap P ops dg)
  | [], _ => isTrue trivial
  | op :: ops, dg =>
    match happly : apply swap op dg with
    | .error _ => decidable_of_iff (P dg op)
        ⟨fun h => ⟨h, fun s hs => by rw [happly] at hs; cases hs⟩, fun h => h.1⟩
    | .ok s =>
      have := decidableEveryStep swap P ops s.dg
      decidable_of_iff (P dg op ∧ EveryStep swap P ops s.dg)
        ⟨fun h => ⟨h.1, fun s' hs' => by
          rw [happly] at hs'
          exact Except.ok.inj hs' ▸ h.2⟩, fun h => ⟨h.1, h.2 s happly⟩⟩

variable {swap : SwapHeader}

theorem depthOf_all_zero {aIds : SortedMap Uuid Text} {d : DemandDg}
    (h : ∀ v, depthOf aIds d v = 0) : ∀ i ∈ aIds.entries, nameDepth i.2 d = 0 := fun i hi => by
  have hv := h i.1
  rwa [depthOf, (SortedMap.mem_entries_iff aIds i.1 i.2).1 hi] at hv

/-- What one operation keeps, and what it reports. -/
theorem apply_spec {dg : RequiredDG} (hk : Kept swap dg) {op : Op} (hgranted : Granted dg op)
    (hsafe : Safe swap dg op) : ∃ s, apply swap op dg = .ok s ∧ Kept swap s.dg ∧
      s.dg.msgsGenealogy = dg.msgsGenealogy ∧ Reports dg s := by
  cases op with
  | addClient aId =>
    obtain ⟨s, hs, hks, -, -, hgen, -, hrep⟩ := addClient_spec hk hgranted
      (fun r d hd => (hsafe (r, d) (mem_demandsOf.2 hd)).1)
      (fun r d hd hn hlive hz hnone =>
        (hsafe (r, d) (mem_demandsOf.2 hd)).2 hn hlive hz (depthOf_all_zero hnone))
    exact ⟨s, hs, hks, hgen, hrep⟩
  | removeClient aUuid =>
    obtain ⟨s, hs, hks, hgen, -, hrep⟩ :=
      removeClient_spec hk fun r hr d hd => hsafe (r, d) (mem_demandsOf.2 hd) hr
    exact ⟨s, hs, hks, hgen, hrep⟩
  | setDemandsDGFor aFor aReqDgs =>
    obtain ⟨s, hs, hks, -, hgen, -, -, hrep⟩ := setDemandsDGFor_spec hk hgranted
      (fun d hd => (hsafe d hd).1) (fun d hd => (hsafe d hd).2)
    exact ⟨s, hs, hks, hgen, hrep⟩

theorem kept_start (g : Genealogy) : Kept swap (start g) := by
  refine ⟨fun r => listOk_nil, fun r d hd => ?_,
    fun s m r => ⟨[], List.nodup_nil, fun d => ?_, rfl⟩, fun r d hd => ?_⟩
  · cases hd
  · constructor
    · rintro ⟨⟩
    · rintro ⟨⟨d, hd, -⟩, -⟩
      cases hd
  · cases hd

theorem runOps_cons {op : Op} {ops : List Op} {dg : RequiredDG} {s : Patch}
    (h : apply swap op dg = .ok s) : runOps swap (op :: ops) dg = runOps swap ops s.dg := by
  rw [runOps, List.foldlM_cons, h]
  rfl

/-- What a run keeps. -/
theorem runOps_spec {ops : List Op} {dg : RequiredDG} (hk : Kept swap dg)
    (h : EveryStep swap (StepOk swap) ops dg) :
    ∃ dg', runOps swap ops dg = .ok dg' ∧ Kept swap dg' ∧
      dg'.msgsGenealogy = dg.msgsGenealogy := by
  induction ops generalizing dg with
  | nil => exact ⟨dg, rfl, hk, rfl⟩
  | cons op ops ih =>
    obtain ⟨⟨hgranted, hsafe⟩, hrest⟩ := h
    obtain ⟨s, hs, hks, hgen, -⟩ := apply_spec hk hgranted hsafe
    obtain ⟨dg', hdg', hk', hgen'⟩ := ih hks (hrest s hs)
    exact ⟨dg', (runOps_cons hs).trans hdg', hk', hgen'.trans hgen⟩

/-- A handler of a receiver is listed for a sender and a message. -/
def Listed (dg : RequiredDG) (s : Uuid) (m : Msg) (r : Uuid) (h : ℕ) : Prop :=
  ∃ c, dg.cell s m r = some c ∧ h ∈ c.handlers

/-- The table is what is computed from the identifiers and the demands alone. -/
def Recomputed (swap : SwapHeader) (dg : RequiredDG) : Prop :=
  ∀ s m r h, Listed dg s m r h ↔ ∃ d ∈ dg.getDemandFor r, d.handler = h ∧
    Selected dg.ids d s ∧ m ∈ msgsOf swap dg.msgsGenealogy d

theorem Kept.recomputed {dg : RequiredDG} (hk : Kept swap dg) : Recomputed swap dg := by
  intro s m r h
  constructor
  · rintro ⟨c, hc, hh⟩
    exact hk.cell_handler hc hh
  · rintro ⟨d, hd, rfl, hsel, hm⟩
    exact hk.handler_mem hd hsel hm

/-- The patched table is the recomputed one, so that it depends on the final identifiers and
    demands only. -/
theorem runOps_recomputed (swap : SwapHeader) (g : Genealogy) (ops : List Op)
    (h : EveryStep swap (StepOk swap) ops (start g)) :
    ∃ dg, runOps swap ops (start g) = .ok dg ∧ Recomputed swap dg ∧
      ∀ ops' dg', EveryStep swap (StepOk swap) ops' (start g) →
        runOps swap ops' (start g) = .ok dg' → dg'.ids = dg.ids → dg'.dgs = dg.dgs →
        ∀ s m r h, Listed dg' s m r h ↔ Listed dg s m r h := by
  obtain ⟨dg, hdg, hk, hgen⟩ := runOps_spec (kept_start g) h
  refine ⟨dg, hdg, hk.recomputed, fun ops' dg' h' hdg' hids hdgs s m r k => ?_⟩
  obtain ⟨dg'', hdg'', hk'', hgen''⟩ := runOps_spec (kept_start g) h'
  obtain rfl := Except.ok.inj (hdg'.symm.trans hdg'')
  rw [hk''.recomputed, hk.recomputed, hids, hgen, hgen'']
  unfold getDemandFor
  rw [hdgs]

def demandOf (aNameFrom : Text) (aHandler : ℕ) (isNearest : Bool) : DemandDg :=
  { handlerPriority := 0
    what := ⟨⟨0, 0, 0⟩, [1]⟩
    nameFrom := aNameFrom
    uuidFrom := none
    protocol := ['p']
    handler := aHandler
    flags := ⟨false, false, false, false, isNearest, false⟩ }

def noSwap : SwapHeader := fun _ _ => none

def replaceOps : List Op :=
  [.setDemandsDGFor 1 [demandOf ['s', '@', 'a'] 1 true, demandOf ['s'] 2 false],
    .addClient ⟨2, ['s', '@', 'a']⟩, .addClient ⟨3, ['s', '@', 'a', '.', 'b']⟩, .removeClient 2,
    .setDemandsDGFor 1 [demandOf ['s', '@', 'a'] 1 true]]

theorem runOps_recomputed_replace :
    EveryStep noSwap (StepOk noSwap) replaceOps (start .empty) ∧
      ∃ dg, runOps noSwap replaceOps (start .empty) = .ok dg ∧ Recomputed noSwap dg ∧
        ∀ ops' dg', EveryStep noSwap (StepOk noSwap) ops' (start .empty) →
          runOps noSwap ops' (start .empty) = .ok dg' → dg'.ids = dg.ids → dg'.dgs = dg.dgs →
          ∀ s m r h, Listed dg' s m r h ↔ Listed dg s m r h :=
  ⟨by decide, runOps_recomputed noSwap .empty replaceOps (by decide)⟩

/-- The only sender leaves, and a farther one comes: what is recorded stays that of the first. -/
def staleOps : List Op :=
  [.setDemandsDGFor 1 [demandOf ['s', '@', 'a'] 1 true], .addClient ⟨2, ['s', '@', 'a']⟩,
    .removeClient 2, .addClient ⟨3, ['s', '@', 'a', '.', 'b']⟩]

theorem recomputed_false_of_stale_record :
    EveryStep noSwap Granted staleOps (start .empty) ∧
      ∃ dg, runOps noSwap staleOps (start .empty) = .ok dg ∧ ¬ Recomputed noSwap dg := by
  refine ⟨by decide, ?_⟩
  have hfinal : (runOps noSwap staleOps (start .empty)).map (fun dg =>
      (dg.cell 3 (['p'], [1]) 1).isNone && decide (∃ d ∈ dg.getDemandFor 1, d.handler = 1 ∧
        Selected dg.ids d 3 ∧ (['p'], [1]) ∈ msgsOf noSwap dg.msgsGenealogy d)) = .ok true := by
    decide
  cases hrun : runOps noSwap staleOps (start .empty) with
  | error e => rw [hrun] at hfinal; cases hfinal
  | ok dg =>
    rw [hrun] at hfinal
    have hboth := Except.ok.inj hfinal
    rw [Bool.and_eq_true, Option.isNone_iff_eq_none, decide_eq_true_eq] at hboth
    refine ⟨dg, rfl, fun hrec => ?_⟩
    obtain ⟨c, hc, -⟩ := (hrec 3 (['p'], [1]) 1 1).2 hboth.2
    rw [hboth.1] at hc
    cases hc

/-- What is reported of an operation is the change that it makes. -/
theorem runOps_reports (swap : SwapHeader) (g : Genealogy) (ops : List Op) (dg : RequiredDG)
    (h : EveryStep swap (StepOk swap) ops (start g))
    (hrun : runOps swap ops (start g) = .ok dg) (op : Op) (hop : StepOk swap dg op) :
    ∃ s, apply swap op dg = .ok s ∧
      (real dg \ triples s.removed) ∪ triples s.new = real s.dg ∧
      (∀ t ∈ triples s.new, t ∈ real dg → t ∈ triples s.removed) ∧
      triples s.removed ⊆ real dg := by
  obtain ⟨dg', hdg', hk, -⟩ := runOps_spec (kept_start g) h
  obtain rfl := Except.ok.inj (hrun.symm.trans hdg')
  obtain ⟨s, hs, -, -, s₁, ⟨-, hnew, x, hx, hold, hreal⟩, -, hremoved, y, hy, hadded, hreal'⟩ :=
    apply_spec hk hop.1 hop.2
  have hold' : triples s.removed = x := by
    rw [hremoved, hold, triples_empty, Set.empty_union]
  have hadded' : triples s.new = y := by
    rw [hadded, hnew, triples_empty, Set.empty_union]
  refine ⟨s, hs, ?_, fun t ht hdg => ?_, ?_⟩
  · rw [hold', hadded', hreal', hreal]
  · rw [hold']
    rw [hadded'] at ht
    by_contra hnot
    exact Set.disjoint_left.1 hy ht (hreal ▸ ⟨hdg, hnot⟩)
  · rw [hold']
    exact hx

def tableOf (swap : SwapHeader) (g : Genealogy) (ops : List Op) : RequiredDG :=
  match runOps swap ops (start g) with
  | .ok dg => dg
  | .error _ => start g

theorem runOps_reports_replace :
    ∃ s, apply noSwap (.removeClient 3) (tableOf noSwap .empty replaceOps) = .ok s ∧
      (real (tableOf noSwap .empty replaceOps) \ triples s.removed) ∪ triples s.new = real s.dg ∧
      (∀ t ∈ triples s.new, t ∈ real (tableOf noSwap .empty replaceOps) →
        t ∈ triples s.removed) ∧
      triples s.removed ⊆ real (tableOf noSwap .empty replaceOps) :=
  runOps_reports noSwap .empty replaceOps _ (by decide) rfl (.removeClient 3) (by decide)

/-- A demand gets another handler, which `operator==` does not look at. -/
def renamedOps : List Op :=
  [.addClient ⟨2, ['s']⟩, .setDemandsDGFor 1 [demandOf ['s'] 1 false],
    .setDemandsDGFor 1 [demandOf ['s'] 2 false]]

theorem reports_false_of_renamed_handler :
    EveryStep noSwap Granted renamedOps (start .empty) ∧
      ∃ dg s, runOps noSwap renamedOps (start .empty) = .ok dg ∧
        apply noSwap (.removeClient 2) dg = .ok s ∧
        (real dg \ triples s.removed) ∪ triples s.new ≠ real s.dg := by
  refine ⟨by decide, ?_⟩
  have hfinal : (do
      let dg ← runOps noSwap renamedOps (start .empty)
      let s ← apply noSwap (.removeClient 2) dg
      return (((dg.cell 2 (['p'], [1]) 1).map MsgHandlers.real, (s.removed.find 2).isNone),
        (s.dg.cell 2 (['p'], [1]) 1).isNone)) = Except.ok ((some 1, true), true) := by
    decide
  cases hrun : runOps noSwap renamedOps (start .empty) with
  | error e => rw [hrun] at hfinal; cases hfinal
  | ok dg =>
    cases hs : apply noSwap (.removeClient 2) dg with
    | error e => simp [hrun, hs, bind, Except.bind] at hfinal
    | ok s =>
      simp only [hrun, hs, bind, Except.bind, pure, Except.pure, Except.ok.injEq, Prod.mk.injEq,
        Option.map_eq_some_iff, Option.isNone_iff_eq_none] at hfinal
      obtain ⟨⟨⟨c, hc, hreal⟩, hremoved⟩, hafter⟩ := hfinal
      refine ⟨dg, s, rfl, hs, fun heq => ?_⟩
      have hmem : (⟨2, 1, (['p'], [1])⟩ : Triple) ∈ real s.dg := by
        rw [← heq]
        refine .inl ⟨⟨c, hc, hreal ▸ Nat.one_pos⟩, ?_⟩
        rintro ⟨ds, hds, -⟩
        rw [hremoved] at hds
        cases hds
      obtain ⟨c', hc', -⟩ := hmem
      rw [hafter] at hc'
      cases hc'

end UdtKernel.RequiredDG
