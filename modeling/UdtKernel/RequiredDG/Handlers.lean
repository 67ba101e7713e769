import UdtKernel.RequiredDG.Priorities
import UdtKernel.RequiredDG.Run

set_option autoImplicit false

/-! Every row of the table lists the handlers with the priorities of their demands. -/

namespace UdtKernel.RequiredDG
open UdtKernel.Lib

variable {swap : SwapHeader}

/-- A handler is listed for a message with the priority that its demand has for it. -/
def rankOf (swap : SwapHeader) (g : Genealogy) (aDemands : Uuid → List DemandDg) :
    Uuid → Msg → ℕ → ℕ → Prop := fun r m h p =>
  ∃ d ∈ aDemands r, d.handler = h ∧ ∃ e ∈ covered swap g d, e.msg = m ∧ e.handlerPriority = p

theorem rankOk_of_mem {g : Genealogy} {D : Uuid → List DemandDg} {r : Uuid} {d : DemandDg}
    (hd : d ∈ D r) : RankOk swap g (rankOf swap g D) r d :=
  fun e he => ⟨d, hd, (covered_same he).1.symm, e, he, rfl, rfl⟩

/-- Every handler is listed with the priority of its demand. -/
def Prioritized (swap : SwapHeader) (dg : RequiredDG) : Prop :=
  Ranked dg.msgsGenealogy (rankOf swap dg.msgsGenealogy dg.getDemandFor) dg

/-- Demands that a receiver does not have any more have no handler left. -/
theorem Kept.prioritized {dg : RequiredDG} {g : Genealogy} (hk : Kept swap dg)
    {D : Uuid → List DemandDg} (hlists : ∀ r, ListOk (D r))
    (hsub : ∀ r, ∀ d ∈ dg.getDemandFor r, d ∈ D r)
    (h : Ranked g (rankOf swap g D) dg) : Prioritized swap dg := by
  have hgen := h.msgsGenealogy
  refine ⟨rfl, fun s m r c hc k p hp => ?_⟩
  obtain ⟨d, hd, hdk, e, he, hem, hep⟩ := h.pairs s m r c hc k p hp
  obtain ⟨d', hd', hdk', -⟩ := hk.cell_handler hc hp.mem
  obtain rfl := (hlists r).eq_of_handler hd (hsub r d' hd') (hdk.trans hdk'.symm)
  exact ⟨d, hd', hdk, e, by rw [hgen]; exact he, hem, hep⟩

theorem takeIntoAccount_from {D : Uuid → List DemandDg} {u : Uuid} (added removed : List WayInfo)
    {dg : RequiredDG} (hadded : ∀ w ∈ added, w.what ∈ D w.for_)
    (hremoved : ∀ w ∈ removed, w.what ∈ D w.for_) :
    Outcome (fun _ => True) (fun res => (∀ w ∈ res.1, w.what ∈ D w.for_) ∧ Recorded dg res.2.2)
      (takeIntoAccountOnlyNearestSendersIfNeed u added removed dg) := by
  unfold takeIntoAccountOnlyNearestSendersIfNeed
  refine Outcome.bind (removeSenderIfNeed_from added dg) ?_
  rintro ⟨added', evicted, dg₁⟩ ⟨hadded', hrec₁⟩
  refine Outcome.bind (addSenderIfNeed_from u removed dg₁) ?_
  rintro ⟨promoted, dg₂⟩ ⟨hpromoted, hrec₂⟩
  refine ⟨fun w hw => ?_, hrec₁.trans hrec₂⟩
  rcases List.mem_append.1 hw with hw | hw
  · exact hadded w (hadded' w hw)
  · obtain ⟨x, hx, hf, hwhat⟩ := hpromoted w hw
    rw [hf, hwhat]
    exact hremoved x hx

theorem addReceiversOfMsgsFrom_ranked {dg : RequiredDG} (aId : Id) (h : Prioritized swap dg) :
    Outcome (fun _ => True)
      (fun s => Ranked dg.msgsGenealogy (rankOf swap dg.msgsGenealogy dg.getDemandFor) s.dg)
      (addReceiversOfMsgsFrom swap aId ⟨dg, .empty, .empty⟩) := by
  unfold addReceiversOfMsgsFrom
  refine Outcome.bind (P := fun ws => ∀ w ∈ ws, w.what ∈ dg.getDemandFor w.for_) ?_ fun ws hws => ?_
  · unfold getListOfReceiversOfMsgsFrom
    refine Outcome.bind (getDistance_from aId dg.dgs) fun ws hws => ?_
    exact fun w hw => hws w (List.mem_filter.1 hw).1
  · refine Outcome.bind (takeIntoAccount_from ws [] hws (by simp)) ?_
    rintro ⟨added, removed, dg₁⟩ ⟨hadded, hrec⟩
    exact updateSendInfoFor_ranked (hrec.ranked h) fun w hw => rankOk_of_mem (hadded w hw)

theorem addClient_ranked {dg : RequiredDG} (aId : Id) (h : Prioritized swap dg) :
    Outcome (fun _ => True)
      (fun s => Ranked dg.msgsGenealogy (rankOf swap dg.msgsGenealogy dg.getDemandFor) s.dg)
      (addClient swap aId dg) := by
  refine Outcome.bind (addReceiversOfMsgsFrom_ranked aId h) fun s hs => ?_
  split_ifs
  · exact True.intro
  · exact hs.congr rfl fun _ _ _ => rfl

theorem sentTo_subset {dg : RequiredDG} {u r : Uuid} {d : DemandDg} (h : d ∈ dg.sentTo u r) :
    d ∈ dg.getDemandFor r := by
  obtain ⟨x, -, hd⟩ := List.mem_flatMap.1 h
  split_ifs at hd
  · obtain ⟨k, -, hfind⟩ := List.mem_filterMap.1 hd
    exact List.mem_of_find?_eq_some hfind
  · cases hd

theorem removeAllReceiversForMsgsFrom_ranked {g : Genealogy} {D : Uuid → List DemandDg} (aFrom : Id)
    {s : Patch} (h : Ranked g (rankOf swap g D) s.dg)
    (hsub : ∀ r, ∀ d ∈ s.dg.getDemandFor r, d ∈ D r) :
    Outcome (fun _ => True) (fun s' => Ranked g (rankOf swap g D) s'.dg)
      (removeAllReceiversForMsgsFrom swap aFrom s) := by
  rw [removeAllReceiversForMsgsFrom_eq]
  refine Outcome.bind (getDistance_from aFrom _) fun ws hws => ?_
  have hways : ∀ w ∈ ws, w.what ∈ D w.for_ := fun w hw => by
    have hw := hws w hw
    rw [getWhatMsgSentFrom_find] at hw
    exact hsub _ _ (sentTo_subset hw)
  refine Outcome.bind (takeIntoAccount_from [] ws (by simp) hways) ?_
  rintro ⟨added, removed, dg₁⟩ ⟨hadded, hrec⟩
  refine Outcome.bind (updateSendInfoFor_ranked (hrec.ranked h) fun w hw =>
    rankOk_of_mem (hadded w hw)) fun s' hs' => ?_
  refine Outcome.ok ⟨hs'.msgsGenealogy, fun v m r c hc => hs'.pairs v m r c ?_⟩
  unfold cell expectedFor at hc ⊢
  dsimp only at hc
  rw [SortedMap.find_erase] at hc
  split_ifs at hc
  · cases hc
  · exact hc

theorem removeAllSendersOfMsgsFor_ranked {g : Genealogy} {P : Uuid → Msg → ℕ → ℕ → Prop}
    (swap : SwapHeader) {s : Patch} (u : Uuid) (h : Ranked g P s.dg) :
    Outcome (fun _ => True) (fun s' => Ranked g P s'.dg) (removeAllSendersOfMsgsFor swap u s) := by
  unfold removeAllSendersOfMsgsFor
  cases s.dg.dgs.find u with
  | none => exact h
  | some ds => exact removeSendersOfMsgFor_ranked swap u ds (h.congr rfl fun _ _ _ => rfl)

theorem removeClient_ranked {dg : RequiredDG} (hk : Kept swap dg) (u : Uuid)
    (h : Prioritized swap dg) : Outcome (fun _ => True)
      (fun s => Ranked dg.msgsGenealogy (rankOf swap dg.msgsGenealogy dg.getDemandFor) s.dg)
      (removeClient swap u dg) := by
  unfold removeClient
  cases dg.ids.find u with
  | none => exact h
  | some name =>
    dsimp only
    split_ifs
    · obtain ⟨s₁, hs₁, -, -, -, hdemand, -⟩ :=
        removeAllSendersOfMsgsFor_spec (s := ⟨dg, .empty, .empty⟩) hk u
      have hranked := removeAllSendersOfMsgsFor_ranked swap
        (s := ⟨dg, .empty, .empty⟩) u h
      rw [hs₁] at hranked ⊢
      change Outcome _ _ (removeAllReceiversForMsgsFrom swap ⟨u, name⟩ s₁ >>= _)
      refine Outcome.bind (removeAllReceiversForMsgsFrom_ranked ⟨u, name⟩ hranked fun r d hd => ?_)
        fun s hs => Outcome.ok (hs.congr rfl fun _ _ _ => rfl)
      rw [hdemand] at hd
      split_ifs at hd
      · cases hd
      · exact hd
    · exact h

/-- A handler of a cell stands for a demand that is sent for. -/
theorem CellsOk.cell_handler {dg : RequiredDG} {G : Regs} (h : CellsOk swap dg G) {s r : Uuid}
    {m : Msg} {c : MsgHandlers} (hc : dg.cell s m r = some c) {k : ℕ} (hk : k ∈ c.handlers) :
    ∃ e, G s r e ∧ e.handler = k := by
  obtain ⟨ds, -, hmem, hok⟩ := h s m r
  rw [hc] at hok
  obtain ⟨e, he, rfl⟩ := List.mem_map.1 (hok.2.1.subset hk)
  exact ⟨e, ((hmem e).1 he).1, rfl⟩

/-- `setDemandsDGFor`, when the demands that are not new have the priorities that they had. -/
theorem setDemandsDGFor_prioritized {dg : RequiredDG} (hk : Kept swap dg) {r : Uuid}
    {new : List DemandDg} (hlist : ListOk new)
    (hsame : ∀ d ∈ new, ∀ o ∈ dg.getDemandFor r, o.isEqual d = true → o = d)
    (h : Prioritized swap dg) {s : Patch} (hs : setDemandsDGFor swap r new dg = .ok s)
    (hks : Kept swap s.dg)
    (hdemand : ∀ r', s.dg.getDemandFor r' = if r' = r then new else dg.getDemandFor r') :
    Prioritized swap s.dg := by
  by_cases hnil : new = []
  · have hranked := removeAllSendersOfMsgsFor_ranked swap (s := ⟨dg, .empty, .empty⟩) r h
    rw [setDemandsDGFor, if_pos hnil] at hs
    rw [hs] at hranked
    refine hks.prioritized hk.lists (fun r' d hd => ?_) hranked
    rw [hdemand, hnil] at hd
    split_ifs at hd
    · cases hd
    · exact hd
  rw [setDemandsDGFor_eq hk hlist hnil] at hs
  generalize hold : dg.getDemandFor r = old at hsame hs
  generalize hR : (old.filter fun o => !new.any fun d => o.isEqual d) = R at hs
  have hmemR : ∀ o, o ∈ R ↔ o ∈ old ∧ ∀ d ∈ new, o.isEqual d = false := fun o => by
    rw [← hR, List.mem_filter, Bool.not_eq_true', List.any_eq_false]
    simp
  let dg₀ : RequiredDG := { dg with dgs := dg.dgs.insert r new }
  have hcells₀ : CellsOk swap dg₀ (target dg) :=
    hk.cells.congr rfl (fun _ _ _ => rfl) fun _ _ _ _ => Iff.rfl
  obtain ⟨s₁, hs₁, -, hcells₁, -⟩ := removeSendersOfMsgFor_spec R
    (s := ⟨dg₀, .empty, .empty⟩) (r := r) hcells₀
    (fun d hd => hk.conformable r d (hold ▸ ((hmemR d).1 hd).1))
    (fun d hd u hsel => ⟨d, hold ▸ ((hmemR d).1 hd).1, rfl, hsel⟩)
    (hR ▸ ((hold ▸ hk.lists r : ListOk old).filter _).plain_ne)
  have hranked₁ : Ranked dg.msgsGenealogy (rankOf swap dg.msgsGenealogy dg.getDemandFor) s₁.dg := by
    have hranked := removeSendersOfMsgFor_ranked swap r R
      (s := ⟨dg₀, .empty, .empty⟩) (h.congr rfl fun _ _ _ => rfl)
    rwa [hs₁] at hranked
  -- what is left of the receiver is also among the new demands
  have hranked₂ :
      Ranked dg.msgsGenealogy (rankOf swap dg.msgsGenealogy s.dg.getDemandFor) s₁.dg := by
    refine ⟨hranked₁.msgsGenealogy, fun u m r' c hc k p hp => ?_⟩
    obtain ⟨o, ho, hok, hcov⟩ := hranked₁.pairs u m r' c hc k p hp
    refine ⟨o, ?_, hok, hcov⟩
    rw [hdemand]
    split_ifs with hr
    · obtain ⟨e, ⟨⟨x, hx, rfl, hsel⟩, hnot⟩, hek⟩ := hcells₁.cell_handler hc hp.mem
      obtain rfl := (hk.lists r').eq_of_handler hx ho ((show x.handler = k from hek).trans hok.symm)
      by_contra hnew
      refine hnot ⟨hr, x, (hmemR x).2 ⟨?_, fun d hd => ?_⟩, rfl, hsel⟩
      · rw [← hold, ← hr]
        exact hx
      · rw [Bool.eq_false_iff]
        intro heq
        rw [hr, hold] at hx
        rw [hsame d hd x hx heq] at hnew
        exact hnew hd
    · exact ho
  have hadd := addSendersOfMsgFor_ranked swap r
    (new.filter fun d => !old.any fun o => o.isEqual d) hranked₂ fun d hd => by
      refine rankOk_of_mem ?_
      rw [hdemand, if_pos rfl]
      exact (List.mem_filter.1 hd).1
  rw [hs₁] at hs
  change addSendersOfMsgFor swap r _ s₁ = .ok s at hs
  rw [hs] at hadd
  exact hks.prioritized hks.lists (fun r' d hd => hd) hadd

/-- A demand that is equal to an old one has its priority. -/
def SamePriority (dg : RequiredDG) : Op → Prop
  | .setDemandsDGFor aFor aReqDgs => ∀ d ∈ aReqDgs, ∀ o ∈ dg.getDemandFor aFor,
      o.isEqual d = true → o.handlerPriority = d.handlerPriority
  | _ => True

def HandlerStepOk (swap : SwapHeader) (dg : RequiredDG) (op : Op) : Prop :=
  StepOk swap dg op ∧ SamePriority dg op

instance (dg : RequiredDG) (op : Op) : Decidable (SamePriority dg op) :=
  match op with
  | .addClient _ | .removeClient _ => isTrue trivial
  | .setDemandsDGFor _ aReqDgs => inferInstanceAs (Decidable (∀ d ∈ aReqDgs, _))

instance (swap : SwapHeader) (dg : RequiredDG) (op : Op) : Decidable (HandlerStepOk swap dg op) :=
  inferInstanceAs (Decidable (_ ∧ _))

theorem eq_of_plain_priority {d e : DemandDg} (h : plain d = plain e)
    (hp : d.handlerPriority = e.handlerPriority) : d = e := by
  have hd : d = { plain d with handlerPriority := d.handlerPriority } := rfl
  rw [hd, h, hp]
  rfl

theorem apply_prioritized {dg : RequiredDG} (hk : Kept swap dg) (hp : Prioritized swap dg) {op : Op}
    (hop : HandlerStepOk swap dg op) : ∃ s, apply swap op dg = .ok s ∧ Kept swap s.dg ∧
      Prioritized swap s.dg ∧ (Counted dg → Counted s.dg) := by
  obtain ⟨⟨hgranted, hsafe⟩, hsame⟩ := hop
  obtain ⟨s, hs, hks, -, s₁, hloses, hgains⟩ := apply_spec hk hgranted hsafe
  refine ⟨s, hs, hks, ?_, hgains.1 ∘ hloses.1⟩
  cases op with
  | addClient aId =>
    obtain ⟨s', hs', -, -, hdgs, -⟩ := addClient_spec hk hgranted
      (fun r d hd => (hsafe (r, d) (mem_demandsOf.2 hd)).1)
      (fun r d hd hn hlive hz hnone =>
        (hsafe (r, d) (mem_demandsOf.2 hd)).2 hn hlive hz (depthOf_all_zero hnone))
    obtain rfl := Except.ok.inj (hs.symm.trans hs')
    have hranked := addClient_ranked aId hp
    rw [hs'] at hranked
    refine hks.prioritized hk.lists (fun r d hd => ?_) hranked
    unfold getDemandFor at hd ⊢
    rwa [← hdgs]
  | removeClient aUuid =>
    obtain ⟨s', hs', -, -, hdemand, -⟩ :=
      removeClient_spec hk fun r hr d hd => hsafe (r, d) (mem_demandsOf.2 hd) hr
    obtain rfl := Except.ok.inj (hs.symm.trans hs')
    have hranked := removeClient_ranked hk aUuid hp
    rw [hs'] at hranked
    refine hks.prioritized hk.lists (fun r d hd => ?_) hranked
    rcases hdemand with ⟨heq, -⟩ | ⟨-, hdemand⟩
    · rwa [heq] at hd
    · exact (hdemand r d hd).2.1
  | setDemandsDGFor aFor aReqDgs =>
    obtain ⟨s', hs', -, -, -, hdemand, -⟩ := setDemandsDGFor_spec hk hgranted
      (fun d hd => (hsafe d hd).1) (fun d hd => (hsafe d hd).2)
    obtain rfl := Except.ok.inj (hs.symm.trans hs')
    exact setDemandsDGFor_prioritized hk hgranted (fun d hd o ho heq =>
      eq_of_plain_priority ((hsafe d hd).2 o ho heq) (hsame d hd o ho heq)) hp hs' hks hdemand

theorem runOps_prioritized {ops : List Op} {dg : RequiredDG} (hk : Kept swap dg)
    (hp : Prioritized swap dg) (hc : Counted dg) (h : EveryStep swap (HandlerStepOk swap) ops dg) :
    ∃ dg', runOps swap ops dg = .ok dg' ∧ Kept swap dg' ∧ Prioritized swap dg' ∧ Counted dg' := by
  induction ops generalizing dg with
  | nil => exact ⟨dg, rfl, hk, hp, hc⟩
  | cons op ops ih =>
    obtain ⟨hop, hrest⟩ := h
    obtain ⟨s, hs, hks, hps, hcs⟩ := apply_prioritized hk hp hop
    obtain ⟨dg', hdg', hkept⟩ := ih hks hps (hcs hc) (hrest s hs)
    exact ⟨dg', (runOps_cons hs).trans hdg', hkept⟩

structure RowOk (swap : SwapHeader) (dg : RequiredDG) (m : Msg) (r : Uuid) (c : MsgHandlers) :
    Prop where
  nodup : c.handlers.Nodup
  sameLength : c.handlers.length = c.priorities.length
  sorted : c.priorities.Pairwise (· ≤ ·)
  described : ∀ (i h p : ℕ), c.handlers[i]? = some h → c.priorities[i]? = some p →
    ∃ d ∈ dg.getDemandFor r, d.handler = h ∧
      ∃ e ∈ covered swap dg.msgsGenealogy d, e.msg = m ∧ e.handlerPriority = p
  real : c.real = c.handlers.countP fun h =>
    (dg.getDemandFor r).any fun d => decide (d.handler = h) && !d.flags.registrator
  nonempty : c.handlers ≠ []

theorem Kept.rowOk {dg : RequiredDG} (hk : Kept swap dg) (hp : Prioritized swap dg) {s r : Uuid}
    {m : Msg} {c : MsgHandlers} (hc : dg.cell s m r = some c) : RowOk swap dg m r c := by
  refine ⟨hk.handlers_nodup hc, c.sameLength, c.sorted,
    fun i h p hh hpr => hp.pairs s m r c hc h p ⟨i, hh, hpr⟩, ?_, ?_⟩
  · obtain ⟨ds, -, hmem, hok⟩ := hk.cells s m r
    rw [hc] at hok
    obtain ⟨-, hperm, hreal⟩ := hok
    rw [hreal, hperm.countP_eq, List.countP_map]
    refine List.countP_congr fun x hx => ?_
    obtain ⟨⟨d, hd, rfl, -⟩, -⟩ := (hmem x).1 hx
    simp only [Function.comp_apply, Bool.not_eq_true', List.any_eq_true, Bool.and_eq_true,
      decide_eq_true_eq]
    constructor
    · exact fun hreg => ⟨d, hd, rfl, hreg⟩
    · rintro ⟨e, he, heh, hreg⟩
      rwa [(hk.lists r).eq_of_handler he hd heh] at hreg
  · obtain ⟨ds, -, -, hok⟩ := hk.cells s m r
    rw [hc] at hok
    intro hnil
    have hperm := hok.2.1
    rw [hnil] at hperm
    exact hok.1 (List.map_eq_nil_iff.1 (List.nil_perm.1 hperm))

/-- The handlers of every receiver are as they should be, and every number of real receivers is
    the sum over them. -/
theorem runOps_rowOk (swap : SwapHeader) (g : Genealogy) (ops : List Op)
    (h : EveryStep swap (HandlerStepOk swap) ops (start g)) :
    ∃ dg, runOps swap ops (start g) = .ok dg ∧
      (∀ s m r c, dg.cell s m r = some c → RowOk swap dg m r c) ∧
      ∀ s p k x, (dg.expectedFor s p).find k = some x →
        x.numberOfReal = (x.receivers.values.map MsgHandlers.real).sum % 2 ^ 32 := by
  have hcell : ∀ s m r, (start g).cell s m r = none := fun _ _ _ => rfl
  obtain ⟨dg, hdg, hk, hp, hc⟩ := runOps_prioritized (kept_start g)
    ⟨rfl, fun s m r c hc => by rw [hcell] at hc; cases hc⟩ (fun f p k r hr => by cases hr) h
  exact ⟨dg, hdg, fun s m r c hc => hk.rowOk hp hc, hc⟩

theorem runOps_rowOk_replace :
    EveryStep noSwap (HandlerStepOk noSwap) replaceOps (start .empty) ∧
      ∃ dg, runOps noSwap replaceOps (start .empty) = .ok dg ∧
        (∀ s m r c, dg.cell s m r = some c → RowOk noSwap dg m r c) ∧
        ∀ s p k x, (dg.expectedFor s p).find k = some x →
          x.numberOfReal = (x.receivers.values.map MsgHandlers.real).sum % 2 ^ 32 :=
  ⟨by decide, runOps_rowOk noSwap .empty replaceOps (by decide)⟩

theorem rowOk_false_of_renamed_handler :
    EveryStep noSwap Granted renamedOps (start .empty) ∧
      ∃ dg, runOps noSwap renamedOps (start .empty) = .ok dg ∧
        ∃ c, dg.cell 2 (['p'], [1]) 1 = some c ∧ ¬ RowOk noSwap dg (['p'], [1]) 1 c := by
  refine ⟨by decide, ?_⟩
  have hfinal : (runOps noSwap renamedOps (start .empty)).map (fun dg =>
      (dg.cell 2 (['p'], [1]) 1).any fun c => decide (c.real ≠ c.handlers.countP fun h =>
        (dg.getDemandFor 1).any fun d => decide (d.handler = h) && !d.flags.registrator)) =
      .ok true := by
    decide
  cases hrun : runOps noSwap renamedOps (start .empty) with
  | error e => rw [hrun] at hfinal; cases hfinal
  | ok dg =>
    rw [hrun] at hfinal
    have hwrong := Except.ok.inj hfinal
    dsimp only at hwrong
    cases hc : dg.cell 2 (['p'], [1]) 1 with
    | none => rw [hc] at hwrong; cases hwrong
    | some c =>
      rw [hc] at hwrong
      exact ⟨dg, rfl, c, hc, fun hok => of_decide_eq_true hwrong hok.real⟩

end UdtKernel.RequiredDG
