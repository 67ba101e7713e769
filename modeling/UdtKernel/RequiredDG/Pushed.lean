import UdtKernel.Lib.Outcome
import UdtKernel.RequiredDG.Run

set_option autoImplicit false

/-! Which pairs the lists of new and removed demands can tell of. -/

namespace UdtKernel.RequiredDG
open UdtKernel.Lib

def Pushed (m : DemandDgsFor) (u : Uuid) (d : DemandDg) : Prop :=
  ∃ ds, m.find u = some ds ∧ d ∈ ds

theorem not_pushed_empty (u : Uuid) (d : DemandDg) : ¬Pushed .empty u d := by
  rintro ⟨ds, hds, -⟩
  cases hds

theorem pushed_pushDemand {m : DemandDgsFor} {u v : Uuid} {d e : DemandDg} :
    Pushed (pushDemand m u d) v e ↔ Pushed m v e ∨ v = u ∧ e = d := by
  unfold Pushed pushDemand
  rw [SortedMap.find_alter]
  split_ifs with hv
  · subst hv
    cases m.find v <;> simp
  · simp [hv]

/-- `d` reports the demand `what` of the receiver `r`, or what descends from it. -/
def ReportOf (what : DemandDg) (r : Uuid) (d : DemandDg) : Prop :=
  d.uuidFrom = some r ∧ d.flags.removed = what.flags.removed

/-- What is reported newly is as `N` says, and what is reported removed as `R` says. -/
structure Grows (N R : Uuid → DemandDg → Prop) (s s' : Patch) : Prop where
  new : ∀ {u d}, Pushed s'.new u d → Pushed s.new u d ∨ N u d
  removed : ∀ {u d}, Pushed s'.removed u d → Pushed s.removed u d ∨ R u d

section Grows
variable {N R N' R' : Uuid → DemandDg → Prop} {s s' s'' : Patch}

theorem Grows.of_same (hnew : s'.new = s.new) (hremoved : s'.removed = s.removed) :
    Grows N R s s' :=
  ⟨fun h => .inl (hnew ▸ h), fun h => .inl (hremoved ▸ h)⟩

theorem Grows.trans (h : Grows N R s s') (h' : Grows N R s' s'') : Grows N R s s'' :=
  ⟨fun hd => (h'.new hd).elim h.new .inr, fun hd => (h'.removed hd).elim h.removed .inr⟩

theorem Grows.mono (h : Grows N R s s') (hN : ∀ u d, N u d → N' u d) (hR : ∀ u d, R u d → R' u d) :
    Grows N' R' s s' :=
  ⟨fun hd => (h.new hd).imp id (hN _ _), fun hd => (h.removed hd).imp id (hR _ _)⟩

end Grows

def Nothing : Uuid → DemandDg → Prop := fun _ _ => False

def Between (aFrom aTo : Uuid) (what : DemandDg) : Uuid → DemandDg → Prop := fun u d =>
  u = aFrom ∧ ReportOf what aTo d

def By (ws : List WayInfo) : Uuid → DemandDg → Prop := fun u d =>
  ∃ w ∈ ws, Between w.from_ w.for_ w.what u d

def Of (aFor : Uuid) (ds : List DemandDg) : Uuid → DemandDg → Prop := fun _ d =>
  ∃ e ∈ ds, ReportOf e aFor d

theorem covered_removed {swap : SwapHeader} {g : Genealogy} {d e m : DemandDg}
    (hm : getValidHeader swap d = some m) (he : e ∈ withChildren g m) :
    e.flags.removed = d.flags.removed := by
  have hmd : m.flags.removed = d.flags.removed := by
    unfold getValidHeader at hm
    split_ifs at hm
    · rw [← Option.some.inj hm]
    · split at hm
      · rw [← Option.some.inj hm]
        rfl
      · cases hm
  rcases List.mem_cons.1 he with rfl | he
  · exact hmd
  · obtain ⟨c, -, rfl⟩ := List.mem_map.1 he
    exact hmd

theorem registering_grows (d : DemandDg) (aFrom aTo : Uuid) (s : Patch) :
    Grows (Between aFrom aTo d) Nothing s (registeringReceiverForMsg d aFrom aTo s) := by
  refine ⟨fun {u e} he => ?_, fun he => .inl he⟩
  unfold registeringReceiverForMsg at he
  simp only at he
  split_ifs at he
  · rw [pushed_pushDemand] at he
    exact he.imp id fun ⟨hu, hd⟩ => ⟨hu, by rw [hd]; exact ⟨rfl, rfl⟩⟩
  · exact .inl he

theorem unRegistering_grows (d : DemandDg) (aFrom aTo : Uuid) (s : Patch) :
    Outcome (fun _ => True) (Grows Nothing (Between aFrom aTo d) s)
      (unRegisteringReceiverForMsg d aFrom aTo s) := by
  unfold unRegisteringReceiverForMsg
  simp only
  split
  · exact Grows.of_same rfl rfl
  · split
    · exact Grows.of_same rfl rfl
    · refine (Outcome.trivial _).bind fun p _ => ?_
      refine ⟨fun he => .inl he, fun {u e} he => ?_⟩
      change Pushed (if p.1 then pushDemand s.removed aFrom (named d aTo) else s.removed) u e at he
      split_ifs at he
      · rw [pushed_pushDemand] at he
        exact he.imp id fun ⟨hu, hd⟩ => ⟨hu, by rw [hd]; exact ⟨rfl, rfl⟩⟩
      · exact .inl he

variable {swap : SwapHeader}

theorem sendPacketFromTo_grows (aFrom aTo : Uuid) (d : DemandDg) (s : Patch) :
    Grows (Between aFrom aTo d) Nothing s (sendPacketFromTo swap aFrom aTo d s) := by
  unfold sendPacketFromTo
  simp only
  split
  · exact Grows.of_same rfl rfl
  · rename_i m hm
    have hall : ∀ (es : List DemandDg) (s₁ : Patch),
        (∀ e ∈ es, e.flags.removed = d.flags.removed) →
        Grows (Between aFrom aTo d) Nothing s₁
          (es.foldl (fun s e => registeringReceiverForMsg e aFrom aTo s) s₁) := by
      intro es
      induction es with
      | nil => exact fun s₁ _ => Grows.of_same rfl rfl
      | cons e es ih =>
        intro s₁ hes
        refine Grows.trans ?_ (ih _ fun e' he' => hes e' (List.mem_cons_of_mem e he'))
        refine (registering_grows e aFrom aTo s₁).mono (fun u d' h => ?_) fun _ _ => id
        exact ⟨h.1, h.2.1, h.2.2.trans (hes e List.mem_cons_self)⟩
    refine Grows.trans ?_ (hall _ _ ?_)
    · exact Grows.of_same rfl rfl
    · exact fun e he => covered_removed hm he

theorem unSendPacketFromTo_grows (aFrom aTo : Uuid) (d : DemandDg) (s : Patch) :
    Outcome (fun _ => True) (Grows Nothing (Between aFrom aTo d) s)
      (unSendPacketFromTo swap aFrom aTo d s) := by
  unfold unSendPacketFromTo
  simp only
  split
  · exact Grows.of_same rfl rfl
  · rename_i m hm
    refine Outcome.foldlM (Grows.of_same rfl rfl) fun s₁ hs₁ e he => ?_
    refine (unRegistering_grows e aFrom aTo s₁).mono fun s₂ hs₂ => hs₁.trans (hs₂.mono ?_ ?_)
    · exact fun _ _ => id
    · exact fun u d' h => ⟨h.1, h.2.1, h.2.2.trans (covered_removed hm he)⟩

theorem updateSendInfoFor_grows (aAdd aRemove : List WayInfo) (s : Patch) :
    Outcome (fun _ => True) (Grows (By aAdd) (By aRemove) s)
      (updateSendInfoFor swap aAdd aRemove s) := by
  refine (Outcome.foldlM (P := Grows (By aAdd) (By aRemove) s) (Grows.of_same rfl rfl)
    fun s₁ hs₁ w hw => ?_).bind fun s₁ hs₁ => ?_
  · refine (unSendPacketFromTo_grows w.from_ w.for_ w.what s₁).mono fun s₂ hs₂ => hs₁.trans ?_
    exact hs₂.mono (fun _ _ h => absurd h id) fun u d h => ⟨w, hw, h⟩
  · have hall : ∀ (ws : List WayInfo) (s₂ : Patch), ws ⊆ aAdd → Grows (By aAdd) (By aRemove) s s₂ →
        Grows (By aAdd) (By aRemove) s
          (ws.foldl (fun s w => sendPacketFromTo swap w.from_ w.for_ w.what s) s₂) := by
      intro ws
      induction ws with
      | nil => exact fun s₂ _ hs₂ => hs₂
      | cons w ws ih =>
        intro s₂ hsub hs₂
        refine ih _ (fun w' hw' => hsub (List.mem_cons_of_mem w hw')) (hs₂.trans ?_)
        refine (sendPacketFromTo_grows w.from_ w.for_ w.what s₂).mono (fun u d h => ?_) ?_
        · exact ⟨w, hsub List.mem_cons_self, h⟩
        · exact fun _ _ h => absurd h id
    exact hall aAdd s₁ (List.Subset.refl _) hs₁

theorem removeSendersOfMsgFor_grows (aTo : Uuid) (ds : List DemandDg) (s : Patch) :
    Outcome (fun _ => True) (Grows Nothing (Of aTo ds) s)
      (removeSendersOfMsgFor swap aTo ds s) := by
  refine Outcome.foldlM (Grows.of_same rfl rfl) fun s₁ hs₁ d hd => ?_
  refine (Outcome.trivial _).bind fun m _ => ?_
  refine Outcome.foldlM (P := Grows Nothing (Of aTo ds) s) (hs₁.trans (Grows.of_same rfl rfl))
    fun s₂ hs₂ u _ => ?_
  refine (unSendPacketFromTo_grows u aTo d s₂).mono fun s₃ hs₃ => hs₂.trans (hs₃.mono ?_ ?_)
  · exact fun _ _ => id
  · exact fun v e h => ⟨d, hd, h.2⟩

theorem addSendersOfMsgFor_grows (aFor : Uuid) (ds : List DemandDg) (s : Patch) :
    Outcome (fun _ => True) (Grows (Of aFor ds) Nothing s) (addSendersOfMsgFor swap aFor ds s) := by
  refine Outcome.foldlM (Grows.of_same rfl rfl) fun s₁ hs₁ d hd => ?_
  refine (Outcome.trivial _).bind fun m _ => ?_
  have hall : ∀ (us : List Uuid) (s₂ : Patch), Grows (Of aFor ds) Nothing s s₂ →
      Grows (Of aFor ds) Nothing s
        (us.foldl (fun s u => sendPacketFromTo swap u aFor d s) s₂) := by
    intro us
    induction us with
    | nil => exact fun s₂ hs₂ => hs₂
    | cons u us ih =>
      intro s₂ hs₂
      refine ih _ (hs₂.trans ?_)
      exact (sendPacketFromTo_grows u aFor d s₂).mono (fun v e h => ⟨d, hd, h.2⟩) fun _ _ => id
  exact hall m.keys _ (hs₁.trans (Grows.of_same rfl rfl))

def WaysFrom (u : Uuid) (P : Uuid → DemandDg → Prop) (ws : List WayInfo) : Prop :=
  ∀ w ∈ ws, w.from_ = u ∧ P w.for_ w.what

theorem getDistance_ways (aFrom : Id) (aFor : DemandDgsFor) :
    Outcome (fun _ => True) (WaysFrom aFrom.uuid fun r d => d ∈ (aFor.find r).getD [])
      (getDistance aFrom aFor) :=
  Outcome.mapM fun _ he => (Outcome.trivial _).bind fun _ _ => ⟨rfl, mem_demandsOf.1 he⟩

theorem removeSenderIfNeed_ways (ws : List WayInfo) (dg : RequiredDG) :
    Outcome (fun _ => True) (fun r => r.1 ⊆ ws) (removeSenderIfNeed ws dg) := by
  have hcons : ∀ {w : WayInfo} {ws l : List WayInfo}, l ⊆ ws → w :: l ⊆ w :: ws :=
    fun h => List.cons_subset_cons _ h
  induction ws generalizing dg with
  | nil => exact List.Subset.refl []
  | cons w ws ih =>
    unfold removeSenderIfNeed
    simp only
    split_ifs
    · exact (ih _).mono fun r hr => List.subset_cons_of_subset w hr
    · exact (Outcome.trivial _).bind fun _ _ => (ih _).bind fun r hr => hcons hr
    · exact (ih _).bind fun r hr => hcons hr
    · exact (ih _).bind fun r hr => hcons hr

theorem addSenderIfNeed_ways {u : Uuid} {P : Uuid → DemandDg → Prop} (ws : List WayInfo)
    (hws : WaysFrom u P ws) (dg : RequiredDG) : Outcome (fun _ => True)
      (fun r => ∀ w ∈ r.1, w.from_ ≠ u ∧ P w.for_ w.what) (addSenderIfNeed u ws dg) := by
  induction ws generalizing dg with
  | nil => exact fun w hw => absurd hw List.not_mem_nil
  | cons w ws ih =>
    have hw := hws w List.mem_cons_self
    replace ih := ih fun w' hw' => hws w' (List.mem_cons_of_mem w hw')
    unfold addSenderIfNeed
    simp only
    split_ifs
    · trivial
    · refine (Outcome.trivial _).bind fun others _ => ?_
      split_ifs
      · exact ih _
      · refine (ih _).bind fun r hr => fun p hp => ?_
        rcases List.mem_append.1 hp with hp | hp
        · obtain ⟨⟨k, hk⟩, hfor, hwhat, -⟩ := mem_waysFor.1 hp
          refine ⟨fun hu => ?_, by rw [hfor, hwhat]; exact hw.2⟩
          rw [hu] at hk
          have hnone := ((find_getOnlyNearest ..).1 hk).1
          rw [SortedMap.find_erase_self] at hnone
          cases hnone
        · exact hr p hp
    · exact ih _
    · exact ih _

/-- A new client is told of the demands that there are. -/
theorem addClient_grows (aId : Id) (dg : RequiredDG) : Outcome (fun _ => True)
    (Grows (fun u d => u = aId.uuid ∧ ∃ r, Of r (dg.getDemandFor r) u d) (fun _ _ => True)
      ⟨dg, .empty, .empty⟩) (addClient swap aId dg) := by
  have hadd : Outcome (fun _ => True)
      (Grows (fun u d => u = aId.uuid ∧ ∃ r, Of r (dg.getDemandFor r) u d) (fun _ _ => True)
        ⟨dg, .empty, .empty⟩) (addReceiversOfMsgsFrom swap aId ⟨dg, .empty, .empty⟩) := by
    have hways : Outcome (fun _ => True) (WaysFrom aId.uuid fun r d => d ∈ dg.getDemandFor r)
        (getListOfReceiversOfMsgsFrom dg aId) :=
      (getDistance_ways aId dg.dgs).bind fun ws hws w hw => hws w (List.mem_filter.1 hw).1
    refine hways.bind fun ws hws => ?_
    have htake : Outcome (fun _ => True) (fun r => r.1 ⊆ ws)
        (takeIntoAccountOnlyNearestSendersIfNeed aId.uuid ws [] dg) := by
      refine (removeSenderIfNeed_ways ws dg).bind fun r hr => ?_
      change r.1 ++ [] ⊆ ws
      rwa [List.append_nil]
    refine htake.bind fun r hr => (updateSendInfoFor_grows r.1 r.2.1 _).mono fun s hs => ?_
    refine Grows.mono (s := ⟨dg, .empty, .empty⟩) ⟨hs.new, hs.removed⟩ ?_ fun _ _ _ => trivial
    rintro u d ⟨w, hw, rfl, hd⟩
    obtain ⟨hfrom, hmem⟩ := hws w (hr hw)
    exact ⟨hfrom, w.for_, w.what, hmem, hd⟩
  refine hadd.bind fun s hs => ?_
  split_ifs
  · trivial
  · exact ⟨hs.new, hs.removed⟩

theorem removeAllSendersOfMsgsFor_grows (aUuid : Uuid) (s : Patch) :
    Outcome (fun _ => True) (Grows Nothing (fun _ d => d.uuidFrom = some aUuid) s)
      (removeAllSendersOfMsgsFor swap aUuid s) := by
  unfold removeAllSendersOfMsgsFor
  split
  · exact Grows.of_same rfl rfl
  · refine (removeSendersOfMsgFor_grows aUuid _ _).mono fun s' hs' => ?_
    refine Grows.mono (s := s) ⟨hs'.new, hs'.removed⟩ (fun _ _ => id) ?_
    exact fun u d ⟨e, _, he⟩ => he.1

/-- When a client leaves, others are told of demands of others. -/
theorem removeClient_grows {dg : RequiredDG} (hk : Kept swap dg) (aUuid : Uuid) :
    Outcome (fun _ => True)
      (Grows (fun u d => u ≠ aUuid ∧ ∃ r, r ≠ aUuid ∧ Of r (dg.getDemandFor r) u d)
        (fun u d => u = aUuid ∨ d.uuidFrom = some aUuid) ⟨dg, .empty, .empty⟩)
      (removeClient swap aUuid dg) := by
  unfold removeClient
  simp only
  split
  · exact Grows.of_same rfl rfl
  split_ifs
  · rename_i name _ _
    obtain ⟨s₁, hs₁, hk₁, -, -, hdemand₁, -⟩ :=
      removeAllSendersOfMsgsFor_spec (s := ⟨dg, .empty, .empty⟩) hk aUuid
    have hfirst : Outcome (fun _ => True)
        (Grows Nothing (fun _ d => d.uuidFrom = some aUuid) ⟨dg, .empty, .empty⟩)
        (removeAllSendersOfMsgsFor swap aUuid ⟨dg, .empty, .empty⟩) :=
      removeAllSendersOfMsgsFor_grows aUuid _
    have hways : Outcome (fun _ => True) (WaysFrom aUuid fun r d => r ≠ aUuid ∧
        d ∈ dg.getDemandFor r) (getDistance ⟨aUuid, name⟩ (s₁.dg.getWhatMsgSentFrom aUuid)) := by
      refine (getDistance_ways _ _).mono fun ws hws w hw => ⟨(hws w hw).1, ?_⟩
      have hmem : w.what ∈ ((s₁.dg.getWhatMsgSentFrom aUuid).find w.for_).getD [] := (hws w hw).2
      rw [getWhatMsgSentFrom_find, hk₁.mem_sentTo, hdemand₁] at hmem
      obtain ⟨hmem, -⟩ := hmem
      split_ifs at hmem with hr
      · cases hmem
      · exact ⟨hr, hmem⟩
    rw [hs₁] at hfirst ⊢
    change Outcome _ _ (removeAllReceiversForMsgsFrom swap ⟨aUuid, name⟩ s₁ >>= _)
    rw [removeAllReceiversForMsgsFrom_eq]
    refine Outcome.bind (P := Grows (fun u d => u ≠ aUuid ∧ ∃ r, r ≠ aUuid ∧
      Of r (dg.getDemandFor r) u d) (fun u d => u = aUuid ∨ d.uuidFrom = some aUuid)
      ⟨dg, .empty, .empty⟩) (hways.bind fun ws hws => ?_) fun s hs => ⟨hs.new, hs.removed⟩
    have htake : Outcome (fun _ => True)
        (fun r => (∀ w ∈ r.1, w.from_ ≠ aUuid ∧ w.for_ ≠ aUuid ∧
          w.what ∈ dg.getDemandFor w.for_) ∧ r.2.1 = ws)
        (takeIntoAccountOnlyNearestSendersIfNeed aUuid [] ws s₁.dg) :=
      (addSenderIfNeed_ways ws hws s₁.dg).bind fun r hr => ⟨hr, List.append_nil ws⟩
    refine htake.bind fun r hr => (updateSendInfoFor_grows r.1 r.2.1 _).bind fun s hs => ?_
    refine Grows.trans (Grows.mono hfirst (fun _ _ h => absurd h id) fun _ _ => .inr) ?_
    refine Grows.mono (s := s₁) ⟨hs.new, hs.removed⟩ ?_ ?_
    · rintro u d ⟨w, hw, rfl, hd⟩
      obtain ⟨hfrom, hfor, hmem⟩ := hr.1 w hw
      exact ⟨hfrom, w.for_, hfor, w.what, hmem, hd⟩
    · rintro u d ⟨w, hw, rfl, -⟩
      exact .inl (hws w (hr.2 ▸ hw)).1
  · exact Grows.of_same rfl rfl

theorem setDemandsDGFor_grows (aFor : Uuid) (ds : List DemandDg) (dg : RequiredDG) :
    Outcome (fun _ => True) (Grows (Of aFor (getDiffDemandsDG (dg.dgs.find aFor) ds).2)
      (fun _ _ => True) ⟨dg, .empty, .empty⟩) (setDemandsDGFor swap aFor ds dg) := by
  unfold setDemandsDGFor
  split_ifs
  · refine (removeAllSendersOfMsgsFor_grows aFor _).mono fun s hs => hs.mono ?_ ?_
    · exact fun _ _ h => absurd h id
    · exact fun _ _ _ => trivial
  · refine (removeSendersOfMsgFor_grows aFor _ _).bind fun s hs =>
      (addSendersOfMsgFor_grows aFor _ s).mono fun s' hs' => ?_
    refine Grows.trans ?_ (hs'.mono (fun _ _ => id) fun _ _ _ => trivial)
    refine Grows.mono (s := ⟨dg, .empty, .empty⟩) ⟨hs.new, hs.removed⟩ ?_ fun _ _ _ => trivial
    exact fun _ _ h => absurd h id

end UdtKernel.RequiredDG
