import UdtKernel.Lib.Outcome
import UdtKernel.RequiredDG.RemoveClient

set_option autoImplicit false

/-! With which priorities the handlers of a table are listed. -/

namespace UdtKernel.RequiredDG
open UdtKernel.Lib

namespace MsgHandlers

def Paired (c : MsgHandlers) (h p : ℕ) : Prop :=
  ∃ i : ℕ, c.handlers[i]? = some h ∧ c.priorities[i]? = some p

theorem Paired.mem {c : MsgHandlers} {h p : ℕ} (hp : c.Paired h p) : h ∈ c.handlers := by
  obtain ⟨i, hi, -⟩ := hp
  exact List.mem_of_getElem? hi

theorem paired_removeAt {c : MsgHandlers} {i h p : ℕ} (hp : (c.removeAt i).Paired h p) :
    c.Paired h p := by
  obtain ⟨j, hj, hj'⟩ := hp
  simp only [removeAt, List.getElem?_eraseIdx] at hj hj'
  split_ifs at hj hj'
  · exact ⟨j, hj, hj'⟩
  · exact ⟨j + 1, hj, hj'⟩

theorem paired_put {c : MsgHandlers} {a b h p : ℕ} (hp : (c.put a b).Paired h p) :
    (h = a ∧ p = b) ∨ c.Paired h p := by
  obtain ⟨j, hj, hj'⟩ := hp
  simp only [put] at hj hj'
  rcases lt_trichotomy j (lowerBound c.priorities b) with hlt | heq | hgt
  · rw [List.getElem?_insertIdx_of_lt hlt] at hj hj'
    exact .inr ⟨j, hj, hj'⟩
  · rw [heq, List.getElem?_insertIdx_self] at hj hj'
    split_ifs at hj hj'
    exact .inl ⟨(Option.some.inj hj).symm, (Option.some.inj hj').symm⟩
  · rw [List.getElem?_insertIdx_of_gt hgt] at hj hj'
    exact .inr ⟨j - 1, hj, hj'⟩

theorem paired_place {c : MsgHandlers} {d : DemandDg} {h p : ℕ} (hp : (c.place d).Paired h p) :
    (h = d.handler ∧ p = d.handlerPriority) ∨ c.Paired h p := by
  unfold place at hp
  split at hp
  · split_ifs at hp
    · exact (paired_put hp).imp_right paired_removeAt
    · exact .inr hp
  · exact paired_put hp

theorem paired_addHandler {c : MsgHandlers} {d : DemandDg} {h p : ℕ}
    (hp : (c.addHandler d).2.Paired h p) :
    (h = d.handler ∧ p = d.handlerPriority) ∨ c.Paired h p := by
  refine paired_place ?_
  unfold addHandler at hp
  dsimp only at hp
  split_ifs at hp <;> exact hp

theorem paired_removeHandler {c c' : MsgHandlers} {d : DemandDg} {b : Bool}
    (hok : c.removeHandler d = .ok (b, c')) {h p : ℕ} (hp : c'.Paired h p) : c.Paired h p := by
  unfold removeHandler at hok
  by_cases hreal : d.flags.registrator = false ∧ c.real = 0
  · rw [if_pos hreal] at hok
    cases hok
  rw [if_neg hreal] at hok
  cases hi : c.handlers.idxOf? d.handler with
  | none =>
    rw [hi] at hok
    cases hok
    exact hp
  | some i =>
    rw [hi] at hok
    cases hok
    exact paired_removeAt (i := i) hp

end MsgHandlers

/-- What the handlers of every message of every receiver are listed with. -/
structure Ranked (g : Genealogy) (P : Uuid → Msg → ℕ → ℕ → Prop) (dg : RequiredDG) : Prop where
  msgsGenealogy : dg.msgsGenealogy = g
  pairs : ∀ s m r c, dg.cell s m r = some c → ∀ h p, c.Paired h p → P r m h p

variable {swap : SwapHeader} {g : Genealogy} {P : Uuid → Msg → ℕ → ℕ → Prop}

theorem Ranked.congr {dg dg' : RequiredDG} (h : Ranked g P dg)
    (hgen : dg'.msgsGenealogy = dg.msgsGenealogy)
    (hcell : ∀ s m r, dg'.cell s m r = dg.cell s m r) : Ranked g P dg' := by
  refine ⟨hgen.trans h.msgsGenealogy, fun s m r c hc => ?_⟩
  exact h.pairs s m r c (hcell s m r ▸ hc)

theorem Recorded.ranked {dg dg' : RequiredDG} (h : Recorded dg dg') (hr : Ranked g P dg) :
    Ranked g P dg' := hr.congr h.msgsGenealogy h.cell

theorem registering_ranked {d : DemandDg} {f t : Uuid} {s : Patch} (h : Ranked g P s.dg)
    (hd : P t d.msg d.handler d.handlerPriority) :
    Ranked g P (registeringReceiverForMsg d f t s).dg := by
  refine ⟨h.msgsGenealogy, fun u m r c hc k p hp => ?_⟩
  rw [registering_cell] at hc
  split_ifs at hc with hself
  · obtain ⟨-, rfl, rfl⟩ := hself
    obtain rfl := Option.some.inj hc
    rcases MsgHandlers.paired_addHandler hp with ⟨rfl, rfl⟩ | hold
    · exact hd
    · cases hcell : s.dg.cell f d.msg r with
      | none =>
        rw [hcell] at hold
        exact absurd hold.mem List.not_mem_nil
      | some c₀ =>
        rw [hcell] at hold
        exact h.pairs f d.msg r c₀ hcell k p hold
  · exact h.pairs u m r c hc k p hp

theorem unRegistering_ranked {d : DemandDg} {f t : Uuid} {s : Patch} (h : Ranked g P s.dg) :
    Outcome (fun _ => True) (fun s' => Ranked g P s'.dg)
      (unRegisteringReceiverForMsg d f t s) := by
  cases hcell : s.dg.cell f d.msg t with
  | none =>
    obtain ⟨s', hs', hframe, hsame, -⟩ := unRegistering_idle (d := d) (by rw [hcell]; trivial)
    rw [hs']
    exact h.congr hframe.msgsGenealogy hsame
  | some c =>
    cases hc : c.removeHandler d with
    | error e =>
      change ((s.dg.expectedFor f d.protocol).find d.what.messageHeader).bind _ = some c at hcell
      unfold unRegisteringReceiverForMsg
      cases hr : (s.dg.expectedFor f d.protocol).find d.what.messageHeader with
      | none => rw [hr] at hcell; cases hcell
      | some r =>
        rw [hr, Option.bind_some] at hcell
        simp only [hr, hcell, hc]
        trivial
    | ok res =>
      obtain ⟨b, c'⟩ := res
      obtain ⟨s', hs', hframe, hsame, -⟩ := unRegistering_present hcell hc
      rw [hs']
      refine ⟨hframe.msgsGenealogy.trans h.msgsGenealogy, fun u m r c₁ hc₁ k p hp => ?_⟩
      rw [hsame] at hc₁
      split_ifs at hc₁ with hself
      · obtain ⟨-, rfl, rfl⟩ := hself
        obtain rfl := Option.some.inj hc₁
        exact h.pairs f d.msg r c hcell k p (MsgHandlers.paired_removeHandler hc hp)
      · exact h.pairs u m r c₁ hc₁ k p hp

/-- The demand may be sent for with what its messages are listed with. -/
def RankOk (swap : SwapHeader) (g : Genealogy) (P : Uuid → Msg → ℕ → ℕ → Prop) (r : Uuid)
    (d : DemandDg) : Prop :=
  ∀ e ∈ covered swap g d, P r e.msg e.handler e.handlerPriority

theorem sendPacketFromTo_ranked {f t : Uuid} {d : DemandDg} {s : Patch} (h : Ranked g P s.dg)
    (hd : RankOk swap g P t d) : Ranked g P (sendPacketFromTo swap f t d s).dg := by
  rw [sendPacketFromTo_eq, h.msgsGenealogy]
  have htouch : Ranked g P (touch s f d.protocol).dg :=
    h.congr rfl fun _ _ _ => touch_cell _ _ _ _ _ _
  generalize touch s f d.protocol = s₁ at htouch
  unfold RankOk at hd
  generalize covered swap g d = es at hd
  induction es generalizing s₁ with
  | nil => exact htouch
  | cons e es ih =>
    exact ih _ (registering_ranked htouch (hd e List.mem_cons_self))
      fun x hx => hd x (List.mem_cons_of_mem _ hx)

theorem unSendPacketFromTo_ranked {f t : Uuid} {d : DemandDg} {s : Patch} (h : Ranked g P s.dg) :
    Outcome (fun _ => True) (fun s' => Ranked g P s'.dg) (unSendPacketFromTo swap f t d s) := by
  rw [unSendPacketFromTo_eq]
  exact Outcome.foldlM (P := fun s : Patch => Ranked g P s.dg)
    (h.congr rfl fun _ _ _ => touch_cell _ _ _ _ _ _) fun s hs e _ => unRegistering_ranked hs

theorem sendAll_ranked (swap : SwapHeader) (ws : List WayInfo) {s : Patch} (h : Ranked g P s.dg)
    (hws : ∀ w ∈ ws, RankOk swap g P w.for_ w.what) :
    Ranked g P (ws.foldl (fun s w => sendPacketFromTo swap w.from_ w.for_ w.what s) s).dg := by
  induction ws generalizing s with
  | nil => exact h
  | cons w ws ih =>
    exact ih (sendPacketFromTo_ranked h (hws w List.mem_cons_self))
      fun x hx => hws x (List.mem_cons_of_mem _ hx)

theorem removeSendersOfMsgFor_ranked (swap : SwapHeader) (r : Uuid) (ds : List DemandDg) {s : Patch}
    (h : Ranked g P s.dg) : Outcome (fun _ => True) (fun s' => Ranked g P s'.dg)
      (removeSendersOfMsgFor swap r ds s) := by
  refine Outcome.foldlM (P := fun s : Patch => Ranked g P s.dg) h fun s hs d _ => ?_
  unfold removeSendersOf
  refine Outcome.bind (P := fun _ => True) (Outcome.trivial _) fun m _ => ?_
  refine Outcome.foldlM (P := fun s : Patch => Ranked g P s.dg) ?_
    fun s hs u _ => unSendPacketFromTo_ranked hs
  dsimp only
  split_ifs
  · exact (recorded_eraseNearest _ _ _).ranked hs
  · exact hs

theorem addSendersOfMsgFor_ranked (swap : SwapHeader) (r : Uuid) (ds : List DemandDg) {s : Patch}
    (h : Ranked g P s.dg) (hds : ∀ d ∈ ds, RankOk swap g P r d) :
    Outcome (fun _ => True) (fun s' => Ranked g P s'.dg) (addSendersOfMsgFor swap r ds s) := by
  refine Outcome.foldlM (P := fun s : Patch => Ranked g P s.dg) h fun s hs d hd => ?_
  unfold addSendersOf
  refine Outcome.bind (P := fun _ => True) (Outcome.trivial _) fun m _ => ?_
  have hrec : Ranked g P (if d.flags.nearest then s.dg.setNearest r d.handler (firstDistance m)
      else s.dg) := by
    split_ifs
    · exact (recorded_setNearest _ _ _ _).ranked hs
    · exact hs
  have hsend := sendAll_ranked swap (waysFor ⟨0, r, d, 0⟩ m 0)
    (s := { s with dg := _ }) hrec fun w hw => by
      obtain ⟨-, hf, hwhat, -⟩ := mem_waysFor.1 hw
      rw [hf, hwhat]
      exact hds d hd
  rw [waysFor, List.foldl_map] at hsend
  exact hsend

theorem updateSendInfoFor_ranked {added removed : List WayInfo} {s : Patch} (h : Ranked g P s.dg)
    (hws : ∀ w ∈ added, RankOk swap g P w.for_ w.what) :
    Outcome (fun _ => True) (fun s' => Ranked g P s'.dg)
      (updateSendInfoFor swap added removed s) := by
  unfold updateSendInfoFor
  refine Outcome.bind (P := fun s : Patch => Ranked g P s.dg)
    (Outcome.foldlM (P := fun s : Patch => Ranked g P s.dg) h
      fun s hs w _ => unSendPacketFromTo_ranked hs) fun s hs => ?_
  exact sendAll_ranked swap added hs hws

/-- `getDistance` makes ways of the demands that it is given. -/
theorem getDistance_from (aFrom : Id) (m : DemandDgsFor) :
    Outcome (fun _ => True) (fun ws => ∀ w ∈ ws, w.what ∈ (m.find w.for_).getD [])
      (getDistance aFrom m) := by
  refine Outcome.mapM (P := fun w : WayInfo => w.what ∈ (m.find w.for_).getD [])
    fun e he => ?_
  refine Outcome.bind (P := fun _ => True) (Outcome.trivial _) fun n _ => ?_
  exact mem_demandsOf.1 he

/-- `removeSenderIfNeed` adds nothing but what it is given. -/
theorem removeSenderIfNeed_from (ws : List WayInfo) (dg : RequiredDG) :
    Outcome (fun _ => True) (fun res => (∀ w ∈ res.1, w ∈ ws) ∧ Recorded dg res.2.2)
      (removeSenderIfNeed ws dg) := by
  induction ws generalizing dg with
  | nil => exact ⟨fun w hw => hw, Recorded.refl dg⟩
  | cons w ws ih =>
    have hturn : ∀ (dg' : RequiredDG), Recorded dg dg' → ∀ (more : List WayInfo),
        Outcome (fun _ => True) (fun res => (∀ x ∈ res.1, x ∈ w :: ws) ∧ Recorded dg res.2.2)
          (removeSenderIfNeed ws dg' >>= fun res =>
            pure (w :: res.1, more ++ res.2.1, res.2.2)) := by
      intro dg' hrec more
      refine Outcome.bind (ih dg') ?_
      rintro ⟨added, removed, dg''⟩ ⟨hadded, hrec'⟩
      refine ⟨fun x hx => ?_, hrec.trans hrec'⟩
      rcases List.mem_cons.1 hx with rfl | hx
      · exact List.mem_cons_self
      · exact List.mem_cons_of_mem _ (hadded x hx)
    unfold removeSenderIfNeed
    dsimp only
    split_ifs
    · exact (ih _).mono fun res hres => ⟨fun x hx => List.mem_cons_of_mem _ (hres.1 x hx),
        (recorded_setNearest _ _ _ _).trans hres.2⟩
    · exact Outcome.bind (P := fun _ => True) (Outcome.trivial _) fun m _ =>
        hturn _ (recorded_setNearest _ _ _ _) _
    · exact hturn _ (recorded_setNearest _ _ _ _) []
    · exact hturn _ (Recorded.refl dg) []

/-- `addSenderIfNeed` adds ways to the demands that it is given. -/
theorem addSenderIfNeed_from (u : Uuid) (ws : List WayInfo) (dg : RequiredDG) :
    Outcome (fun _ => True) (fun res => (∀ x ∈ res.1, ∃ w ∈ ws, x.for_ = w.for_ ∧ x.what = w.what) ∧
      Recorded dg res.2) (addSenderIfNeed u ws dg) := by
  induction ws generalizing dg with
  | nil => exact ⟨fun w hw => absurd hw List.not_mem_nil, Recorded.refl dg⟩
  | cons w ws ih =>
    have hskip : ∀ (dg' : RequiredDG), Recorded dg dg' → Outcome (fun _ => True)
        (fun res => (∀ x ∈ res.1, ∃ y ∈ w :: ws, x.for_ = y.for_ ∧ x.what = y.what) ∧
          Recorded dg res.2) (addSenderIfNeed u ws dg') := by
      intro dg' hrec
      refine (ih dg').mono fun res hres => ⟨fun x hx => ?_, hrec.trans hres.2⟩
      obtain ⟨y, hy, heq⟩ := hres.1 x hx
      exact ⟨y, List.mem_cons_of_mem _ hy, heq⟩
    unfold addSenderIfNeed
    dsimp only
    split_ifs
    · exact True.intro
    · refine Outcome.bind (P := fun _ => True) (Outcome.trivial _) fun m _ => ?_
      split_ifs
      · exact hskip _ (recorded_setNearest _ _ _ _)
      · refine Outcome.bind (hskip _ ((recorded_setNearest _ _ _ _).trans
          (recorded_setNearest _ _ _ _))) ?_
        rintro ⟨added, dg''⟩ ⟨hadded, hrec⟩
        refine ⟨fun x hx => ?_, hrec⟩
        rcases List.mem_append.1 hx with hx | hx
        · obtain ⟨-, hf, hwhat, -⟩ := mem_waysFor.1 hx
          exact ⟨w, List.mem_cons_self, hf, hwhat⟩
        · exact hadded x hx
    · exact hskip _ (recorded_setNearest _ _ _ _)
    · exact hskip _ (Recorded.refl dg)

end UdtKernel.RequiredDG
