import UdtKernel.RequiredDG.Register

set_option autoImplicit false

/-! What sending for a demand and its heirs makes of the cells. -/

namespace UdtKernel.RequiredDG
open UdtKernel.Lib

/-- The demands by which a receiver is registered for the messages of a demand. -/
def covered (swap : SwapHeader) (g : Genealogy) (d : DemandDg) : List DemandDg :=
  match getValidHeader swap d with
  | none => []
  | some m => withChildren g m

/-- The messages of a demand: its own one and the descendants. -/
def msgsOf (swap : SwapHeader) (g : Genealogy) (d : DemandDg) : List Msg :=
  (covered swap g d).map DemandDg.msg

/-- A demand apart from its priority, which only orders the handlers. -/
def plain (d : DemandDg) : DemandDg := { d with handlerPriority := 0 }

theorem withChildren_msgs (g : Genealogy) (m : DemandDg) : (withChildren g m).map DemandDg.msg =
    m.msg :: (g.getMessageChildren m.protocol m.what).map InheritanceMsgHeader.msg := by
  rw [withChildren, List.map_cons, List.map_map]
  rfl

theorem msgsOf_nodup (swap : SwapHeader) (g : Genealogy) (d : DemandDg) :
    (msgsOf swap g d).Nodup := by
  unfold msgsOf covered
  split
  · exact List.nodup_nil
  · rw [withChildren_msgs]
    exact g.getMessageChildren_unique _ _

theorem getValidHeader_plain (swap : SwapHeader) (d : DemandDg) :
    getValidHeader swap (plain d) = (getValidHeader swap d).map plain := by
  unfold getValidHeader
  have hvalid : (plain d).isValidEndian = d.isValidEndian := rfl
  rw [hvalid]
  cases d.isValidEndian with
  | true => rfl
  | false =>
    have hprotocol : (plain d).protocol = d.protocol := rfl
    have hwhat : (plain d).what = d.what := rfl
    rw [hprotocol, hwhat]
    cases swap d.protocol d.what <;> rfl

theorem msgsOf_plain (swap : SwapHeader) (g : Genealogy) (d : DemandDg) :
    msgsOf swap g (plain d) = msgsOf swap g d := by
  unfold msgsOf covered
  rw [getValidHeader_plain]
  cases getValidHeader swap d with
  | none => rfl
  | some m =>
    change (withChildren g (plain m)).map DemandDg.msg = (withChildren g m).map DemandDg.msg
    rw [withChildren_msgs, withChildren_msgs]
    rfl

theorem covered_same {swap : SwapHeader} {g : Genealogy} {d e : DemandDg}
    (h : e ∈ covered swap g d) :
    e.handler = d.handler ∧ e.flags.registrator = d.flags.registrator := by
  unfold covered at h
  cases hm : getValidHeader swap d with
  | none => rw [hm] at h; cases h
  | some m =>
    have hmd : m.handler = d.handler ∧ m.flags.registrator = d.flags.registrator := by
      unfold getValidHeader at hm
      split_ifs at hm
      · obtain rfl := Option.some.inj hm
        exact ⟨rfl, rfl⟩
      · split at hm
        · obtain rfl := Option.some.inj hm
          exact ⟨rfl, rfl⟩
        · cases hm
    rw [hm] at h
    rcases List.mem_cons.1 h with rfl | h
    · exact hmd
    · obtain ⟨c, -, rfl⟩ := List.mem_map.1 h
      exact hmd

/-- Which demands of which receivers each sender sends for. -/
abbrev Regs := Uuid → Uuid → DemandDg → Prop

def Regs.add (G : Regs) (f t : Uuid) (d : DemandDg) : Regs := fun s r e =>
  G s r e ∨ (s = f ∧ r = t ∧ e = plain d)

def Regs.sub (G : Regs) (f t : Uuid) (d : DemandDg) : Regs := fun s r e =>
  G s r e ∧ ¬ (s = f ∧ r = t ∧ e = plain d)

/-- The handlers of a cell are those of the demands `ds`, each once. -/
def CellOk : Option MsgHandlers → List DemandDg → Prop
  | none, ds => ds = []
  | some c, ds => ds ≠ [] ∧ c.handlers.Perm (ds.map DemandDg.handler) ∧
      c.real = ds.countP fun d => !d.flags.registrator

/-- Every cell has the handlers of the demands sent for. -/
def CellsOk (swap : SwapHeader) (dg : RequiredDG) (G : Regs) : Prop :=
  ∀ s m r, ∃ ds : List DemandDg, ds.Nodup ∧
    (∀ d, d ∈ ds ↔ G s r d ∧ m ∈ msgsOf swap dg.msgsGenealogy d) ∧ CellOk (dg.cell s m r) ds

theorem CellsOk.congr {swap : SwapHeader} {dg dg' : RequiredDG} {G G' : Regs}
    (h : CellsOk swap dg G) (hg : dg'.msgsGenealogy = dg.msgsGenealogy)
    (hcell : ∀ s m r, dg'.cell s m r = dg.cell s m r)
    (hG : ∀ s r d, msgsOf swap dg.msgsGenealogy d ≠ [] → (G' s r d ↔ G s r d)) :
    CellsOk swap dg' G' := by
  intro s m r
  obtain ⟨ds, hnodup, hmem, hok⟩ := h s m r
  refine ⟨ds, hnodup, fun d => ?_, hcell s m r ▸ hok⟩
  rw [hmem, hg]
  constructor
  · rintro ⟨hd, hm⟩
    exact ⟨(hG s r d (List.ne_nil_of_mem hm)).2 hd, hm⟩
  · rintro ⟨hd, hm⟩
    exact ⟨(hG s r d (List.ne_nil_of_mem hm)).1 hd, hm⟩

theorem registerAll {f t : Uuid} {es : List DemandDg} (hnodup : (es.map DemandDg.msg).Nodup)
    (s : Patch) :
    let s' := es.foldl (fun s d => registeringReceiverForMsg d f t s) s
    Frame s.dg s'.dg ∧ Gains s s' ∧
      (∀ e ∈ es, s'.dg.cell f e.msg t =
        some (((s.dg.cell f e.msg t).getD .empty).addHandler e).2) ∧
      ∀ u m r, ¬ (u = f ∧ r = t ∧ m ∈ es.map DemandDg.msg) →
        s'.dg.cell u m r = s.dg.cell u m r := by
  induction es generalizing s with
  | nil => exact ⟨Frame.refl _, Gains.refl _, by simp, fun _ _ _ _ => rfl⟩
  | cons e es ih =>
    obtain ⟨he, hes⟩ := List.nodup_cons.1 hnodup
    obtain ⟨hframe, hgains, hin, hout⟩ := ih hes (registeringReceiverForMsg e f t s)
    have hcell := registering_cell e f t s
    refine ⟨(registering_frame e f t s).trans hframe, (registering_gains e f t s).trans hgains,
      fun x hx => ?_, fun u m r hnot => ?_⟩
    · rcases List.mem_cons.1 hx with rfl | hx'
      · rw [List.foldl_cons, hout _ _ _ fun h => he h.2.2, hcell, if_pos ⟨rfl, rfl, rfl⟩]
      · have hne : x.msg ≠ e.msg := fun h => he (h ▸ List.mem_map_of_mem hx')
        rw [List.foldl_cons, hin x hx', hcell, if_neg fun h => hne h.2.1]
    · rw [List.foldl_cons, hout _ _ _ fun h => hnot ⟨h.1, h.2.1, List.mem_cons_of_mem _ h.2.2⟩,
        hcell, if_neg fun h => hnot ⟨h.1, h.2.2, by simp [h.2.1]⟩]

/-- When a handler can be taken out of a cell. -/
def Removable (c : MsgHandlers) (d : DemandDg) : Prop :=
  (d.flags.registrator = false → 0 < c.real) ∧
    (c.handlers.erase d.handler = [] → c.real = if d.flags.registrator then 0 else 1)

theorem unRegisterAll {f t : Uuid} {es : List DemandDg} (hnodup : (es.map DemandDg.msg).Nodup)
    (s : Patch) (h : ∀ e ∈ es, ∃ c, s.dg.cell f e.msg t = some c ∧ Removable c e) :
    ∃ s', es.foldlM (fun s d => unRegisteringReceiverForMsg d f t s) s = .ok s' ∧
      Frame s.dg s'.dg ∧ Loses s s' ∧
      (∀ e ∈ es, ∀ c, s.dg.cell f e.msg t = some c → ∃ c',
        c'.handlers = c.handlers.erase e.handler ∧
        c'.real = c.real - (if e.flags.registrator then 0 else 1) ∧
        s'.dg.cell f e.msg t = if c'.handlers = [] then none else some c') ∧
      ∀ u m r, ¬ (u = f ∧ r = t ∧ m ∈ es.map DemandDg.msg) →
        s'.dg.cell u m r = s.dg.cell u m r := by
  induction es generalizing s with
  | nil =>
    exact ⟨s, rfl, Frame.refl _, Loses.refl _, by simp, fun _ _ _ _ => rfl⟩
  | cons e es ih =>
    obtain ⟨he, hes⟩ := List.nodup_cons.1 hnodup
    obtain ⟨c, hc, hrem⟩ := h e List.mem_cons_self
    obtain ⟨t₁, c', ht, hframe₁, hhand, hreal, hcell, hloses₁⟩ :=
      unRegistering_loses hc hrem.1 hrem.2
    have hother : ∀ x ∈ es, t₁.dg.cell f x.msg t = s.dg.cell f x.msg t := fun x hx => by
      have hne : x.msg ≠ e.msg := fun h => he (h ▸ List.mem_map_of_mem hx)
      rw [hcell, if_neg fun h => hne h.2.1]
    obtain ⟨s', hs', hframe, hloses, hin, hout⟩ := ih hes t₁ fun x hx => by
      rw [hother x hx]
      exact h x (List.mem_cons_of_mem _ hx)
    refine ⟨s', ?_, hframe₁.trans hframe, hloses₁.trans hloses, fun x hx d hd => ?_,
      fun u m r hnot => ?_⟩
    · rw [List.foldlM_cons, ht]
      exact hs'
    · rcases List.mem_cons.1 hx with rfl | hx'
      · obtain rfl := Option.some.inj (hc.symm.trans hd)
        refine ⟨c', hhand, hreal, ?_⟩
        rw [hout _ _ _ fun h => he h.2.2, hcell, if_pos ⟨rfl, rfl, rfl⟩]
      · exact hin x hx' d ((hother x hx').trans hd)
    · rw [hout _ _ _ fun h => hnot ⟨h.1, h.2.1, List.mem_cons_of_mem _ h.2.2⟩, hcell,
        if_neg fun h => hnot ⟨h.1, h.2.2, by simp [h.2.1]⟩]

theorem unRegisterAll_idle {f t : Uuid} {l : List DemandDg} (s : Patch)
    (h : ∀ e ∈ l, Idle (s.dg.cell f e.msg t) e) :
    ∃ s', l.foldlM (fun s d => unRegisteringReceiverForMsg d f t s) s = .ok s' ∧
      Frame s.dg s'.dg ∧ (∀ u m r, s'.dg.cell u m r = s.dg.cell u m r) ∧
      s'.new = s.new ∧ s'.removed = s.removed ∧ (Counted s.dg → Counted s'.dg) := by
  induction l generalizing s with
  | nil => exact ⟨s, rfl, Frame.refl _, fun _ _ _ => rfl, rfl, rfl, id⟩
  | cons e l ih =>
    obtain ⟨t₁, ht, hframe₁, hcell₁, hnew₁, hold₁, hcount₁⟩ :=
      unRegistering_idle (h e List.mem_cons_self)
    obtain ⟨s', hs', hframe, hcell, hnew, hold, hcount⟩ := ih t₁ fun x hx => by
      rw [hcell₁]
      exact h x (List.mem_cons_of_mem _ hx)
    refine ⟨s', ?_, hframe₁.trans hframe, fun u m r => (hcell u m r).trans (hcell₁ u m r),
      hnew.trans hnew₁, hold.trans hold₁, hcount ∘ hcount₁⟩
    rw [List.foldlM_cons, ht]
    exact hs'

theorem CellOk.getD {o : Option MsgHandlers} {ds : List DemandDg} (h : CellOk o ds) :
    (o.getD .empty).handlers.Perm (ds.map DemandDg.handler) ∧
      (o.getD .empty).real = ds.countP fun d => !d.flags.registrator := by
  cases o with
  | none =>
    change ds = [] at h
    subst h
    exact ⟨List.Perm.refl _, rfl⟩
  | some c => exact h.2

/-- The list for a sender and a protocol is created. -/
def touch (s : Patch) (f : Uuid) (p : Text) : Patch :=
  { s with dg := s.dg.setExpected f p (s.dg.expectedFor f p) }

theorem touch_cell (s : Patch) (f u r : Uuid) (p : Text) (m : Msg) :
    (touch s f p).dg.cell u m r = s.dg.cell u m r := cell_setExpected_self _ _ _ _ _ _

theorem touch_counted (s : Patch) (f : Uuid) (p : Text) (h : Counted s.dg) :
    Counted (touch s f p).dg := h.congr fun _ _ => expectedFor_setExpected_self _ _ _ _ _

theorem sendPacketFromTo_eq (swap : SwapHeader) (f t : Uuid) (d : DemandDg) (s : Patch) :
    sendPacketFromTo swap f t d s = (covered swap s.dg.msgsGenealogy d).foldl
      (fun s e => registeringReceiverForMsg e f t s) (touch s f d.protocol) := by
  unfold sendPacketFromTo covered
  cases getValidHeader swap d <;> rfl

theorem unSendPacketFromTo_eq (swap : SwapHeader) (f t : Uuid) (d : DemandDg) (s : Patch) :
    unSendPacketFromTo swap f t d s = (covered swap s.dg.msgsGenealogy d).foldlM
      (fun s e => unRegisteringReceiverForMsg e f t s) (touch s f d.protocol) := by
  unfold unSendPacketFromTo covered
  cases getValidHeader swap d <;> rfl

theorem real_congr {dg dg' : RequiredDG} (h : ∀ u m r, dg'.cell u m r = dg.cell u m r) :
    real dg' = real dg := by
  ext x
  change (∃ c, dg'.cell x.sender x.msg x.receiver = some c ∧ _) ↔ _
  rw [h]
  rfl

/-- A sender begins to send for a demand of a receiver, whose handler is new to it. -/
theorem sendPacketFromTo_spec {swap : SwapHeader} {f t : Uuid} {d : DemandDg} {s : Patch}
    {G : Regs} (h : CellsOk swap s.dg G) (hnew : ∀ e, G f t e → e.handler ≠ d.handler) :
    Frame s.dg (sendPacketFromTo swap f t d s).dg ∧
      CellsOk swap (sendPacketFromTo swap f t d s).dg (G.add f t d) ∧
      Gains s (sendPacketFromTo swap f t d s) := by
  have hnodup := msgsOf_nodup swap s.dg.msgsGenealogy d
  obtain ⟨hframe, hgains, hin, hout⟩ :=
    registerAll (f := f) (t := t) hnodup (touch s f d.protocol)
  rw [← sendPacketFromTo_eq] at hframe hgains hin hout
  have htouch : Gains s (touch s f d.protocol) :=
    Gains.of_same (touch_counted s f _) rfl rfl (real_congr fun u m r => touch_cell s f u r _ m)
  refine ⟨(frame_setExpected _ _ _ _).trans hframe, fun u m r => ?_, htouch.trans hgains⟩
  have hgen : (sendPacketFromTo swap f t d s).dg.msgsGenealogy = s.dg.msgsGenealogy :=
    hframe.msgsGenealogy
  obtain ⟨ds, hds, hmem, hok⟩ := h u m r
  rw [hgen]
  by_cases hp : u = f ∧ r = t ∧ m ∈ msgsOf swap s.dg.msgsGenealogy d
  · obtain ⟨rfl, rfl, hm⟩ := hp
    obtain ⟨e, he, rfl⟩ := List.mem_map.1 hm
    obtain ⟨hhand, hreg⟩ := covered_same he
    obtain ⟨hperm, hreal⟩ := hok.getD
    have hfresh : d.handler ∉ ds.map DemandDg.handler := fun hd => by
      obtain ⟨x, hx, hxd⟩ := List.mem_map.1 hd
      exact hnew x ((hmem x).1 hx).1 hxd
    refine ⟨plain d :: ds, List.nodup_cons.2 ⟨fun hd => ?_, hds⟩, fun x => ?_, ?_⟩
    · exact hfresh (List.mem_map.2 ⟨plain d, hd, rfl⟩)
    · rw [List.mem_cons, hmem]
      constructor
      · rintro (rfl | ⟨hG, hx⟩)
        · exact ⟨.inr ⟨rfl, rfl, rfl⟩, by rw [msgsOf_plain]; exact hm⟩
        · exact ⟨.inl hG, hx⟩
      · rintro ⟨hG | ⟨-, -, rfl⟩, hx⟩
        · exact .inr ⟨hG, hx⟩
        · exact .inl rfl
    · rw [hin e he, touch_cell]
      refine ⟨List.cons_ne_nil _ _, ?_, ?_⟩
      · have hfresh' : e.handler ∉ ((s.dg.cell u e.msg r).getD .empty).handlers := fun hx =>
          hfresh (hhand ▸ hperm.subset hx)
        refine (MsgHandlers.addHandler_perm hfresh').trans ?_
        rw [List.map_cons, hhand]
        exact hperm.cons _
      · rw [MsgHandlers.addHandler_real, hreal, hreg, List.countP_cons]
        change _ = _ + if (!d.flags.registrator) = true then 1 else 0
        cases d.flags.registrator <;> rfl
  · refine ⟨ds, hds, fun x => ?_, ?_⟩
    · rw [hmem]
      constructor
      · rintro ⟨hG, hx⟩
        exact ⟨.inl hG, hx⟩
      · rintro ⟨hG | ⟨rfl, rfl, rfl⟩, hx⟩
        · exact ⟨hG, hx⟩
        · rw [msgsOf_plain] at hx
          exact absurd ⟨rfl, rfl, hx⟩ hp
    · rw [hout u m r hp, touch_cell]
      exact hok

/-- A sender ceases to send for a demand of a receiver. -/
theorem unSendPacketFromTo_spec {swap : SwapHeader} {f t : Uuid} {d : DemandDg} {s : Patch}
    {G : Regs} (h : CellsOk swap s.dg G) (hd : G f t (plain d)) :
    ∃ s', unSendPacketFromTo swap f t d s = .ok s' ∧ Frame s.dg s'.dg ∧
      CellsOk swap s'.dg (G.sub f t d) ∧ Loses s s' := by
  have hnodup := msgsOf_nodup swap s.dg.msgsGenealogy d
  -- the demands of each cell of `d`, with `d` among them
  have hcells : ∀ e ∈ covered swap s.dg.msgsGenealogy d, ∃ ds : List DemandDg, ds.Nodup ∧
      (∀ x, x ∈ ds ↔ G f t x ∧ e.msg ∈ msgsOf swap s.dg.msgsGenealogy x) ∧ plain d ∈ ds ∧
      ∃ c, s.dg.cell f e.msg t = some c ∧ CellOk (some c) ds := by
    intro e he
    obtain ⟨ds, hds, hmem, hok⟩ := h f e.msg t
    have hpd : plain d ∈ ds :=
      (hmem _).2 ⟨hd, by rw [msgsOf_plain]; exact List.mem_map_of_mem he⟩
    refine ⟨ds, hds, hmem, hpd, ?_⟩
    cases hc : s.dg.cell f e.msg t with
    | none =>
      rw [hc] at hok
      change ds = [] at hok
      rw [hok] at hpd
      cases hpd
    | some c => exact ⟨c, rfl, hc ▸ hok⟩
  have herase : ∀ {ds : List DemandDg} {c : MsgHandlers}, plain d ∈ ds → CellOk (some c) ds →
      (c.handlers.erase d.handler).Perm ((ds.erase (plain d)).map DemandDg.handler) ∧
        c.real = ((ds.erase (plain d)).countP fun x => !x.flags.registrator) +
          if d.flags.registrator then 0 else 1 := by
    intro ds c hpd hok
    have hsplit := List.perm_cons_erase hpd
    constructor
    · have hmap := (hok.2.1.trans (hsplit.map DemandDg.handler)).erase d.handler
      rw [List.map_cons] at hmap
      have hhead : (plain d).handler = d.handler := rfl
      rwa [hhead, List.erase_cons_head] at hmap
    · rw [hok.2.2, hsplit.countP_eq, List.countP_cons]
      change _ + (if (!d.flags.registrator) = true then 1 else 0) = _
      cases d.flags.registrator <;> rfl
  obtain ⟨s', hs', hframe, hloses, hin, hout⟩ := unRegisterAll (f := f) (t := t) hnodup
    (touch s f d.protocol) (fun e he => by
      obtain ⟨ds, -, -, hpd, c, hc, hok⟩ := hcells e he
      obtain ⟨hhand, hreg⟩ := covered_same he
      obtain ⟨hperm, hreal⟩ := herase hpd hok
      refine ⟨c, (touch_cell _ _ _ _ _ _).trans hc, fun hr => ?_, fun hnil => ?_⟩
      · rw [hreal, ← hreg, hr]
        simp
      · rw [hhand] at hnil
        rw [hnil] at hperm
        have hds := List.map_eq_nil_iff.1 (List.nil_perm.1 hperm)
        rw [hreal, hds, hreg]
        simp)
  have htouch : Loses s (touch s f d.protocol) :=
    Loses.of_same (touch_counted s f _) rfl rfl (real_congr fun u m r => touch_cell s f u r _ m)
  refine ⟨s', by rw [unSendPacketFromTo_eq]; exact hs', (frame_setExpected _ _ _ _).trans hframe,
    fun u m r => ?_, htouch.trans hloses⟩
  have hgen : s'.dg.msgsGenealogy = s.dg.msgsGenealogy := hframe.msgsGenealogy
  rw [hgen]
  by_cases hp : u = f ∧ r = t ∧ m ∈ msgsOf swap s.dg.msgsGenealogy d
  · obtain ⟨rfl, rfl, hm⟩ := hp
    obtain ⟨e, he, rfl⟩ := List.mem_map.1 hm
    obtain ⟨hhand, hreg⟩ := covered_same he
    obtain ⟨ds, hds, hmem, hpd, c, hc, hok⟩ := hcells e he
    obtain ⟨hperm, hreal⟩ := herase hpd hok
    obtain ⟨c', hhand', hreal', hcell⟩ := hin e he c ((touch_cell _ _ _ _ _ _).trans hc)
    refine ⟨ds.erase (plain d), hds.erase _, fun x => ?_, ?_⟩
    · rw [hds.mem_erase_iff, hmem]
      constructor
      · rintro ⟨hne, hG, hx⟩
        exact ⟨⟨hG, fun hh => hne hh.2.2⟩, hx⟩
      · rintro ⟨⟨hG, hnot⟩, hx⟩
        exact ⟨fun hxd => hnot ⟨rfl, rfl, hxd⟩, hG, hx⟩
    · rw [hcell]
      rw [hhand] at hhand'
      split_ifs with hnil
      · rw [← hhand', hnil] at hperm
        exact List.map_eq_nil_iff.1 (List.nil_perm.1 hperm)
      · refine ⟨fun hds' => hnil ?_, hhand' ▸ hperm, ?_⟩
        · rw [hds'] at hperm
          rw [hhand']
          exact hperm.eq_nil
        · rw [hreal', hreal, hreg]
          omega
  · obtain ⟨ds, hds, hmem, hok⟩ := h u m r
    refine ⟨ds, hds, fun x => ?_, ?_⟩
    · rw [hmem]
      constructor
      · rintro ⟨hG, hx⟩
        refine ⟨⟨hG, ?_⟩, hx⟩
        rintro ⟨rfl, rfl, rfl⟩
        rw [msgsOf_plain] at hx
        exact hp ⟨rfl, rfl, hx⟩
      · rintro ⟨⟨hG, -⟩, hx⟩
        exact ⟨hG, hx⟩
    · rw [hout u m r hp, touch_cell]
      exact hok

/-- Unregistering the demand finds nothing to do: those that share a message with it have other
    handlers, and it is not counted. -/
def Gone (swap : SwapHeader) (g : Genealogy) (G : Regs) (f t : Uuid) (d : DemandDg) : Prop :=
  ∀ e, G f t e → ∀ m ∈ msgsOf swap g e, m ∈ msgsOf swap g d →
    d.flags.registrator = true ∧ e.handler ≠ d.handler

theorem unSendPacketFromTo_gone {swap : SwapHeader} {f t : Uuid} {d : DemandDg} {s : Patch}
    {G : Regs} (h : CellsOk swap s.dg G) (hgone : Gone swap s.dg.msgsGenealogy G f t d) :
    ∃ s', unSendPacketFromTo swap f t d s = .ok s' ∧ Frame s.dg s'.dg ∧ CellsOk swap s'.dg G ∧
      Loses s s' := by
  obtain ⟨s', hs', hframe, hcell, hnew, hold, hcount⟩ := unRegisterAll_idle (f := f) (t := t)
    (l := covered swap s.dg.msgsGenealogy d) (touch s f d.protocol) (fun e he => by
      rw [touch_cell]
      obtain ⟨ds, -, hmem, hok⟩ := h f e.msg t
      obtain ⟨hhand, hreg⟩ := covered_same he
      have hgone' : ∀ x ∈ ds, d.flags.registrator = true ∧ x.handler ≠ d.handler :=
        fun x hx => by
          obtain ⟨hG, hm⟩ := (hmem x).1 hx
          exact hgone x hG _ hm (List.mem_map_of_mem he)
      cases hc : s.dg.cell f e.msg t with
      | none => trivial
      | some c =>
        rw [hc] at hok
        obtain ⟨hne, hperm, -⟩ := hok
        obtain ⟨x, hx⟩ := List.exists_mem_of_ne_nil ds hne
        refine ⟨hreg ▸ (hgone' x hx).1, fun hmem' => ?_, fun hnil => hne ?_⟩
        · obtain ⟨y, hy, hyd⟩ := List.mem_map.1 (hperm.subset hmem')
          exact (hgone' y hy).2 (hyd.trans hhand)
        · rw [hnil] at hperm
          exact List.map_eq_nil_iff.1 (List.nil_perm.1 hperm))
  have hsame : ∀ u m r, s'.dg.cell u m r = s.dg.cell u m r := fun u m r =>
    (hcell u m r).trans (touch_cell _ _ _ _ _ _)
  refine ⟨s', by rw [unSendPacketFromTo_eq]; exact hs', (frame_setExpected _ _ _ _).trans hframe,
    h.congr hframe.msgsGenealogy hsame fun _ _ _ _ => Iff.rfl,
    Loses.of_same (hcount ∘ touch_counted s f _) hnew hold (real_congr hsame)⟩

end UdtKernel.RequiredDG
