import UdtKernel.RequiredDG.AddClient

set_option autoImplicit false

/-! What a client that leaves makes of the table. -/

namespace UdtKernel.RequiredDG
open UdtKernel.Lib UdtKernel.Address

variable {swap : SwapHeader}

def sentMsgs (dg : RequiredDG) (aFrom : Uuid) : List (Msg × (Uuid × MsgHandlers)) :=
  ((dg.whatIsSendingBy.find aFrom).getD .empty).entries.flatMap fun p =>
    p.2.expected.entries.flatMap fun x => x.2.receivers.entries.map fun e => ((p.1.name, x.1), e)

theorem receiversFrom_eq (dg : RequiredDG) (aFrom : Uuid) :
    dg.receiversFrom aFrom = (dg.sentMsgs aFrom).map Prod.snd := by
  simp [receiversFrom, sentMsgs, SortedMap.values, List.map_flatMap, List.flatMap_map,
    Function.comp_def]

theorem mem_sentMsgs {dg : RequiredDG} {aFrom : Uuid} {m : Msg} {r : Uuid} {c : MsgHandlers} :
    (m, (r, c)) ∈ dg.sentMsgs aFrom ↔ dg.cell aFrom m r = some c := by
  obtain ⟨p, h⟩ := m
  unfold cell expectedFor sentMsgs
  simp only [List.mem_flatMap, List.mem_map, Prod.mk.injEq, Prod.exists, SortedMap.mem_entries_iff]
  cases hu : dg.whatIsSendingBy.find aFrom with
  | none => simp
  | some protocols =>
    simp only [Option.getD_some, Option.bind_some]
    cases hp : protocols.find ⟨p⟩ with
    | none =>
      simp only [SortedMap.find_empty, Option.bind_none]
      constructor
      · rintro ⟨p', routing, hr, h', x, hx, e, c', hc, ⟨rfl, rfl⟩, rfl, rfl⟩
        rw [hp] at hr
        cases hr
      · rintro ⟨⟩
    | some routing =>
      simp only
      constructor
      · rintro ⟨p', routing', hr, h', x, hx, e, c', hc, ⟨rfl, rfl⟩, rfl, rfl⟩
        rw [hp] at hr
        obtain rfl := Option.some.inj hr
        rw [hx, Option.bind_some]
        exact hc
      · intro hc
        cases hx : routing.expected.find h with
        | none => rw [hx] at hc; cases hc
        | some x =>
          rw [hx, Option.bind_some] at hc
          exact ⟨⟨p⟩, routing, hp, h, x, hx, r, c, hc, ⟨rfl, rfl⟩, rfl, rfl⟩

/-- No cell comes twice. -/
theorem sentMsgs_pairwise (dg : RequiredDG) (aFrom : Uuid) :
    (dg.sentMsgs aFrom).Pairwise fun x y => ¬ (x.1 = y.1 ∧ x.2.1 = y.2.1) := by
  refine List.pairwise_flatMap.2 ⟨fun p _ => List.pairwise_flatMap.2 ⟨fun x _ => ?_, ?_⟩, ?_⟩
  · refine List.pairwise_map.2 (x.2.receivers.sorted.imp ?_)
    intro e e' hlt hh
    exact ne_of_lt hlt hh.2
  · refine p.2.expected.sorted.imp ?_
    intro a b hlt x hx y hy hh
    obtain ⟨_, _, rfl⟩ := List.mem_map.1 hx
    obtain ⟨_, _, rfl⟩ := List.mem_map.1 hy
    exact ne_of_lt hlt (Prod.mk.inj hh.1).2
  · refine (SortedMap.sorted _).imp ?_
    intro a b hlt x hx y hy hh
    obtain ⟨_, _, hx⟩ := List.mem_flatMap.1 hx
    obtain ⟨_, _, hy⟩ := List.mem_flatMap.1 hy
    obtain ⟨_, _, rfl⟩ := List.mem_map.1 hx
    obtain ⟨_, _, rfl⟩ := List.mem_map.1 hy
    exact ne_of_lt hlt (Protocol.name_injective (Prod.mk.inj hh.1).1)

/-- The demands of a receiver in a map that lists are appended to. -/
theorem find_foldl_append {α : Type} (key : α → Uuid) (f : α → List DemandDg) (l : List α)
    (m : DemandDgsFor) (r : Uuid) :
    ((l.foldl (fun (res : DemandDgsFor) x => res.alter (key x) fun o => some (o.getD [] ++ f x))
      m).find r).getD [] =
      (m.find r).getD [] ++ l.flatMap fun x => if key x = r then f x else [] := by
  induction l generalizing m with
  | nil => simp
  | cons x l ih =>
    rw [List.foldl_cons, ih, List.flatMap_cons, ← List.append_assoc]
    congr 1
    rw [SortedMap.find_alter]
    by_cases hr : r = key x
    · rw [if_pos hr, if_pos hr.symm, hr]
      rfl
    · rw [if_neg hr, if_neg fun hh => hr hh.symm, List.append_nil]

def sentTo (dg : RequiredDG) (aFrom r : Uuid) : List DemandDg :=
  (dg.sentMsgs aFrom).flatMap fun x => if x.2.1 = r then
    getDemandsByHandlers x.2.2.handlers (dg.getDemandFor r) else []

theorem getWhatMsgSentFrom_find (dg : RequiredDG) (aFrom r : Uuid) :
    ((dg.getWhatMsgSentFrom aFrom).find r).getD [] = dg.sentTo aFrom r := by
  rw [getWhatMsgSentFrom, find_foldl_append, receiversFrom_eq, List.flatMap_map,
    SortedMap.find_empty, Option.getD_none, List.nil_append, sentTo]
  refine List.flatMap_congr fun x _ => ?_
  split_ifs with hx
  · rw [hx]
  · rfl

/-- The demand that a handler of a cell stands for. -/
theorem Kept.cell_handler {dg : RequiredDG} (hk : Kept swap dg) {u r : Uuid} {m : Msg}
    {c : MsgHandlers} (hc : dg.cell u m r = some c) {h : ℕ} (hh : h ∈ c.handlers) :
    ∃ d ∈ dg.getDemandFor r, d.handler = h ∧ Selected dg.ids d u ∧
      m ∈ msgsOf swap dg.msgsGenealogy d := by
  obtain ⟨ds, -, hmem, hok⟩ := hk.cells u m r
  rw [hc] at hok
  obtain ⟨x, hx, rfl⟩ := List.mem_map.1 (hok.2.1.subset hh)
  obtain ⟨⟨d, hd, rfl, hsel⟩, hm⟩ := (hmem x).1 hx
  exact ⟨d, hd, rfl, hsel, by rwa [msgsOf_plain] at hm⟩

theorem Kept.handlers_nodup {dg : RequiredDG} (hk : Kept swap dg) {u r : Uuid} {m : Msg}
    {c : MsgHandlers} (hc : dg.cell u m r = some c) : c.handlers.Nodup := by
  obtain ⟨ds, hnodup, hmem, hok⟩ := hk.cells u m r
  rw [hc] at hok
  rw [hok.2.1.nodup_iff]
  refine hnodup.map_on fun x hx y hy hxy => ?_
  obtain ⟨⟨d, hd, rfl, -⟩, -⟩ := (hmem x).1 hx
  obtain ⟨⟨e, he, rfl, -⟩, -⟩ := (hmem y).1 hy
  rw [(hk.lists r).eq_of_handler hd he hxy]

/-- A handler of a cell is in it for each message of its demand. -/
theorem Kept.handler_mem {dg : RequiredDG} (hk : Kept swap dg) {u r : Uuid} {d : DemandDg}
    (hd : d ∈ dg.getDemandFor r) (hsel : Selected dg.ids d u) {m : Msg}
    (hm : m ∈ msgsOf swap dg.msgsGenealogy d) :
    ∃ c, dg.cell u m r = some c ∧ d.handler ∈ c.handlers := by
  obtain ⟨ds, -, hmem, hok⟩ := hk.cells u m r
  have hpd : plain d ∈ ds := (hmem _).2 ⟨⟨d, hd, rfl, hsel⟩, by rwa [msgsOf_plain]⟩
  cases hc : dg.cell u m r with
  | none =>
    rw [hc] at hok
    change ds = [] at hok
    rw [hok] at hpd
    cases hpd
  | some c =>
    rw [hc] at hok
    exact ⟨c, rfl, hok.2.1.symm.subset (List.mem_map.2 ⟨plain d, hpd, rfl⟩)⟩

/-- Looking for the demand of a handler finds it. -/
theorem ListOk.mem_byHandlers {ds : List DemandDg} (h : ListOk ds) {hs : List ℕ} {d : DemandDg} :
    d ∈ getDemandsByHandlers hs ds ↔ d ∈ ds ∧ d.handler ∈ hs := by
  simp only [getDemandsByHandlers, List.mem_filterMap]
  constructor
  · rintro ⟨k, hk, hfind⟩
    have hhandler := List.find?_some hfind
    simp only [decide_eq_true_eq] at hhandler
    exact ⟨List.mem_of_find?_eq_some hfind, hhandler ▸ hk⟩
  · rintro ⟨hd, hk⟩
    refine ⟨d.handler, hk, ?_⟩
    cases hfind : ds.find? fun x => decide (x.handler = d.handler) with
    | none =>
      have hno := List.find?_eq_none.1 hfind d hd
      simp at hno
    | some e =>
      have hhandler := List.find?_some hfind
      simp only [decide_eq_true_eq] at hhandler
      rw [h.eq_of_handler (List.mem_of_find?_eq_some hfind) hd hhandler]

theorem Kept.mem_sentTo {dg : RequiredDG} (hk : Kept swap dg) {u r : Uuid} {d : DemandDg} :
    d ∈ dg.sentTo u r ↔ d ∈ dg.getDemandFor r ∧ Selected dg.ids d u ∧ Live swap dg d := by
  rw [sentTo, List.mem_flatMap]
  constructor
  · rintro ⟨⟨m, r', c⟩, hx, hd⟩
    split_ifs at hd with hr
    · dsimp only at hr hd
      subst hr
      obtain ⟨hd, hh⟩ := (hk.lists _).mem_byHandlers.1 hd
      obtain ⟨e, he, heh, hsel, hm⟩ := hk.cell_handler (mem_sentMsgs.1 hx) hh
      obtain rfl := (hk.lists _).eq_of_handler he hd heh
      exact ⟨hd, hsel, List.ne_nil_of_mem hm⟩
    · cases hd
  · rintro ⟨hd, hsel, hlive⟩
    obtain ⟨m, hm⟩ := List.exists_mem_of_ne_nil _ hlive
    obtain ⟨c, hc, hh⟩ := hk.handler_mem hd hsel hm
    refine ⟨(m, (r, c)), mem_sentMsgs.2 hc, ?_⟩
    rw [if_pos rfl]
    exact (hk.lists r).mem_byHandlers.2 ⟨hd, hh⟩

theorem two_le_length {α : Type} {l : List α} {x y : α} (hx : x ∈ l) (hy : y ∈ l) (hne : x ≠ y) :
    2 ≤ l.length := by
  match l with
  | [] => cases hx
  | [z] => exact absurd ((List.mem_singleton.1 hx).trans (List.mem_singleton.1 hy).symm) hne
  | _ :: _ :: _ => simp

/-- Only a demand for several messages comes more than once. -/
theorem Kept.sentTo_pairwise {dg : RequiredDG} (hk : Kept swap dg) (u r : Uuid) :
    (dg.sentTo u r).Pairwise fun d e =>
      d.handler = e.handler → 2 ≤ (msgsOf swap dg.msgsGenealogy d).length := by
  have hfound : ∀ x ∈ dg.sentMsgs u, ∀ d,
      d ∈ (if x.2.1 = r then getDemandsByHandlers x.2.2.handlers (dg.getDemandFor r) else []) →
      x.2.1 = r ∧ d ∈ dg.getDemandFor r ∧ x.1 ∈ msgsOf swap dg.msgsGenealogy d := by
    rintro ⟨m, r', c⟩ hx d hd
    split_ifs at hd with hr
    · dsimp only at hr hd
      subst hr
      obtain ⟨hd, hh⟩ := (hk.lists _).mem_byHandlers.1 hd
      obtain ⟨e, he, heh, -, hm⟩ := hk.cell_handler (mem_sentMsgs.1 hx) hh
      obtain rfl := (hk.lists _).eq_of_handler he hd heh
      exact ⟨rfl, hd, hm⟩
    · cases hd
  refine List.pairwise_flatMap.2 ⟨?_, (dg.sentMsgs_pairwise u).imp_of_mem ?_⟩
  · rintro ⟨m, r', c⟩ hx
    dsimp only
    split_ifs with hr
    · -- in one cell each handler comes once
      refine List.pairwise_filterMap.2 ((hk.handlers_nodup (mem_sentMsgs.1 hx)).imp ?_)
      intro h h' hne d hd e he heq
      have hdh := List.find?_some hd
      have heh := List.find?_some he
      simp only [decide_eq_true_eq] at hdh heh
      exact absurd (hdh.symm.trans (heq.trans heh)) hne
    · exact List.Pairwise.nil
  · intro x y hx hy hne d hd e he heq
    obtain ⟨hxr, hdm, hm⟩ := hfound x hx d hd
    obtain ⟨hyr, hem, hm'⟩ := hfound y hy e he
    obtain rfl := (hk.lists r).eq_of_handler hdm hem heq
    exact two_le_length hm hm' fun hh => hne ⟨hh, hxr.trans hyr.symm⟩

theorem removeAllReceiversForMsgsFrom_eq (swap : SwapHeader) (aFrom : Id) (s : Patch) :
    removeAllReceiversForMsgsFrom swap aFrom s = (do
      let ways ← getDistance aFrom (s.dg.getWhatMsgSentFrom aFrom.uuid)
      let (added, removed, dg) ← takeIntoAccountOnlyNearestSendersIfNeed aFrom.uuid [] ways s.dg
      let s ← updateSendInfoFor swap added removed { s with dg := dg }
      return { s with dg :=
        { s.dg with whatIsSendingBy := s.dg.whatIsSendingBy.erase aFrom.uuid } }) := by
  unfold removeAllReceiversForMsgsFrom
  by_cases hnil : demandsOf (s.dg.getWhatMsgSentFrom aFrom.uuid) = []
  · simp only [hnil, getDistance, ne_eq, not_true_eq_false, if_false]
    rfl
  · simp only [hnil, ne_eq, not_false_eq_true, if_true]

/-- When the undoing of what a sender sends goes wrong: a demand that comes up for each of its
    messages is undone once more while another one still needs a message of it, or after a
    farther sender has taken the place of the sender. -/
structure UndoOk (swap : SwapHeader) (dg : RequiredDG) (aFrom r : Uuid) (d : DemandDg) : Prop where
  alone : d.flags.registrator = false → ∀ e ∈ dg.getDemandFor r, e ≠ d → Selected dg.ids e aFrom →
    ∀ m ∈ msgsOf swap dg.msgsGenealogy e, m ∉ msgsOf swap dg.msgsGenealogy d
  same : d.flags.nearest = true → ∀ v, Selected (dg.ids.erase aFrom) d v →
    depthOf dg.ids d v = depthOf dg.ids d aFrom

theorem UndoOk.promoted {dg : RequiredDG} {u r : Uuid} {w : WayInfo}
    (h : UndoOk swap dg u r w.what) (hconf : AllConformable dg.ids w.what)
    (hdist : w.distance = depthOf dg.ids w.what u) : promoted dg.ids u w = [] := by
  refine List.eq_nil_iff_forall_not_mem.2 fun p hp => ?_
  obtain ⟨hn, hne, hsel, -, -, hd⟩ := (mem_promoted hconf).1 hp
  have hpu : p.from_ ≠ u := fun heq => hsel.1 (by rw [depthOf_erase, if_pos heq])
  rw [depthOf_erase, if_neg hpu] at hd
  exact hne (hd.trans ((h.same hn _ hsel).trans hdist.symm))

/-- Without one sender a demand is for the same other ones, unless that one was the only
    nearest. -/
theorem selected_erase {aIds : SortedMap Uuid Text} {d : DemandDg} {u v : Uuid} (hvu : v ≠ u) :
    Selected (aIds.erase u) d v ↔ Selected aIds d v ∨ (d.flags.nearest = true ∧
      Selected aIds d u ∧ Selected (aIds.erase u) d v ∧ depthOf aIds d v ≠ depthOf aIds d u) := by
  have hdepth : ∀ x, x ≠ u → depthOf (aIds.erase u) d x = depthOf aIds d x := fun x hx => by
    rw [depthOf_erase, if_neg hx]
  constructor
  · intro hsel
    by_cases hv : Selected aIds d v
    · exact .inl hv
    · have hz : depthOf aIds d v ≠ 0 := hdepth v hvu ▸ hsel.1
      have hnot : ¬ (d.flags.nearest = true →
          ∀ x, depthOf aIds d x ≠ 0 → depthOf aIds d v ≤ depthOf aIds d x) := fun hh => hv ⟨hz, hh⟩
      push Not at hnot
      obtain ⟨hn, x, hx, hlt⟩ := hnot
      have hothers : ∀ y, y ≠ u → depthOf aIds d y ≠ 0 → depthOf aIds d v ≤ depthOf aIds d y :=
        fun y hy hzy => by
          have hle := hsel.2 hn y (by rwa [hdepth y hy])
          rwa [hdepth y hy, hdepth v hvu] at hle
      have hxu : x = u := by
        by_contra hne
        exact absurd (hothers x hne hx) (not_le.2 hlt)
      subst hxu
      refine .inr ⟨hn, ⟨hx, fun _ y hy => ?_⟩, hsel, hlt.ne'⟩
      by_cases hyu : y = x
      · rw [hyu]
      · exact hlt.le.trans (hothers y hyu hy)
  · rintro (hsel | ⟨-, -, hsel, -⟩)
    · refine ⟨by rw [hdepth v hvu]; exact hsel.1, fun hn x hx => ?_⟩
      by_cases hxu : x = u
      · exact absurd (by rw [depthOf_erase, if_pos hxu]) hx
      · rw [hdepth x hxu] at hx ⊢
        rw [hdepth v hvu]
        exact hsel.2 hn x hx
    · exact hsel

/-- What is sent to a sender's receivers, as ways: each demand once for each cell. -/
abbrev sentBy (dg : RequiredDG) (aFrom : Id) : List WayInfo :=
  (demandsOf (dg.getWhatMsgSentFrom aFrom.uuid)).map (wayFrom aFrom)

theorem undo_pairwise {dg : RequiredDG} (hk : Kept swap dg) (aFrom : Id) :
    (sentBy dg aFrom).Pairwise
      fun w w' => SameRecord w w' → 2 ≤ (msgsOf swap dg.msgsGenealogy w.what).length := by
  have h := demandsOf_pairwise (m := dg.getWhatMsgSentFrom aFrom.uuid)
    (R := fun _ d e => d.handler = e.handler → 2 ≤ (msgsOf swap dg.msgsGenealogy d).length)
    fun r => by
      rw [getWhatMsgSentFrom_find]
      exact hk.sentTo_pairwise aFrom.uuid r
  refine List.pairwise_map.2 (h.imp ?_)
  intro e e' hR hsame
  exact hR hsame.1 hsame.2

/-- The cells of a sender that is to send nothing are not there to be erased. -/
theorem CellsOk.cell_erase {dg : RequiredDG} {G : Regs} (h : CellsOk swap dg G) {u : Uuid}
    (hnone : ∀ r e, ¬ G u r e) (v : Uuid) (m : Msg) (r : Uuid) :
    ({ dg with whatIsSendingBy := dg.whatIsSendingBy.erase u } : RequiredDG).cell v m r =
      dg.cell v m r := by
  unfold cell expectedFor
  dsimp only
  rw [SortedMap.find_erase]
  split_ifs with hv
  · subst hv
    obtain ⟨ds, -, hmem, hok⟩ := h v m r
    have hds : ds = [] := List.eq_nil_iff_forall_not_mem.2 fun x hx => hnone _ _ ((hmem x).1 hx).1
    change none = dg.cell v m r
    cases hc : dg.cell v m r with
    | none => rfl
    | some c =>
      rw [hc] at hok
      exact absurd hds hok.1
  · rfl

section Leaving

variable {dg : RequiredDG} {aFrom : Id} (hk : Kept swap dg)
  (hfind : dg.ids.find aFrom.uuid = some aFrom.name)
include hk hfind

theorem mem_undo {w : WayInfo} :
    w ∈ sentBy dg aFrom ↔ w.from_ = aFrom.uuid ∧ w.what ∈ dg.getDemandFor w.for_ ∧
      Selected dg.ids w.what aFrom.uuid ∧ Live swap dg w.what ∧
      w.distance = depthOf dg.ids w.what aFrom.uuid := by
  have hdepth : ∀ d, depthOf dg.ids d aFrom.uuid = nameDepth aFrom.name d := fun d => by
    rw [depthOf, hfind]
  rw [List.mem_map, hdepth]
  constructor
  · rintro ⟨⟨r, d⟩, he, rfl⟩
    rw [mem_demandsOf, getWhatMsgSentFrom_find, hk.mem_sentTo] at he
    exact ⟨rfl, he.1, he.2.1, he.2.2, rfl⟩
  · rintro ⟨hf, hd, hsel, hlive, hdist⟩
    refine ⟨(w.for_, w.what), ?_, ?_⟩
    · rw [mem_demandsOf, getWhatMsgSentFrom_find, hk.mem_sentTo]
      exact ⟨hd, hsel, hlive⟩
    · rw [wayFrom, ← hf, ← hdist]

theorem conformable_sentBy {w : WayInfo} (hw : w ∈ sentBy dg aFrom) :
    AllConformable dg.ids w.what :=
  hk.conformable w.for_ w.what ((mem_undo hk hfind).1 hw).2.1

theorem nearest_sentBy {w : WayInfo} (hw : w ∈ sentBy dg aFrom)
    (hn : w.what.flags.nearest = true) :
    dg.nearestOf w.for_ w.what.handler = w.distance := by
  obtain ⟨-, hmem, hsel, hlive, hdist⟩ := (mem_undo hk hfind).1 hw
  rw [hdist]
  exact hk.nearest _ _ hmem hn hlive _ hsel

theorem getDistance_sentBy :
    getDistance aFrom (dg.getWhatMsgSentFrom aFrom.uuid) = .ok (sentBy dg aFrom) := by
  refine getDistance_spec fun e he => ?_
  have hw := (mem_undo hk hfind).1 (List.mem_map_of_mem (f := wayFrom aFrom) he)
  exact hk.conformable e.1 e.2 hw.2.1 _ ((SortedMap.mem_entries_iff _ _ _).2 hfind)

/-- What takes the place of a way: who is nearest without the sender, if not as near. -/
theorem mem_promoted_sentBy {w p : WayInfo} (hw : w ∈ sentBy dg aFrom) :
    p ∈ promoted dg.ids aFrom.uuid w ↔ w.what.flags.nearest = true ∧ p.from_ ≠ aFrom.uuid ∧
      Selected (dg.ids.erase aFrom.uuid) w.what p.from_ ∧ p.for_ = w.for_ ∧ p.what = w.what ∧
      p.distance = depthOf dg.ids w.what p.from_ ∧
      depthOf dg.ids w.what p.from_ ≠ depthOf dg.ids w.what aFrom.uuid := by
  have hdist := ((mem_undo hk hfind).1 hw).2.2.2.2
  rw [mem_promoted (conformable_sentBy hk hfind hw)]
  constructor
  · rintro ⟨hn, hne, hsel, hf, hwhat, hd⟩
    have hpu : p.from_ ≠ aFrom.uuid := fun heq => hsel.1 (by rw [depthOf_erase, if_pos heq])
    rw [depthOf_erase, if_neg hpu] at hd
    exact ⟨hn, hpu, hsel, hf, hwhat, hd, fun heq => hne (hd.trans (heq.trans hdist.symm))⟩
  · rintro ⟨hn, hpu, hsel, hf, hwhat, hd, hne⟩
    refine ⟨hn, fun heq => hne ?_, hsel, hf, hwhat, ?_⟩
    · rw [← hd, heq, hdist]
    · rw [hd, depthOf_erase, if_neg hpu]

/-- What is to be sent without the sender: others take the place of its ways. -/
theorem target_erase {v r : Uuid} {e : DemandDg} (hlive : Live swap dg e) :
    target { dg with ids := dg.ids.erase aFrom.uuid } v r e ↔
      ((target dg).subAll (sentBy dg aFrom)).addAll
        ((sentBy dg aFrom).flatMap (promoted dg.ids aFrom.uuid)) v r e := by
  simp only [Regs.addAll, Regs.subAll, List.mem_flatMap]
  constructor
  · rintro ⟨d, hd, rfl, hsel⟩
    have hlive : Live swap dg d := by rwa [Live, msgsOf_plain] at hlive
    have hvu : v ≠ aFrom.uuid := fun heq => hsel.1 (by rw [depthOf_erase, if_pos heq])
    rcases (selected_erase hvu).1 hsel with hv | ⟨hn, hself, -, hne⟩
    · refine .inl ⟨⟨d, hd, rfl, hv⟩, ?_⟩
      rintro ⟨w, hw, rfl, -, -⟩
      exact hvu ((mem_undo hk hfind).1 hw).1
    · have hw : ⟨aFrom.uuid, r, d, depthOf dg.ids d aFrom.uuid⟩ ∈ sentBy dg aFrom :=
        (mem_undo hk hfind).2 ⟨rfl, hd, hself, hlive, rfl⟩
      exact .inr ⟨⟨v, r, d, depthOf dg.ids d v⟩, ⟨_, hw, (mem_promoted_sentBy hk hfind hw).2
        ⟨hn, hvu, hsel, rfl, rfl, rfl, hne⟩⟩, rfl, rfl, rfl⟩
  · rintro (⟨⟨d, hd, rfl, hsel⟩, hnot⟩ | ⟨p, ⟨w, hw, hp⟩, rfl, rfl, rfl⟩)
    · have hlive : Live swap dg d := by rwa [Live, msgsOf_plain] at hlive
      have hvu : v ≠ aFrom.uuid := by
        rintro rfl
        exact hnot ⟨⟨aFrom.uuid, r, d, depthOf dg.ids d aFrom.uuid⟩,
          (mem_undo hk hfind).2 ⟨rfl, hd, hsel, hlive, rfl⟩, rfl, rfl, rfl⟩
      exact ⟨d, hd, rfl, (selected_erase hvu).2 (.inl hsel)⟩
    · obtain ⟨-, -, hsel, hf, hwhat, -⟩ := (mem_promoted_sentBy hk hfind hw).1 hp
      refine ⟨p.what, ?_, rfl, hwhat ▸ hsel⟩
      rw [hf, hwhat]
      exact ((mem_undo hk hfind).1 hw).2.1

/-- What is recorded for a demand is the depth of who is nearest without the sender. -/
theorem nearest_erase {r v : Uuid} {d : DemandDg} (hd : d ∈ dg.getDemandFor r)
    (hn : d.flags.nearest = true) (hlive : Live swap dg d)
    (hsel : Selected (dg.ids.erase aFrom.uuid) d v) {k : ℕ}
    (hother : (∀ w ∈ sentBy dg aFrom, promoted dg.ids aFrom.uuid w ≠ [] →
      ¬ (r = w.for_ ∧ d.handler = w.what.handler)) → k = dg.nearestOf r d.handler)
    (hprom : ∀ w ∈ sentBy dg aFrom, w.for_ = r → w.what = d →
      ∀ p ∈ promoted dg.ids aFrom.uuid w, k = p.distance) :
    k = depthOf (dg.ids.erase aFrom.uuid) d v := by
  have hvu : v ≠ aFrom.uuid := fun heq => hsel.1 (by rw [depthOf_erase, if_pos heq])
  rw [depthOf_erase, if_neg hvu]
  rcases (selected_erase hvu).1 hsel with hv | ⟨-, hself, -, hne⟩
  · rw [hother ?_, hk.nearest r d hd hn hlive v hv]
    intro w hw hprom' hh
    obtain ⟨-, hmem, hselw, -, -⟩ := (mem_undo hk hfind).1 hw
    obtain ⟨p, hp⟩ := List.exists_mem_of_ne_nil _ hprom'
    obtain ⟨-, hpu, hselp, -, -, -, hne⟩ := (mem_promoted_sentBy hk hfind hw).1 hp
    rw [← hh.1] at hmem
    rw [← (hk.lists r).eq_of_handler hd hmem hh.2] at hselw hselp hne
    -- `v` is as near as the sender, hence so is what would be promoted
    refine hne (le_antisymm ?_ (hselw.2 hn _ ?_))
    · have hle := hselp.2 hn v hsel.1
      rw [depthOf_erase, depthOf_erase, if_neg hpu, if_neg hvu] at hle
      exact hle.trans (hv.2 hn aFrom.uuid hselw.1)
    · have hz := hselp.1
      rwa [depthOf_erase, if_neg hpu] at hz
  · have hw : ⟨aFrom.uuid, r, d, depthOf dg.ids d aFrom.uuid⟩ ∈ sentBy dg aFrom :=
      (mem_undo hk hfind).2 ⟨rfl, hd, hself, hlive, rfl⟩
    exact hprom _ hw rfl rfl ⟨v, r, d, depthOf dg.ids d v⟩
      ((mem_promoted_sentBy hk hfind hw).2 ⟨hn, hvu, hsel, rfl, rfl, rfl, hne⟩)

variable (hundo : ∀ r, ∀ d ∈ dg.getDemandFor r, Selected dg.ids d aFrom.uuid →
  2 ≤ (msgsOf swap dg.msgsGenealogy d).length → UndoOk swap dg aFrom.uuid r d)
include hundo

/-- What is undone once more has nothing promoted for it. -/
theorem promoted_once : (sentBy dg aFrom).Pairwise
    fun w w' => SameRecord w w' → promoted dg.ids aFrom.uuid w = [] :=
  (undo_pairwise hk aFrom).imp_of_mem fun {w w'} hw _ hlen hsame => by
    obtain ⟨-, hmem, hsel, -, hdist⟩ := (mem_undo hk hfind).1 hw
    exact (hundo _ _ hmem hsel (hlen hsame)).promoted (conformable_sentBy hk hfind hw) hdist

theorem lone_sentBy : (sentBy dg aFrom).Pairwise
    fun w w' => SameWay w w' → Lone swap dg.msgsGenealogy (target dg) w := by
  refine (undo_pairwise hk aFrom).imp_of_mem fun {w w'} hw _ hlen hsame => ?_
  obtain ⟨hf, hmem, hsel, -, -⟩ := (mem_undo hk hfind).1 hw
  have hok := hundo _ _ hmem hsel (hlen ⟨hsame.2.1, plain_handler hsame.2.2⟩)
  rintro e ⟨d, hd, rfl, hseld⟩ hne m hm hm'
  rw [msgsOf_plain] at hm
  have hdw : d ≠ w.what := fun heq => hne (by rw [heq])
  refine ⟨?_, fun hh => hdw ((hk.lists _).eq_of_handler hd hmem hh)⟩
  by_contra hreg
  exact hok.alone (Bool.not_eq_true _ ▸ hreg) d hd hdw (hf ▸ hseld) m hm hm'

theorem promotedWays_pairwise :
    ((sentBy dg aFrom).flatMap (promoted dg.ids aFrom.uuid)).Pairwise fun w w' =>
      w.from_ = w'.from_ → w.for_ = w'.for_ → w.what.handler ≠ w'.what.handler := by
  refine List.pairwise_flatMap.2 ⟨fun w _ => (promoted_pairwise _ _ w).imp fun hne hf =>
    absurd hf hne, (promoted_once hk hfind hundo).imp_of_mem
      fun {w w'} hw hw' hnil p hp q hq _ hf hh => ?_⟩
  obtain ⟨-, -, -, hpf, hpw, -⟩ := (mem_promoted_sentBy hk hfind hw).1 hp
  obtain ⟨-, -, -, hqf, hqw, -⟩ := (mem_promoted_sentBy hk hfind hw').1 hq
  have hsame : SameRecord w w' := ⟨by rw [← hpf, ← hqf, hf], by rw [← hpw, ← hqw, hh]⟩
  rw [hnil hsame] at hp
  cases hp

end Leaving

/-- `removeAllReceiversForMsgsFrom`, when what it undoes twice is undone in vain. -/
theorem removeAllReceiversForMsgsFrom_spec {s : Patch} (hk : Kept swap s.dg) (aFrom : Id)
    (hfind : s.dg.ids.find aFrom.uuid = some aFrom.name)
    (hundo : ∀ r, ∀ d ∈ s.dg.getDemandFor r, Selected s.dg.ids d aFrom.uuid →
      2 ≤ (msgsOf swap s.dg.msgsGenealogy d).length → UndoOk swap s.dg aFrom.uuid r d) :
    ∃ s₁ s', removeAllReceiversForMsgsFrom swap aFrom s = .ok s' ∧
      s'.dg.ids = s.dg.ids ∧ s'.dg.dgs = s.dg.dgs ∧
      s'.dg.msgsGenealogy = s.dg.msgsGenealogy ∧
      Kept swap { s'.dg with ids := s'.dg.ids.erase aFrom.uuid } ∧
      (∀ r, ∀ d ∈ s.dg.getDemandFor r, depthOf s.dg.ids d aFrom.uuid = 0 →
        s'.dg.nearestOf r d.handler = s.dg.nearestOf r d.handler) ∧
      Loses s s₁ ∧ Gains s₁ s' := by
  obtain ⟨dg, new, removed⟩ := s
  dsimp only at hk hfind hundo ⊢
  obtain ⟨dg₁, hdg₁, hrec₁, hother, hpromoted⟩ := addSenderIfNeed_spec
    (fun w hw => conformable_sentBy hk hfind hw) (fun w hw => nearest_sentBy hk hfind hw)
    (promoted_once hk hfind hundo)
  obtain ⟨s₁, s₂, hs₂, hframe, hcells, hloses, hgains⟩ := updateSendInfoFor_spec
    ((sentBy dg aFrom).flatMap (promoted dg.ids aFrom.uuid)) (sentBy dg aFrom)
    (s := ⟨dg₁, new, removed⟩) (hrec₁.cellsOk hk.cells)
    (fun w hw => by
      obtain ⟨hf, hmem, hsel, -, -⟩ := (mem_undo hk hfind).1 hw
      exact .inl ⟨w.what, hmem, rfl, hf ▸ hsel⟩)
    (hrec₁.msgsGenealogy ▸ lone_sentBy hk hfind hundo)
    (fun p hp e he => by
      obtain ⟨w, hw, hp⟩ := List.mem_flatMap.1 hp
      obtain ⟨hn, -, -, hf, hwhat, -, hne⟩ := (mem_promoted_sentBy hk hfind hw).1 hp
      obtain ⟨-, hmem, hsel, -, -⟩ := (mem_undo hk hfind).1 hw
      obtain ⟨⟨d, hd, rfl, hseld⟩, -⟩ := he
      intro hh
      rw [hf] at hd
      rw [hwhat] at hh
      obtain rfl := (hk.lists _).eq_of_handler hd hmem hh
      exact hne (le_antisymm (hseld.2 hn _ hsel.1) (hsel.2 hn _ hseld.1)))
    (promotedWays_pairwise hk hfind hundo)
  have hids : s₂.dg.ids = dg.ids := hframe.ids.trans hrec₁.ids
  have hdgs : s₂.dg.dgs = dg.dgs := hframe.dgs.trans hrec₁.dgs
  have hgen : s₂.dg.msgsGenealogy = dg.msgsGenealogy :=
    hframe.msgsGenealogy.trans hrec₁.msgsGenealogy
  let dg₂ : RequiredDG :=
    { s₂.dg with
      whatIsSendingBy := s₂.dg.whatIsSendingBy.erase aFrom.uuid, ids := dg.ids.erase aFrom.uuid }
  have hdemand : ∀ r, dg₂.getDemandFor r = dg.getDemandFor r := fun r => by
    unfold getDemandFor
    rw [← hdgs]
  have htarget : target dg₂ = target { dg with ids := dg.ids.erase aFrom.uuid } := by
    funext v r e
    unfold target
    rw [hdemand]
    rfl
  have hcells₂ : CellsOk swap s₂.dg (target dg₂) := by
    refine hcells.congr rfl (fun _ _ _ => rfl) fun v r e hlive => ?_
    rw [hgen] at hlive
    rw [htarget, target_erase hk hfind hlive]
  -- the whole entry of the sender is erased, where no cell is left
  have hcell : ∀ v m r, dg₂.cell v m r = s₂.dg.cell v m r := hcells₂.cell_erase
    fun r e ⟨d, _, _, hsel⟩ => hsel.1 (by rw [depthOf_erase, if_pos rfl])
  let s' : Patch :=
    { s₂ with dg := { s₂.dg with whatIsSendingBy := s₂.dg.whatIsSendingBy.erase aFrom.uuid } }
  have hdg₂ : { s'.dg with ids := s'.dg.ids.erase aFrom.uuid } = dg₂ := by
    change ({ s₂.dg with whatIsSendingBy := _, ids := s₂.dg.ids.erase aFrom.uuid } : RequiredDG) = _
    rw [hids]
  refine ⟨s₁, s', ?_, hids, hdgs, hgen, hdg₂ ▸
    ⟨fun r => ?_, fun r d hd e he => ?_, hcells₂.congr rfl hcell fun _ _ _ _ => Iff.rfl,
      fun r d hd hn hlive v hsel => ?_⟩, fun r d hd hz => ?_,
    hrec₁.loses.trans hloses,
    hgains.trans (Gains.of_same (Counted.erase aFrom.uuid) rfl rfl
      (real_congr fun v m r => hcell v m r))⟩
  · rw [removeAllReceiversForMsgsFrom_eq, getDistance_sentBy hk hfind]
    simp only [takeIntoAccountOnlyNearestSendersIfNeed, removeSenderIfNeed, hdg₁, bind,
      Except.bind, pure, Except.pure, List.append_nil, List.nil_append]
    rw [hs₂]
  · exact hdemand r ▸ hk.lists r
  · rw [hdemand] at hd
    have hfind' := (SortedMap.mem_entries_iff _ _ _).1 (show (e.1, e.2) ∈ dg₂.ids.entries from he)
    rw [show dg₂.ids = dg.ids.erase aFrom.uuid from rfl, SortedMap.find_erase] at hfind'
    split_ifs at hfind'
    exact hk.conformable r d hd e ((SortedMap.mem_entries_iff _ _ _).2 hfind')
  · rw [hdemand] at hd
    have hlive : Live swap dg d := by rwa [Live, show dg₂.msgsGenealogy = _ from hgen] at hlive
    have hnear : dg₂.nearestOf r d.handler = dg₁.nearestOf r d.handler :=
      hframe.nearestOf r d.handler
    refine nearest_erase hk hfind hd hn hlive hsel
      (fun hnone => hnear.trans (hother r d.handler hnone))
      fun w hw hfor hwhat p hp => hnear.trans ?_
    rw [← hfor, ← hwhat]
    exact hpromoted w hw p hp
  · change s₂.dg.nearestOf r d.handler = _
    rw [hframe.nearestOf]
    refine hother r d.handler fun w hw _ hh => ?_
    obtain ⟨-, hmem, hselw, -, -⟩ := (mem_undo hk hfind).1 hw
    rw [← hh.1] at hmem
    rw [(hk.lists r).eq_of_handler hmem hd hh.2.symm] at hselw
    exact hselw.1 hz

theorem UndoOk.congr {dg dg' : RequiredDG} {u r : Uuid} {d : DemandDg}
    (h : UndoOk swap dg u r d) (hids : dg'.ids = dg.ids)
    (hgen : dg'.msgsGenealogy = dg.msgsGenealogy)
    (hdemand : dg'.getDemandFor r = dg.getDemandFor r) : UndoOk swap dg' u r d := by
  refine ⟨fun hreg e he hne hsel m hm => ?_, fun hn v hsel => ?_⟩
  · rw [hdemand] at he
    rw [hids] at hsel
    rw [hgen] at hm ⊢
    exact h.alone hreg e he hne hsel m hm
  · rw [hids] at hsel ⊢
    exact h.same hn v hsel

/-- `removeClient`, when what it undoes twice is undone in vain. -/
theorem removeClient_spec {dg : RequiredDG} (hk : Kept swap dg) {u : Uuid}
    (hundo : ∀ r, r ≠ u → ∀ d ∈ dg.getDemandFor r, Selected dg.ids d u →
      2 ≤ (msgsOf swap dg.msgsGenealogy d).length → UndoOk swap dg u r d) :
    ∃ s', removeClient swap u dg = .ok s' ∧ Kept swap s'.dg ∧
      s'.dg.msgsGenealogy = dg.msgsGenealogy ∧
      ((s'.dg = dg ∧ ∀ name, dg.ids.find u = some name → isValidId ⟨u, name⟩ = false) ∨
        s'.dg.ids = dg.ids.erase u ∧ ∀ r, ∀ d ∈ s'.dg.getDemandFor r,
        r ≠ u ∧ d ∈ dg.getDemandFor r ∧
        (depthOf dg.ids d u = 0 → s'.dg.nearestOf r d.handler = dg.nearestOf r d.handler)) ∧
      Reports dg s' := by
  unfold removeClient
  have hunchanged : Reports dg ⟨dg, .empty, .empty⟩ :=
    ⟨_, Loses.refl _, Gains.refl _⟩
  cases hfind : dg.ids.find u with
  | none => exact ⟨_, rfl, hk, rfl, .inl ⟨rfl, fun _ h => by cases h⟩, hunchanged⟩
  | some name =>
    dsimp only
    split_ifs with hvalid
    · obtain ⟨s₁, hs₁, hk₁, hids₁, hgen₁, hdemand₁, hnear₁, hloses₁⟩ :=
        removeAllSendersOfMsgsFor_spec (s := ⟨dg, .empty, .empty⟩) hk u
      obtain ⟨s₂, s₃, hs₃, hids, hdgs, hgen, hk₃, hnear, hloses, hgains⟩ :=
        removeAllReceiversForMsgsFrom_spec hk₁ ⟨u, name⟩
          (by rw [hids₁]; exact hfind) fun r d hd hsel hlen => by
            rw [hdemand₁] at hd
            split_ifs at hd with hr
            · cases hd
            · rw [hids₁] at hsel
              rw [hgen₁] at hlen
              exact (hundo r hr d hd hsel hlen).congr hids₁ hgen₁
                ((hdemand₁ r).trans (if_neg hr))
      refine ⟨{ s₃ with dg := { s₃.dg with ids := s₃.dg.ids.erase u } }, ?_, hk₃,
        hgen.trans hgen₁, .inr ⟨by rw [hids, hids₁], fun r d hd => ?_⟩, s₂, hloses₁.trans hloses,
        hgains.trans (Gains.of_same id rfl rfl (real_congr fun _ _ _ => rfl))⟩
      · rw [hs₁]
        simp only [bind, Except.bind]
        rw [hs₃]
        rfl
      · have hd₁ : d ∈ s₁.dg.getDemandFor r := by
          unfold getDemandFor at hd ⊢
          rwa [← hdgs]
        have hd₀ := hd₁
        rw [hdemand₁] at hd₀
        split_ifs at hd₀ with hr
        · cases hd₀
        · refine ⟨hr, hd₀, fun hz => ?_⟩
          refine (hnear r d hd₁ ?_).trans (hnear₁ r _ hr)
          rw [hids₁]
          exact hz
    · refine ⟨_, rfl, hk, rfl, .inl ⟨rfl, fun name' h => ?_⟩, hunchanged⟩
      obtain rfl := Option.some.inj h
      exact Bool.eq_false_iff.2 hvalid

end UdtKernel.RequiredDG
