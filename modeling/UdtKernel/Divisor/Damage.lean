import UdtKernel.Divisor.Watch

set_option autoImplicit false

/-! One turn of the merging of pieces some of which were lost on their way. -/

namespace UdtKernel.Damage
open UdtKernel.Lib UdtKernel.Divisor UdtKernel.Cross UdtKernel.Merge UdtKernel.Sequence
open UdtKernel.Roundtrip UdtKernel.Continue UdtKernel.Stream

/-- The level of a piece in its place is new or current, that of one out of place was met. -/
def LevelOk (o : Origin) (pre : List UserData) (m : UserData) : Prop :=
  (Continues o pre m → m.dataId.split.coefficient ∉ coefs pre ∨
    (coefs pre).getLast? = some m.dataId.split.coefficient) ∧
  (¬ Continues o pre m → m.dataId.split.coefficient ∈ coefs pre)

/-- `LevelOk` for every piece up to the first that is out of place. -/
def LevelsOk (o : Origin) : List UserData → List UserData → Prop
  | _, [] => True
  | pre, m :: ms => LevelOk o pre m ∧ (Continues o pre m → LevelsOk o (pre ++ [m]) ms)

/-- Nothing comes in one turn after the last piece of the packet. -/
def EndsTurn : List UserData → Prop
  | [] => True
  | m :: ms => (isEnd m = true → ms = []) ∧ EndsTurn ms

/-- The condition on a turn: pieces `m :: ms` of `o` that continue `pre`, or begin a packet. -/
structure TurnOk (o : Origin) (pre : List UserData) (m : UserData) (ms : List UserData) : Prop where
  ends : EndsTurn (m :: ms)
  levels : LevelsOk o pre (m :: ms)

theorem bytes_prefix_ne_nil {o : Origin} {pre : List UserData} (hpre : pre <+: o.pieces)
    (hne : pre ≠ []) : bytes pre ≠ [] := by
  cases pre with
  | nil => exact absurd rfl hne
  | cons x xs =>
    have hx := o.filled x (hpre.subset List.mem_cons_self)
    rw [bytes_cons]
    exact fun h => hx (List.append_eq_nil_iff.1 h).1

theorem sequenced_of_levelsOk {o : Origin} {pre g : List UserData} (h : LevelsOk o pre g)
    (hpre : pre ++ g <+: o.pieces) : Sequenced pre g := by
  induction g generalizing pre with
  | nil => trivial
  | cons m ms ih =>
    have hc : Continues o pre m := by
      obtain ⟨t, ht⟩ := hpre
      exact ⟨ms ++ t, by rw [← ht]; simp⟩
    refine ⟨inSequence_of_continues hc (fun hne => ?_) (h.1.1 hc),
      ih (h.2 hc) (by simpa using hpre)⟩
    exact bytes_prefix_ne_nil ((List.prefix_append _ _).trans hpre) hne

/-- The first piece out of place of a turn that is not a continuation. -/
theorem exists_misplaced {o : Origin} {pre g : List UserData} (h : LevelsOk o pre g)
    (hpre : pre <+: o.pieces) (hnot : ¬ pre ++ g <+: o.pieces) :
    ∃ a m b, g = a ++ m :: b ∧ pre ++ a <+: o.pieces ∧ LevelsOk o pre a ∧
      ¬ Continues o (pre ++ a) m ∧ m.dataId.split.coefficient ∈ coefs (pre ++ a) := by
  induction g generalizing pre with
  | nil => simp at hnot; exact absurd hpre hnot
  | cons m ms ih =>
    by_cases hc : Continues o pre m
    · obtain ⟨a, x, b, hg, ha, hl, hx, hk⟩ := ih (h.2 hc) hc (by simpa using hnot)
      refine ⟨m :: a, x, b, by rw [hg]; rfl, by simpa using ha, ⟨h.1, fun _ => hl⟩, ?_, ?_⟩
      · simpa using hx
      · simpa using hk
    · exact ⟨[], m, ms, rfl, by simpa using hpre, trivial, by simpa using hc,
        by simpa using h.1.2 hc⟩

/-- After an error the loop takes the rest of the turn and keeps the error. -/
theorem mergingLoop_lost (info : UserDataInfo) {pre g : List UserData} (news : List UserData)
    (hb : bytes pre ≠ []) (hends : EndsTurn g) (hp : ∀ x ∈ g, isSplited x.dataId.split)
    (hdata : ∀ x ∈ g, x.data ≠ []) :
    ∃ b, MergeOperation.mergingLoop g (opDuring info pre news ePacketLost) =
      .ok (b, opDuring info (pre ++ g) [] ePacketLost) := by
  induction g generalizing pre news with
  | nil => exact ⟨false, by rw [mergingLoop_nil, List.append_nil]⟩
  | cons m ms ih =>
    have hb' : bytes (pre ++ [m]) ≠ [] := by
      rw [bytes_append]
      exact fun h => hb (List.append_eq_nil_iff.1 h).1
    rw [mergingLoop_cons info news _ ms (hp m List.mem_cons_self)
      ⟨fun h => absurd h hb, hdata m List.mem_cons_self⟩, ite_self]
    by_cases hend : isEnd m = true
    · obtain rfl := hends.1 hend
      exact ⟨true, by simp [hend]⟩
    · obtain ⟨b, hb''⟩ := ih ms hb' hends.2 (fun x hx => hp x (List.mem_cons_of_mem _ hx))
        fun x hx => hdata x (List.mem_cons_of_mem _ hx)
      refine ⟨b, ?_⟩
      simp only [hend, Bool.false_eq_true, if_false]
      rw [hb'', List.append_assoc]
      rfl

theorem endsTurn_append {a b : List UserData} (h : EndsTurn (a ++ b)) (hb : b ≠ []) :
    (∀ x ∈ a, isEnd x = false) ∧ EndsTurn b := by
  induction a with
  | nil => exact ⟨by simp, h⟩
  | cons x a ih =>
    obtain ⟨ha, hb'⟩ := ih h.2
    refine ⟨fun y hy => ?_, hb'⟩
    rcases List.mem_cons.1 hy with rfl | hy
    · by_contra hend
      exact hb (List.append_eq_nil_iff.1 (h.1 (by simpa using hend))).2
    · exact ha y hy

theorem mergingLoop_append_mid (info : UserDataInfo) {pre a g : List UserData}
    (news : List UserData) (hs : Sequenced pre a) (hend : ∀ x ∈ a, isEnd x = false)
    (hp : ∀ x ∈ a, isSplited x.dataId.split) :
    ∃ news', MergeOperation.mergingLoop (a ++ g) (opDuring info pre news eNoError) =
      MergeOperation.mergingLoop g (opDuring info (pre ++ a) news' eNoError) := by
  induction a generalizing pre news with
  | nil => exact ⟨news, by simp⟩
  | cons x a ih =>
    obtain ⟨news', hnews⟩ := ih (a ++ g) hs.2 (fun y hy => hend y (List.mem_cons_of_mem _ hy))
      fun y hy => hp y (List.mem_cons_of_mem _ hy)
    refine ⟨news', ?_⟩
    rw [List.cons_append, mergingLoop_cons info news _ _ (hp x List.mem_cons_self) hs.1.2,
      if_pos hs.1.1]
    simp only [hend x List.mem_cons_self, Bool.false_eq_true, if_false]
    rw [hnews]
    simp

/-- A turn with a piece out of place ends with the packet lost. -/
theorem mergingLoop_misplaced {o : Origin} (info : UserDataInfo) {pre g : List UserData}
    (news : List UserData) (hlevels : LevelsOk o pre g)
    (hends : EndsTurn g) (hpre : pre <+: o.pieces) (hnot : ¬ pre ++ g <+: o.pieces)
    (hmine : ∀ x ∈ g, x ∈ o.pieces) (hp : ∀ x ∈ g, isSplited x.dataId.split) :
    bytes (pre ++ g) ≠ [] ∧ ∃ b, MergeOperation.mergingLoop g (opDuring info pre news eNoError) =
      .ok (b, opDuring info (pre ++ g) [] ePacketLost) := by
  obtain ⟨a, m, b, rfl, ha, hla, hm, hk⟩ := exists_misplaced hlevels hpre hnot
  obtain ⟨hend, hends'⟩ := endsTurn_append hends (by simp)
  have hne : pre ++ a ≠ [] := fun hnil => by simp [hnil, coefs] at hk
  have hb := bytes_prefix_ne_nil ha hne
  obtain ⟨news', hloop⟩ := mergingLoop_append_mid info (g := m :: b) news
    (sequenced_of_levelsOk hla ha) hend
    (fun x hx => hp x (List.mem_append_left _ hx))
  have hfail := not_follows_of_not_continues ha (hmine m (by simp)) hm hk
  have hb' : bytes (pre ++ a ++ [m]) ≠ [] := by
    rw [bytes_append]
    exact fun h => hb (List.append_eq_nil_iff.1 h).1
  refine ⟨?_, ?_⟩
  · rw [← List.append_assoc, bytes_append]
    exact fun h => hb (List.append_eq_nil_iff.1 h).1
  rw [hloop, mergingLoop_cons info news' _ b (hp m (by simp))
    ⟨fun h => absurd h hb, o.filled m (hmine m (by simp))⟩, if_neg hfail]
  by_cases hmend : isEnd m = true
  · obtain rfl := hends'.1 hmend
    exact ⟨true, by simp [hmend]⟩
  · obtain ⟨c, hc⟩ := mergingLoop_lost info b hb' hends'.2 (fun x hx => hp x (by simp [hx]))
      fun x hx => o.filled x (hmine x (by simp [hx]))
    refine ⟨c, ?_⟩
    simp only [hmend, Bool.false_eq_true, if_false]
    rw [hc]
    simp

theorem merge_misplaced {info : UserDataInfo} {pre : List UserData} {m : UserData}
    {ms : List UserData} (hn : info.packetNumber = m.dataId.packetNumber)
    (hb : bytes (pre ++ m :: ms) ≠ [])
    (hloop : ∃ b, MergeOperation.mergingLoop (m :: ms) (opDuring info pre (m :: ms) eNoError) =
      .ok (b, opDuring info (pre ++ m :: ms) [] ePacketLost)) :
    ∃ r, (opAfter info pre).merge m ms = .ok r ∧ r.rest = [] ∧ r.delivered = [] ∧
      r.op.error = ePacketLost ∧ r.op.info = info := by
  have hlost : ¬ ePacketLost = eNoError := by decide
  obtain ⟨b, hloop⟩ := hloop
  rw [merge_opAfter info pre m ms hn]
  simp only [MergeOperation.merging]
  rw [if_neg (by simp [opDuring])]
  have hnews : (opDuring info pre (m :: ms) eNoError).newPackets = m :: ms := rfl
  have hc : (opDuring info (pre ++ m :: ms) [] ePacketLost).createPacket =
      (some (delivered info (pre ++ m :: ms)),
        { opDuring info (pre ++ m :: ms) [] ePacketLost with bufForMerge := [] }) :=
    if_pos (show (opDuring info (pre ++ m :: ms) [] ePacketLost).bufForMerge ≠ [] from hb)
  rw [hnews, hloop]
  cases b with
  | false => simp [bind, Except.bind, pure, Except.pure, opDuring, hlost]
  | true =>
    have hnil : (opDuring info (pre ++ m :: ms) [] ePacketLost).newPackets = [] := rfl
    simp only [bind, Except.bind, pure, Except.pure, hc, if_true, hnil, ne_eq, not_true_eq_false,
      if_false]
    simp [opDuring, hlost]

/-- The report of a packet of which pieces were lost. -/
def lostReport (i : UserDataInfo) : FailSend := (FailSend.ofInfo i).setError ePacketLost

def entryOf : List UserData → Option MergeOperation
  | [] => none
  | x :: xs => some (opAfter x.dataId (x :: xs))

/-- The entries of a descriptor are those of the packets that the watch holds pieces of. -/
def MapSim (aFor : Descriptor) (w : Watch) (m : SortedMap MergeKey MergeOperation) : Prop :=
  ∀ u, m.find (toLex (u, aFor)) = entryOf (w.cur u)

theorem key_eq_iff {aFor : Descriptor} {u : Uuid} {m : UserData} :
    (toLex (u, aFor) : MergeKey) = mergeKey aFor m ↔ u = sender m := by
  simp [mergeKey, sender]

theorem mapSim_erase {aFor : Descriptor} {w w' : Watch} {map : SortedMap MergeKey MergeOperation}
    (h : MapSim aFor w map) {m : UserData} (hw : w'.cur = Function.update w.cur (sender m) []) :
    MapSim aFor w' (map.erase (mergeKey aFor m)) := by
  intro u
  rw [SortedMap.find_erase, hw]
  by_cases hu : u = sender m
  · rw [if_pos (key_eq_iff.2 hu), hu, Function.update_self]
    rfl
  · rw [if_neg fun he => hu (key_eq_iff.1 he), Function.update_of_ne hu]
    exact h u

theorem mapSim_insert {aFor : Descriptor} {w w' : Watch} {map : SortedMap MergeKey MergeOperation}
    (h : MapSim aFor w map) {m : UserData} {l : List UserData} {op : MergeOperation}
    (hw : w'.cur = Function.update w.cur (sender m) l) (hop : entryOf l = some op) :
    MapSim aFor w' (map.insert (mergeKey aFor m) op) := by
  intro u
  rw [SortedMap.find_insert, hw]
  by_cases hu : u = sender m
  · rw [if_pos (key_eq_iff.2 hu), hu, Function.update_self, hop]
  · rw [if_neg fun he => hu (key_eq_iff.1 he), Function.update_of_ne hu]
    exact h u

/-- The code went from `s` to `s'` as the watch did from `w` to `w'`. -/
structure Agrees (aFor : Descriptor) (w w' : Watch) (s s' : Sending) : Prop where
  map : MapSim aFor w' s'.mergeOp
  sent : ∃ ds, s'.sent = s.sent ++ ds ∧ w'.sent = w.sent ++ ds
  lost : ∃ is, s'.nonSent = s.nonSent ++ is.map lostReport ∧ w'.lost = w.lost ++ is

theorem Agrees.trans {aFor : Descriptor} {w w' w'' : Watch} {s s' s'' : Sending}
    (h : Agrees aFor w w' s s') (h' : Agrees aFor w' w'' s' s'') : Agrees aFor w w'' s s'' := by
  obtain ⟨ds, hs, hw⟩ := h.sent
  obtain ⟨ds', hs', hw'⟩ := h'.sent
  obtain ⟨is, hi, hl⟩ := h.lost
  obtain ⟨is', hi', hl'⟩ := h'.lost
  exact ⟨h'.map,
    ⟨ds ++ ds', by rw [hs', hs, List.append_assoc], by rw [hw', hw, List.append_assoc]⟩,
    is ++ is', by rw [hi', hi, List.map_append, List.append_assoc],
    by rw [hl', hl, List.append_assoc]⟩

theorem prefix_of_append_last {α : Type} {a t init : List α} {z : α} (h : a ++ t = init ++ [z])
    (ht : t ≠ []) : a <+: init ∧ ∃ t', t = t' ++ [z] ∧ init = a ++ t' := by
  rcases List.append_eq_append_iff.1 h with ⟨r, hr, ht'⟩ | ⟨r, hr, ht'⟩
  · exact ⟨⟨r, hr.symm⟩, r, ht', hr⟩
  · cases r with
    | nil => exact ⟨⟨[], by simpa using hr⟩, [], ht'.symm, by simpa using hr.symm⟩
    | cons y r =>
      have hlen := congrArg List.length ht'
      have htpos := List.length_pos_of_ne_nil ht
      simp only [List.length_cons, List.length_append, List.length_nil] at hlen
      omega

/-- A turn that finds the entry of its packet, or begins one. -/
theorem mergeTurn_agrees {aFor : Descriptor} {os : List Origin} {o : Origin} {pre : List UserData}
    {m : UserData} {ms : List UserData} {s : Sending} {info : UserDataInfo}
    (hg : Group os o (m :: ms)) (hpre : pre <+: o.pieces) (hinfo : info = (pre.headD m).dataId)
    (hop : findOrNew s.mergeOp (mergeKey aFor m) m = .ok (opAfter info pre))
    (hok : TurnOk o pre m ms) :
    ∃ s', mergeTurn (mergeKey aFor m) m ms s = .ok ([], s') ∧
      (pre ++ m :: ms = o.pieces → s'.sent = s.sent ++ [o.packet] ∧ s'.nonSent = s.nonSent ∧
        s'.mergeOp = s.mergeOp.erase (mergeKey aFor m)) ∧
      (pre ++ m :: ms ≠ o.pieces → pre ++ m :: ms <+: o.pieces →
        s'.sent = s.sent ∧ s'.nonSent = s.nonSent ∧
        s'.mergeOp = s.mergeOp.insert (mergeKey aFor m) (opAfter info (pre ++ m :: ms))) ∧
      (¬ pre ++ m :: ms <+: o.pieces → s'.sent = s.sent ∧
        s'.nonSent = s.nonSent ++ [lostReport info] ∧
        s'.mergeOp = s.mergeOp.erase (mergeKey aFor m)) := by
  have hof : OfPacket o.packet (pre.headD m) := by
    cases hp : pre with
    | nil => exact o.ofPacket m (hg.pieces m List.mem_cons_self)
    | cons x xs =>
      rw [hp] at hpre
      exact o.ofPacket x (hpre.subset List.mem_cons_self)
  have hn : info.packetNumber = m.dataId.packetNumber := by
    rw [hinfo, hof, o.ofPacket m (hg.pieces m List.mem_cons_self)]
  have hne : pre ++ m :: ms ≠ [] := by simp
  by_cases hfront : pre ++ m :: ms <+: o.pieces
  · have hseq := sequenced_of_levelsOk hok.levels hfront
    obtain ⟨init, z, hpieces, hinit, hz⟩ := o.marked
    by_cases hall : pre ++ m :: ms = o.pieces
    · obtain ⟨-, init', hg', hin⟩ := prefix_of_append_last (hall.trans hpieces) (by simp)
      have hm := merge_last info hg' hn hseq
        (fun x hx => hinit x (by rw [hin]; exact List.mem_append_right _ hx)) hz hg.split
        (bytes_prefix_ne_nil hfront hne)
      have hdone : delivered info (pre ++ m :: ms) = o.packet := by
        rw [delivered, hall, o.bytes_pieces, hinfo, hof, ← o.whole]
      refine ⟨_, mergeTurn_ok hop hm rfl, fun _ => ⟨by rw [hdone], rfl, rfl⟩,
        fun hne => absurd hall hne, fun hnot => absurd hfront hnot⟩
    · have hend : ∀ x ∈ m :: ms, isEnd x = false := by
        obtain ⟨t, ht⟩ := hfront
        have htne : t ≠ [] := fun hnil => hall (by rw [← ht, hnil, List.append_nil])
        intro x hx
        exact hinit x ((prefix_of_append_last (ht.trans hpieces) htne).1.subset
          (List.mem_append_right _ hx))
      have hm := merge_mid info hn hseq hend hg.split
      exact ⟨_, mergeTurn_ok hop hm rfl, fun h => absurd h hall,
        fun _ _ => ⟨List.append_nil _, rfl, rfl⟩, fun hnot => absurd hfront hnot⟩
  · obtain ⟨hb, hloop⟩ := mergingLoop_misplaced info (m :: ms) hok.levels hok.ends hpre hfront
      hg.pieces hg.split
    obtain ⟨r, hr, hrest, hsent, herr, hri⟩ := merge_misplaced hn hb hloop
    obtain ⟨s', hs', h1, h2, h3⟩ := mergeTurn_failed hop hr (by rw [herr]; decide)
    rw [hrest] at hs'
    refine ⟨s', hs', fun h => absurd (h ▸ List.prefix_refl _) hfront,
      fun _ h => absurd h hfront, fun _ => ⟨by rw [h1, hsent, List.append_nil], ?_, h3⟩⟩
    rw [h2, herr, hri]
    rfl

/-- A turn with which no packet can begin is reported at once. -/
theorem mergeTurn_noStart {key : MergeKey} {m : UserData} {ms : List UserData} {s : Sending}
    (hfind : s.mergeOp.find key = none) (hone : m.dataId.split.counter ≠ 1) :
    ∃ s', mergeTurn key m ms s = .ok ([], s') ∧ s'.sent = s.sent ∧
      s'.nonSent = s.nonSent ++ [lostReport m.dataId] ∧ s'.mergeOp = s.mergeOp.erase key := by
  have hlost : ¬ ePacketLost = eNoError := by decide
  have hop : findOrNew s.mergeOp key m =
      .ok ⟨[], [], [], m.dataId, .empty, ePacketLost, false⟩ := by
    simp [findOrNew, hfind, MergeOperation.new, hone]
  have hm : (⟨[], [], [], m.dataId, .empty, ePacketLost, false⟩ : MergeOperation).merge m ms =
      .ok ⟨[], [], ⟨[], [], m :: ms, m.dataId, .empty, ePacketLost, false⟩⟩ := by
    simp [MergeOperation.merge, hlost]
  obtain ⟨s', hs', h1, h2, h3⟩ := mergeTurn_failed hop hm hlost
  exact ⟨s', hs', by rw [h1, List.append_nil], h2, h3⟩

/-- A turn that finds the entry of another packet reports it and takes nothing. -/
theorem mergeTurn_stale {key : MergeKey} {m x : UserData} (ms : List UserData)
    {xs : List UserData} {s : Sending}
    (hfind : s.mergeOp.find key = some (opAfter x.dataId (x :: xs)))
    (hn : x.dataId.packetNumber ≠ m.dataId.packetNumber) :
    ∃ s', mergeTurn key m ms s = .ok (m :: ms, s') ∧ s'.sent = s.sent ∧
      s'.nonSent = s.nonSent ++ [lostReport x.dataId] ∧ s'.mergeOp = s.mergeOp.erase key := by
  have hlost : ¬ ePacketLost = eNoError := by decide
  have hop : findOrNew s.mergeOp key m = .ok (opAfter x.dataId (x :: xs)) := by
    simp [findOrNew, hfind]
  have hm : (opAfter x.dataId (x :: xs)).merge m ms =
      .ok ⟨m :: ms, [], { opAfter x.dataId (x :: xs) with error := ePacketLost }⟩ := by
    have hn' : ¬ (opAfter x.dataId (x :: xs)).info.packetNumber = m.dataId.packetNumber := hn
    simp [MergeOperation.merge, hn', hlost]
  obtain ⟨s', hs', h1, h2, h3⟩ := mergeTurn_failed hop hm hlost
  exact ⟨s', hs', by rw [h1, List.append_nil], h2, h3⟩

theorem isEnd_first {o : Origin} {m : UserData} (hm : m ∈ o.pieces)
    (hs : isSplited m.dataId.split = true) (hone : m.dataId.split.counter = 1) :
    isEnd m = false := by
  obtain ⟨t, ht⟩ := continues_first hm hone
  obtain ⟨init, z, hpieces, hinit, -⟩ := o.marked
  cases init with
  | nil =>
    obtain ⟨qs, harr⟩ := o.arrived
    rw [hpieces] at harr hm
    obtain rfl := List.mem_singleton.1 hm
    rw [(harr.single o.whole).2] at hs
    cases hs
  | cons x init =>
    rw [hpieces] at ht
    exact (List.cons.inj ht).1 ▸ hinit x List.mem_cons_self

/-- What `mergeTurn_agrees` says of the code is what the watch does. -/
theorem agrees_of_turn {aFor : Descriptor} {o : Origin} {w : Watch} {m : UserData}
    {ms : List UserData} {s s' : Sending} {info : UserDataInfo}
    (hmap : MapSim aFor w s.mergeOp) (hstale : stale w m = [])
    (hstart : held w m = [] → m.dataId.split.counter = 1)
    (hinfo : info = ((held w m).headD m).dataId)
    (hall : held w m ++ m :: ms = o.pieces → s'.sent = s.sent ++ [o.packet] ∧
      s'.nonSent = s.nonSent ∧ s'.mergeOp = s.mergeOp.erase (mergeKey aFor m))
    (hpart : held w m ++ m :: ms ≠ o.pieces → held w m ++ m :: ms <+: o.pieces →
      s'.sent = s.sent ∧ s'.nonSent = s.nonSent ∧
      s'.mergeOp = s.mergeOp.insert (mergeKey aFor m) (opAfter info (held w m ++ m :: ms)))
    (hbad : ¬ held w m ++ m :: ms <+: o.pieces → s'.sent = s.sent ∧
      s'.nonSent = s.nonSent ++ [lostReport info] ∧
      s'.mergeOp = s.mergeOp.erase (mergeKey aFor m)) :
    Agrees aFor w (take o w m ms) s s' := by
  have hfirst : ¬ (held w m = [] ∧ m.dataId.split.counter ≠ 1) := fun h => h.2 (hstart h.1)
  unfold take
  dsimp only
  rw [if_neg hfirst, hstale, List.append_nil]
  split_ifs with h1 h2
  · obtain ⟨hs, hn, hm⟩ := hall h1
    exact ⟨hm ▸ mapSim_erase hmap rfl, ⟨[o.packet], hs, rfl⟩, [], by simp [hn], by simp⟩
  · obtain ⟨hs, hn, hm⟩ := hpart h1 h2
    refine ⟨hm ▸ mapSim_insert hmap rfl ?_, ⟨[], by simp [hs], by simp⟩, [], by simp [hn], by simp⟩
    rw [hinfo]
    cases held w m <;> rfl
  · obtain ⟨hs, hn, hm⟩ := hbad h2
    exact ⟨hm ▸ mapSim_erase hmap rfl, ⟨[], by simp [hs], by simp⟩, [info], by simp [hn],
      by rw [hinfo]⟩

/-- A turn of a sender of whom nothing is held. -/
theorem mergeLoop_fresh {aFor : Descriptor} {os : List Origin} {o : Origin} {w : Watch}
    {m : UserData} {ms : List UserData} {s : Sending} (n : ℕ) (hmap : MapSim aFor w s.mergeOp)
    (hg : Group os o (m :: ms)) (hcur : w.cur (sender m) = [])
    (hok : m.dataId.split.counter = 1 → TurnOk o [] m ms) :
    ∃ s', mergeLoop (mergeKey aFor m) (n + 1) (m :: ms) s = .ok s' ∧
      Agrees aFor w (take o w m ms) s s' := by
  have hheld : held w m = [] := by rw [held, hcur]
  have hstale : stale w m = [] := by rw [stale, hcur]
  have hfind : s.mergeOp.find (mergeKey aFor m) = none := by
    have h := hmap (sender m)
    rw [hcur] at h
    exact h
  have hloop : ∀ s', mergeTurn (mergeKey aFor m) m ms s = .ok ([], s') →
      mergeLoop (mergeKey aFor m) (n + 1) (m :: ms) s = .ok s' := by
    intro s' hs'
    rw [mergeLoop, hs']
    cases n <;> rfl
  by_cases hone : m.dataId.split.counter = 1
  · have hm := hg.pieces m List.mem_cons_self
    have hop := opAfter_nil_of_first hfind hone
      (isEnd_first hm (hg.split m List.mem_cons_self) hone)
    obtain ⟨s', hs', hall, hpart, hbad⟩ :=
      mergeTurn_agrees hg List.nil_prefix rfl hop (hok hone)
    refine ⟨s', hloop s' hs',
      agrees_of_turn hmap hstale (fun _ => hone) (?_ : m.dataId = _) ?_ ?_ ?_⟩
    · rw [hheld]; rfl
    · rw [hheld]; exact hall
    · rw [hheld]; exact hpart
    · rw [hheld]; exact hbad
  · obtain ⟨s', hs', hsent, hnon, hm⟩ := mergeTurn_noStart hfind hone
    refine ⟨s', hloop s' hs', ?_⟩
    unfold take
    dsimp only
    rw [if_pos ⟨hheld, hone⟩, hstale, List.append_nil]
    exact ⟨hm ▸ mapSim_erase hmap rfl, ⟨[], by simp [hsent], by simp⟩, [m.dataId], by simp [hnon],
      rfl⟩

/-- The code does in one turn what the watch does. -/
theorem mergeLoop_agrees {aFor : Descriptor} {os : List Origin} {o : Origin} {w : Watch}
    {m : UserData} {ms : List UserData} {s : Sending} {hist : List UserData}
    (hmap : MapSim aFor w s.mergeOp) (hinv : Inv os hist w) (hd : Distinct os)
    (hg : Group os o (m :: ms))
    (hok : (held w m ≠ [] ∨ m.dataId.split.counter = 1) → TurnOk o (held w m) m ms) :
    ∃ s', mergeLoop (mergeKey aFor m) 2 (m :: ms) s = .ok s' ∧
      Agrees aFor w (take o w m ms) s s' := by
  have hm := hg.pieces m List.mem_cons_self
  have hfind := hmap (sender m)
  cases hcur : w.cur (sender m) with
  | nil =>
    refine mergeLoop_fresh 1 hmap hg hcur fun hone => ?_
    have hheld : held w m = [] := by rw [held, hcur]
    exact hheld ▸ hok (.inr hone)
  | cons x xs =>
    rw [hcur] at hfind
    by_cases hx : samePacket x m = true
    · have hheld : held w m = x :: xs := by rw [held_of_cur hcur, if_pos hx]
      have hstale : stale w m = [] := by rw [stale_of_cur hcur, if_pos hx]
      have hne : held w m ≠ [] := by simp [hheld]
      have hpre : held w m <+: o.pieces := by
        have hcongr := held_congr (w := w) (samePacket_piece hm)
        exact hcongr ▸ (hinv.held_prefix hd hg.known (hcongr ▸ hne)).1
      have hop : findOrNew s.mergeOp (mergeKey aFor m) m = .ok (opAfter x.dataId (held w m)) := by
        rw [hheld, findOrNew, show s.mergeOp.find (mergeKey aFor m) = _ from hfind]
        rfl
      have hinfo : x.dataId = ((held w m).headD m).dataId := by rw [hheld]; rfl
      obtain ⟨s', hs', hall, hpart, hbad⟩ := mergeTurn_agrees hg hpre hinfo hop (hok (.inl hne))
      exact ⟨s', mergeLoop_turn hs', agrees_of_turn hmap hstale (fun h => absurd h hne) hinfo hall
        hpart hbad⟩
    · -- the entry of the other packet goes first
      have hheld : held w m = [] := by rw [held_of_cur hcur, if_neg hx]
      have hstale : stale w m = [x.dataId] := by rw [stale_of_cur hcur, if_neg hx]
      obtain ⟨o', ho', hu, hpre, -⟩ := hinv.open_ (sender m) (by simp [hcur])
      rw [hcur] at hpre
      have hsnd : sender x = sender m :=
        (sender_eq (samePacket_piece (hpre.subset List.mem_cons_self))).symm.trans hu
      have hn : x.dataId.packetNumber ≠ m.dataId.packetNumber := fun hn => hx (by
        simp only [samePacket, Bool.and_eq_true, beq_iff_eq]
        exact ⟨hn, hsnd⟩)
      obtain ⟨t, ht, hsent, hnon, hmt⟩ := mergeTurn_stale ms
        (show s.mergeOp.find (mergeKey aFor m) = some (opAfter x.dataId (x :: xs)) from hfind) hn
      let w₁ : Watch := ⟨Function.update w.cur (sender m) [], w.sent, w.lost ++ [x.dataId]⟩
      have hmap₁ : MapSim aFor w₁ t.mergeOp := hmt ▸ mapSim_erase hmap rfl
      have hcur₁ : w₁.cur (sender m) = [] := by simp [w₁]
      have htake : take o w₁ m ms = take o w m ms := by
        have hheld₁ : held w₁ m = [] := by rw [held, hcur₁]
        have hstale₁ : stale w₁ m = [] := by rw [stale, hcur₁]
        simp [take, hheld, hheld₁, hstale, hstale₁, w₁]
      obtain ⟨s', hs', hagree⟩ := mergeLoop_fresh 0 hmap₁ hg hcur₁ fun hone => by
        rw [← hheld]
        exact hok (.inr hone)
      refine ⟨s', ?_, ?_⟩
      · rw [mergeLoop, ht]
        exact hs'
      · rw [← htake]
        have hfirst : Agrees aFor w w₁ s t :=
          ⟨hmap₁, ⟨[], by simp [hsent], by simp [w₁]⟩, [x.dataId], by simp [hnon], rfl⟩
        exact hfirst.trans hagree

end UdtKernel.Damage
