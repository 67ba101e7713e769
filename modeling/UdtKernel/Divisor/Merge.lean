import UdtKernel.Divisor.Cross

set_option autoImplicit false

/-! The pieces that an entry takes, one after the other, until its packet is whole. -/

namespace UdtKernel.Merge
open UdtKernel.Lib UdtKernel.Divisor UdtKernel.Cross

/-- The record of each level after some pieces: that of the last piece met there. -/
def levels (pre : List UserData) : SortedMap ℕ SplitPacket :=
  pre.foldl (fun m p => m.insert p.dataId.split.coefficient p.dataId.split) .empty

theorem levels_concat (pre : List UserData) (p : UserData) :
    levels (pre ++ [p]) = (levels pre).insert p.dataId.split.coefficient p.dataId.split := by
  simp [levels]

/-- The entry of a packet whose pieces `pre` arrived without an error. -/
def opAfter (info : UserDataInfo) (pre : List UserData) : MergeOperation :=
  ⟨bytes pre, pre, [], info, levels pre, eNoError, false⟩

@[simp] theorem opAfter_newPackets (info : UserDataInfo) (pre : List UserData) :
    (opAfter info pre).newPackets = [] := rfl

@[simp] theorem opAfter_error (info : UserDataInfo) (pre : List UserData) :
    (opAfter info pre).error = eNoError := rfl

/-- No `CHECK` fails on `p` behind `pre`: it is first or not the first, and has a byte. -/
def CanTake (pre : List UserData) (p : UserData) : Prop :=
  (bytes pre = [] → p.dataId.split.counter = 1) ∧ p.data ≠ []

/-- The counter of `p` follows what its level has seen, and `p` can be taken. -/
def InSequence (pre : List UserData) (p : UserData) : Prop :=
  (∀ s, (levels pre).find p.dataId.split.coefficient = some s →
    s.counter + 1 = p.dataId.split.counter) ∧ CanTake pre p

def Sequenced : List UserData → List UserData → Prop
  | _, [] => True
  | pre, p :: ps => InSequence pre p ∧ Sequenced (pre ++ [p]) ps

theorem sequenced_append {pre ps qs : List UserData} :
    Sequenced pre (ps ++ qs) ↔ Sequenced pre ps ∧ Sequenced (pre ++ ps) qs := by
  induction ps generalizing pre with
  | nil => simp [Sequenced]
  | cons p ps ih => simp [Sequenced, ih, and_assoc]

def isEnd (p : UserData) : Bool := p.dataId.split.isLast

/-- The entry while pieces `news` are being taken, with the error met so far. -/
def opDuring (info : UserDataInfo) (pre news : List UserData) (e : ErrorType) : MergeOperation :=
  ⟨bytes pre, pre, news, info, levels pre, e, false⟩

theorem checkingSequence_opDuring (info : UserDataInfo) (pre news : List UserData)
    (e : ErrorType) (p : UserData) (hp : isSplited p.dataId.split) :
    (opDuring info pre news e).checkingSequence p =
      .ok { opDuring info pre news
          (if ∀ s, (levels pre).find p.dataId.split.coefficient = some s →
            s.counter + 1 = p.dataId.split.counter then e else ePacketLost) with
        splitLevel := levels (pre ++ [p]) } := by
  rw [levels_concat]
  cases h : (levels pre).find p.dataId.split.coefficient with
  | none => simp [MergeOperation.checkingSequence, opDuring, h]
  | some s =>
    by_cases hs : s.counter + 1 = p.dataId.split.counter
    · simp [MergeOperation.checkingSequence, opDuring, h, hs]
    · simp [MergeOperation.checkingSequence, opDuring, h, hs, hp]

theorem mergePacket_of_canTake {op : MergeOperation} {pre : List UserData} {p : UserData}
    (hop : op.bufForMerge = bytes pre) (h : CanTake pre p) :
    op.mergePacket p = .ok (isEnd p, { op with bufForMerge := bytes pre ++ p.data }) := by
  have hstarts : ¬(bytes pre = [] ∧ p.dataId.split.counter ≠ 1) := fun hb => hb.2 (h.1 hb.1)
  rw [MergeOperation.mergePacket, hop, if_neg hstarts, insertRange_eq _ h.2]
  rfl

theorem mergePacket_of_not_canTake {op : MergeOperation} {pre : List UserData} {p : UserData}
    (hop : op.bufForMerge = bytes pre) (h : ¬CanTake pre p) :
    ∃ e, op.mergePacket p = .error e := by
  rw [MergeOperation.mergePacket, hop]
  split_ifs with hstarts
  · exact ⟨_, rfl⟩
  · have hnil : p.data = [] := by
      by_contra hne
      exact h ⟨fun hb => not_not.1 fun hone => hstarts ⟨hb, hone⟩, hne⟩
    rw [hnil, insertRange_nil]
    exact ⟨_, rfl⟩

/-- One turn of the merging loop. -/
theorem mergingLoop_cons (info : UserDataInfo) {pre : List UserData} (news : List UserData)
    (e : ErrorType) {p : UserData} (ps : List UserData) (hp : isSplited p.dataId.split)
    (h : CanTake pre p) :
    MergeOperation.mergingLoop (p :: ps) (opDuring info pre news e) =
      let next := opDuring info (pre ++ [p]) ps
        (if ∀ s, (levels pre).find p.dataId.split.coefficient = some s →
          s.counter + 1 = p.dataId.split.counter then e else ePacketLost)
      if isEnd p then .ok (true, next) else MergeOperation.mergingLoop ps next := by
  rw [MergeOperation.mergingLoop, checkingSequence_opDuring info pre news e p hp]
  simp only [bind, Except.bind]
  rw [mergePacket_of_canTake rfl h]
  simp [opDuring, pure, Except.pure]

theorem mergingLoop_refused (info : UserDataInfo) {pre : List UserData} (news : List UserData)
    (e : ErrorType) {p : UserData} (ps : List UserData) (hp : isSplited p.dataId.split)
    (h : ¬CanTake pre p) :
    ∃ a, MergeOperation.mergingLoop (p :: ps) (opDuring info pre news e) = .error a := by
  rw [MergeOperation.mergingLoop, checkingSequence_opDuring info pre news e p hp]
  simp only [bind, Except.bind]
  obtain ⟨a, ha⟩ := @mergePacket_of_not_canTake { opDuring info pre news
    (if ∀ s, (levels pre).find p.dataId.split.coefficient = some s →
      s.counter + 1 = p.dataId.split.counter then e else ePacketLost) with
    splitLevel := levels (pre ++ [p]) } pre p rfl h
  rw [ha]
  exact ⟨a, rfl⟩

theorem mergingLoop_nil (info : UserDataInfo) (pre news : List UserData) (e : ErrorType) :
    MergeOperation.mergingLoop [] (opDuring info pre news e) =
      .ok (false, opDuring info pre [] e) := rfl

/-- Pieces in sequence, none of them the last, are taken without an error. -/
theorem mergingLoop_sequenced (info : UserDataInfo) {pre ps : List UserData}
    (news : List UserData) (hs : Sequenced pre ps) (hend : ∀ p ∈ ps, isEnd p = false)
    (hp : ∀ p ∈ ps, isSplited p.dataId.split) :
    MergeOperation.mergingLoop ps (opDuring info pre news eNoError) =
      .ok (false, opAfter info (pre ++ ps)) := by
  induction ps generalizing pre news with
  | nil =>
    rw [mergingLoop_nil]
    simp [opDuring, opAfter]
  | cons p ps ih =>
    rw [mergingLoop_cons info news _ ps (hp p List.mem_cons_self) hs.1.2, if_pos hs.1.1]
    simp only [hend p List.mem_cons_self, Bool.false_eq_true, if_false]
    rw [ih ps hs.2 (fun q hq => hend q (List.mem_cons_of_mem _ hq)) fun q hq =>
      hp q (List.mem_cons_of_mem _ hq)]
    simp

theorem mergingLoop_last (info : UserDataInfo) {pre ps : List UserData} {z : UserData}
    (news : List UserData) (hs : Sequenced pre (ps ++ [z])) (hend : ∀ p ∈ ps, isEnd p = false)
    (hz : isEnd z = true) (hp : ∀ p ∈ ps ++ [z], isSplited p.dataId.split) :
    MergeOperation.mergingLoop (ps ++ [z]) (opDuring info pre news eNoError) =
      .ok (true, opAfter info (pre ++ ps ++ [z])) := by
  induction ps generalizing pre news with
  | nil =>
    rw [List.nil_append, mergingLoop_cons info news _ [] (hp z (by simp)) hs.1.2, if_pos hs.1.1]
    simp [hz, opDuring, opAfter]
  | cons p ps ih =>
    rw [List.cons_append, mergingLoop_cons info news _ _ (hp p List.mem_cons_self) hs.1.2,
      if_pos hs.1.1]
    simp only [hend p List.mem_cons_self, Bool.false_eq_true, if_false]
    rw [ih _ hs.2 (fun q hq => hend q (List.mem_cons_of_mem _ hq)) fun q hq =>
      hp q (List.mem_cons_of_mem _ hq)]
    simp

theorem canTake_of_mergingLoop {info : UserDataInfo} {pre news ps : List UserData} {p : UserData}
    {e : ErrorType} {r : Bool × MergeOperation} (hp : isSplited p.dataId.split)
    (h : MergeOperation.mergingLoop (p :: ps) (opDuring info pre news e) = .ok r) :
    CanTake pre p := by
  by_contra hnot
  obtain ⟨a, ha⟩ := mergingLoop_refused info news e ps hp hnot
  rw [ha] at h
  cases h

/-- If the loop ends without an error, every piece was in sequence. -/
theorem sequenced_of_mergingLoop (info : UserDataInfo) {pre ps : List UserData} {z : UserData}
    {news : List UserData} {e : ErrorType} {b : Bool} {op : MergeOperation}
    (hend : ∀ p ∈ ps, isEnd p = false) (hp : ∀ p ∈ ps ++ [z], isSplited p.dataId.split)
    (h : MergeOperation.mergingLoop (ps ++ [z]) (opDuring info pre news e) = .ok (b, op))
    (he : op.error = eNoError) : e = eNoError ∧ Sequenced pre (ps ++ [z]) := by
  have hlost : ePacketLost ≠ eNoError := by decide
  induction ps generalizing pre news e with
  | nil =>
    have htake := canTake_of_mergingLoop (hp z (by simp)) h
    rw [List.nil_append, mergingLoop_cons info news _ [] (hp z (by simp)) htake] at h
    split_ifs at h with hseq hz hz
    · obtain rfl : _ = op := (Prod.mk.inj (Except.ok.inj h)).2
      exact ⟨he, ⟨hseq, htake⟩, trivial⟩
    · rw [mergingLoop_nil] at h
      obtain rfl : _ = op := (Prod.mk.inj (Except.ok.inj h)).2
      exact ⟨he, ⟨hseq, htake⟩, trivial⟩
    · obtain rfl : _ = op := (Prod.mk.inj (Except.ok.inj h)).2
      exact absurd he hlost
    · rw [mergingLoop_nil] at h
      obtain rfl : _ = op := (Prod.mk.inj (Except.ok.inj h)).2
      exact absurd he hlost
  | cons p ps ih =>
    have htake := canTake_of_mergingLoop (hp p List.mem_cons_self) h
    rw [List.cons_append, mergingLoop_cons info news _ _ (hp p List.mem_cons_self) htake] at h
    simp only [hend p List.mem_cons_self, Bool.false_eq_true, if_false] at h
    split_ifs at h with hseq
    · obtain ⟨he', hs⟩ := ih (fun q hq => hend q (List.mem_cons_of_mem _ hq))
        (fun q hq => hp q (List.mem_cons_of_mem _ hq)) h
      exact ⟨he', ⟨hseq, htake⟩, hs⟩
    · obtain ⟨he', -⟩ := ih (fun q hq => hend q (List.mem_cons_of_mem _ hq))
        (fun q hq => hp q (List.mem_cons_of_mem _ hq)) h
      exact absurd he' hlost

theorem merge_opAfter (info : UserDataInfo) (pre : List UserData) (p : UserData)
    (ps : List UserData) (hn : info.packetNumber = p.dataId.packetNumber) :
    (opAfter info pre).merge p ps =
      (opDuring info pre (p :: ps) eNoError).merging >>= fun r =>
        .ok ⟨[], if r.1 then r.2.1 else [], r.2.2⟩ := by
  simp [MergeOperation.merge, opAfter, opDuring, hn]
  rfl

theorem merge_rest {info : UserDataInfo} {pre : List UserData} {p : UserData}
    {ps : List UserData} {m : MergeOperation.Merged}
    (hn : info.packetNumber = p.dataId.packetNumber)
    (h : (opAfter info pre).merge p ps = .ok m) : m.rest = [] := by
  rw [merge_opAfter info pre p ps hn] at h
  cases hm : (opDuring info pre (p :: ps) eNoError).merging with
  | error e => rw [hm] at h; cases h
  | ok r =>
    rw [hm] at h
    rw [← Except.ok.inj h]

theorem merge_mid (info : UserDataInfo) {pre : List UserData} {p : UserData}
    {ps : List UserData} (hn : info.packetNumber = p.dataId.packetNumber)
    (hs : Sequenced pre (p :: ps)) (hend : ∀ q ∈ p :: ps, isEnd q = false)
    (hp : ∀ q ∈ p :: ps, isSplited q.dataId.split) :
    (opAfter info pre).merge p ps = .ok ⟨[], [], opAfter info (pre ++ p :: ps)⟩ := by
  have hloop := mergingLoop_sequenced info (p :: ps) hs hend hp
  rw [merge_opAfter info pre p ps hn]
  simp only [MergeOperation.merging]
  rw [if_neg (by simp [opDuring])]
  simp only [opDuring] at hloop ⊢
  rw [hloop]
  simp [bind, Except.bind, pure, Except.pure, opAfter]

def opMerged (info : UserDataInfo) (pre : List UserData) : MergeOperation :=
  { opAfter info pre with bufForMerge := [], isMerged := true }

def delivered (info : UserDataInfo) (pre : List UserData) : UserData :=
  ⟨{ info with split := .default }, bytes pre⟩

theorem createPacket_opAfter (info : UserDataInfo) {pre : List UserData} (hb : bytes pre ≠ []) :
    (opAfter info pre).createPacket =
      (some (delivered info pre), { opAfter info pre with bufForMerge := [] }) :=
  if_pos (show (opAfter info pre).bufForMerge ≠ [] from hb)

theorem merge_last (info : UserDataInfo) {pre : List UserData} {p : UserData}
    {ps init : List UserData} {z : UserData} (hg : p :: ps = init ++ [z])
    (hn : info.packetNumber = p.dataId.packetNumber)
    (hs : Sequenced pre (p :: ps)) (hend : ∀ q ∈ init, isEnd q = false) (hz : isEnd z = true)
    (hp : ∀ q ∈ p :: ps, isSplited q.dataId.split) (hb : bytes (pre ++ p :: ps) ≠ []) :
    (opAfter info pre).merge p ps =
      .ok ⟨[], [delivered info (pre ++ p :: ps)], opMerged info (pre ++ p :: ps)⟩ := by
  have hloop := mergingLoop_last info (p :: ps) (hg ▸ hs) hend hz (hg ▸ hp)
  rw [merge_opAfter info pre p ps hn]
  simp only [MergeOperation.merging]
  rw [if_neg (by simp [opDuring])]
  rw [← hg, List.append_assoc, ← hg] at hloop
  simp only [opDuring] at hloop ⊢
  rw [hloop]
  simp [bind, Except.bind, pure, Except.pure, createPacket_opAfter info hb, opMerged]

/-- A call that leaves no error in the entry took its pieces in sequence. -/
theorem sequenced_of_merge (info : UserDataInfo) {pre : List UserData} {p : UserData}
    {ps init : List UserData} {z : UserData} {m : MergeOperation.Merged}
    (hg : p :: ps = init ++ [z]) (hn : info.packetNumber = p.dataId.packetNumber)
    (hend : ∀ q ∈ init, isEnd q = false) (hp : ∀ q ∈ p :: ps, isSplited q.dataId.split)
    (h : (opAfter info pre).merge p ps = .ok m) (he : m.op.error = eNoError) :
    Sequenced pre (p :: ps) := by
  have hmerge : eMergeError ≠ eNoError := by decide
  rw [merge_opAfter info pre p ps hn] at h
  simp only [MergeOperation.merging] at h
  rw [if_neg (by simp [opDuring])] at h
  have hnews : (opDuring info pre (p :: ps) eNoError).newPackets = init ++ [z] := hg
  rw [hnews] at h
  cases hloop : MergeOperation.mergingLoop (init ++ [z]) (opDuring info pre (p :: ps) eNoError) with
  | error e => rw [hloop] at h; cases h
  | ok r =>
    obtain ⟨b, op⟩ := r
    rw [hloop] at h
    suffices hop : op.error = eNoError by
      rw [hg]
      exact (sequenced_of_mergingLoop info hend (hg ▸ hp) hloop hop).2
    cases b with
    | false =>
      simp only [bind, Except.bind, pure, Except.pure, Bool.false_eq_true, if_false] at h
      rw [← Except.ok.inj h] at he
      exact he
    | true =>
      simp only [bind, Except.bind, pure, Except.pure, if_true] at h
      by_cases hnew : op.newPackets = []
      · by_cases hbuf : op.bufForMerge = []
        · simp [hnew, hbuf, MergeOperation.createPacket] at h
          rw [← h] at he
          exact absurd he hmerge
        · simp [hnew, hbuf, MergeOperation.createPacket] at h
          rw [← h] at he
          exact he
      · simp [hnew] at h

end UdtKernel.Merge

namespace UdtKernel.Sequence
open UdtKernel.Lib UdtKernel.Divisor UdtKernel.Plan UdtKernel.Cross UdtKernel.Merge

def recs (ps : List UserData) : List SplitPacket := ps.map fun p => p.dataId.split

def coefs (ps : List UserData) : List ℕ := ps.map fun p => p.dataId.split.coefficient

theorem levels_find_concat (pre : List UserData) (x : UserData) (k : ℕ) :
    (levels (pre ++ [x])).find k =
      if k = x.dataId.split.coefficient then some x.dataId.split else (levels pre).find k := by
  rw [levels_concat, SortedMap.find_insert]

theorem levels_find_none {pre : List UserData} {k : ℕ} (h : k ∉ coefs pre) :
    (levels pre).find k = none := by
  induction pre using List.reverseRecOn with
  | nil => rfl
  | append_singleton pre x ih =>
    simp only [coefs, List.map_append, List.mem_append, not_or] at h
    rw [levels_find_concat, if_neg (by simpa using h.2), ih h.1]

theorem levels_find_mem {pre : List UserData} {k : ℕ} (h : k ∈ coefs pre) :
    ∃ s ∈ recs pre, s.coefficient = k ∧ (levels pre).find k = some s := by
  induction pre using List.reverseRecOn with
  | nil => simp [coefs] at h
  | append_singleton pre x ih =>
    rw [levels_find_concat]
    by_cases hx : k = x.dataId.split.coefficient
    · exact ⟨x.dataId.split, by simp [recs], hx.symm, if_pos hx⟩
    · have hk : k ∈ coefs pre := by
        simp only [coefs, List.map_append, List.mem_append] at h
        rcases h with h | h
        · exact h
        · exact absurd (by simpa using h) hx
      obtain ⟨s, hs, hsk, hfind⟩ := ih hk
      refine ⟨s, ?_, hsk, by rw [if_neg hx, hfind]⟩
      simp only [recs, List.map_append, List.mem_append]
      exact .inl hs

theorem tiles_stop_le {a b : ℚ} {ss : List SplitPacket} (hp : ∀ s ∈ ss, Placed s)
    (h : Tiles a b ss) {s : SplitPacket} (hs : s ∈ ss) : stop s ≤ b := by
  induction ss generalizing a with
  | nil => cases hs
  | cons t ss ih =>
    have hp' : ∀ s ∈ ss, Placed s := fun s hs => hp s (List.mem_cons_of_mem _ hs)
    rcases List.mem_cons.1 hs with rfl | hs
    · exact tiles_le hp' h.2
    · exact ih hp' h.2 hs

/-- Among pieces that lie one after another, a counter follows its level exactly when the
    level is new or was left by the piece just before. -/
theorem follows_iff {a c : ℚ} {pre : List UserData} {x p : UserData}
    (ht : Tiles a c (recs (pre ++ [x] ++ [p]))) (hp : ∀ s ∈ recs (pre ++ [x] ++ [p]), Placed s) :
    (∀ s, (levels (pre ++ [x])).find p.dataId.split.coefficient = some s →
      s.counter + 1 = p.dataId.split.counter) ↔
    (p.dataId.split.coefficient ∉ coefs (pre ++ [x]) ∨
      x.dataId.split.coefficient = p.dataId.split.coefficient) := by
  simp only [recs, List.map_append, List.map_cons, List.map_nil] at ht hp
  obtain ⟨b, htpre, htp⟩ := tiles_split ht
  obtain ⟨b', htpre', htx⟩ := tiles_split htpre
  have hxb : stop x.dataId.split = b := htx.2
  have hpb : start p.dataId.split = b := htp.1
  have hplaced : Placed p.dataId.split := hp _ (by simp)
  have hxlt := start_lt_stop (hp x.dataId.split (by simp))
  rw [htx.1] at hxlt
  rw [levels_find_concat]
  by_cases hxp : p.dataId.split.coefficient = x.dataId.split.coefficient
  · rw [if_pos hxp]
    refine iff_of_true (fun s hs => ?_) (.inr hxp.symm)
    obtain rfl := Option.some.inj hs
    exact (counter_succ_iff hplaced hxp.symm).2 (hxb.trans hpb.symm)
  · rw [if_neg hxp]
    have hmem : p.dataId.split.coefficient ∉ coefs (pre ++ [x]) ↔
        p.dataId.split.coefficient ∉ coefs pre := by simp [coefs, hxp]
    rw [hmem, or_iff_left fun h => hxp h.symm]
    refine ⟨fun hall hin => ?_, fun hout => by simp [levels_find_none hout]⟩
    obtain ⟨s, hs, hsk, hfind⟩ := levels_find_mem hin
    have hstop := tiles_stop_le (fun t ht => hp t (by
      simp only [List.mem_append]; exact .inl (.inl ht))) htpre' hs
    have heq := (counter_succ_iff hplaced hsk).1 (hall s hfind)
    linarith

/-- Behind a piece with a byte, pieces are taken in sequence exactly when each has a byte and
    pieces of one level stand together. -/
theorem sequenced_iff_levels {a c : ℚ} {pre ps : List UserData} {x : UserData}
    (ht : Tiles a c (recs (pre ++ [x] ++ ps))) (hp : ∀ s ∈ recs (pre ++ [x] ++ ps), Placed s)
    (hb : bytes (pre ++ [x]) ≠ []) :
    Sequenced (pre ++ [x]) ps ↔
      (∀ p ∈ ps, p.data ≠ []) ∧ LevelsTogether (coefs (pre ++ [x])).reverse (coefs ps) := by
  induction ps generalizing pre x with
  | nil => simp [Sequenced, LevelsTogether, coefs]
  | cons p ps ih =>
    have hsplit : pre ++ [x] ++ p :: ps = pre ++ [x] ++ [p] ++ ps := by simp
    rw [hsplit] at ht hp
    have hrest := ih ht hp (by
      rw [bytes_append]
      exact fun h => hb (List.append_eq_nil_iff.1 h).1)
    obtain ⟨b, htp, -⟩ := tiles_split (show Tiles a c (recs (pre ++ [x] ++ [p]) ++ recs ps) by
      simpa [recs] using ht)
    have hfollow := follows_iff htp fun s hs => hp s (by
      simp only [recs, List.map_append, List.mem_append] at hs ⊢
      exact .inl hs)
    have hhead : (coefs (pre ++ [x])).reverse.head? = some x.dataId.split.coefficient := by
      simp [coefs]
    have hrev : (coefs (pre ++ [x] ++ [p])).reverse =
        p.dataId.split.coefficient :: (coefs (pre ++ [x])).reverse := by simp [coefs]
    have htake : CanTake (pre ++ [x]) p ↔ p.data ≠ [] := and_iff_right fun h => absurd h hb
    change (_ ∧ _) ∧ _ ↔ _ ∧ (_ ∨ _) ∧ _
    rw [hrest, hfollow, htake, hhead, List.mem_reverse, Option.some.injEq, hrev,
      List.forall_mem_cons]
    exact ⟨fun ⟨⟨hlevel, hdata⟩, hall, hlevels⟩ => ⟨⟨hdata, hall⟩, hlevel, hlevels⟩,
      fun ⟨⟨hdata, hall⟩, hlevel, hlevels⟩ => ⟨⟨hlevel, hdata⟩, hall, hlevels⟩⟩

/-- All pieces of a packet are taken in sequence exactly when each has a byte and pieces of one
    level stand together. -/
theorem sequenced_iff {c : ℚ} {x : UserData} {ps : List UserData}
    (ht : Tiles 0 c (recs (x :: ps))) (hp : ∀ s ∈ recs (x :: ps), Placed s) :
    Sequenced [] (x :: ps) ↔
      (∀ q ∈ x :: ps, q.data ≠ []) ∧ LevelsTogether [] (coefs (x :: ps)) := by
  rw [List.forall_mem_cons]
  by_cases hx : x.data = []
  · exact iff_of_false (fun h => h.1.2.2 hx) fun h => h.1.1 hx
  · have hone : x.dataId.split.counter = 1 :=
      (counter_eq_one_iff (hp _ (by simp [recs]))).2 ht.1
    have hin : InSequence [] x := ⟨fun s hs => by simp [levels] at hs, fun _ => hone, hx⟩
    have hrest := @sequenced_iff_levels 0 c [] ps x ht hp (by simpa using hx)
    change InSequence [] x ∧ Sequenced [x] ps ↔
      (_ ∧ _) ∧ (_ ∨ _) ∧ LevelsTogether [x.dataId.split.coefficient] (coefs ps)
    rw [List.nil_append] at hrest
    rw [hrest]
    simp [hin, hx, coefs]

end UdtKernel.Sequence
