import UdtKernel.Divisor.Damage

set_option autoImplicit false

/-! Whole runs of the merging of pieces some of which were lost on their way. -/

namespace UdtKernel.DamagedRun
open UdtKernel.Lib UdtKernel.Divisor UdtKernel.Cross UdtKernel.Merge UdtKernel.Sequence
open UdtKernel.Plan (plan)
open UdtKernel.Roundtrip UdtKernel.Continue UdtKernel.Stream UdtKernel.Damage

def turnsOf : List UserData → List (List UserData)
  | [] => []
  | d :: ds => (d :: ds.takeWhile (samePacket d)) :: turnsOf (ds.dropWhile (samePacket d))
termination_by call => call.length
decreasing_by exact Nat.lt_succ_of_le (List.dropWhile_sublist _).length_le

/-- The condition on one turn. Whole packets must fit the limit of the descriptor. A turn
    that no packet begins or continues with is not restricted. -/
def StepOk (os : List Origin) (i : SplitInfo) (w : Watch) : List UserData → Prop
  | [] => True
  | m :: ms =>
    if isSplited m.dataId.split then
      ∀ o, originOf os m = some o → (held w m ≠ [] ∨ m.dataId.split.counter = 1) →
        TurnOk o (held w m) m ms
    else i.maxSize = 0 ∨ i.dataSize m ≤ i.maxSize

def StepsOk (os : List Origin) (i : SplitInfo) : Watch → List (List UserData) → Prop
  | _, [] => True
  | w, g :: gs => StepOk os i w g ∧ StepsOk os i (turn os w g) gs

/-- The messages are pieces of the packets `os`. -/
def PiecesOf (os : List Origin) (call : List UserData) : Prop := ∀ m ∈ call, ∃ o ∈ os, m ∈ o.pieces

theorem stepsOk_append {os : List Origin} {i : SplitInfo} {w : Watch}
    {gs hs : List (List UserData)} :
    StepsOk os i w (gs ++ hs) ↔ StepsOk os i w gs ∧ StepsOk os i (Stream.run os w gs) hs := by
  induction gs generalizing w with
  | nil => simp [StepsOk, Stream.run]
  | cons g gs ih =>
    have h := ih (w := turn os w g)
    simp only [Stream.run, List.foldl_cons, List.cons_append, StepsOk] at h ⊢
    rw [h, and_assoc]

/-- All that is known of a run: what the watch and each packet went through. -/
structure RunInv (os : List Origin) (hist : List UserData) (w : Watch) : Prop where
  inv : Inv os hist w
  tracked : ∀ o ∈ os, IsSplit o → Tracked hist w o

/-- A turn is made of split pieces of one packet, or of copies of a whole packet. -/
theorem turn_kind {os : List Origin} {d : UserData} {ds : List UserData} (hd : Distinct os)
    (hp : PiecesOf os (d :: ds)) (hsame : ∀ x ∈ ds, samePacket d x = true) :
    (isSplited d.dataId.split = true ∧ ∃ o, originOf os d = some o ∧ Group os o (d :: ds)) ∨
    (isSplited d.dataId.split = false ∧ WholeGroup os (d :: ds) ∧ ∀ x ∈ ds, x = d) := by
  obtain ⟨o, ho, hdo⟩ := hp d List.mem_cons_self
  have hmine : ∀ x ∈ d :: ds, x ∈ o.pieces := by
    intro x hx
    rcases List.mem_cons.1 hx with rfl | hx'
    · exact hdo
    · obtain ⟨o', ho', hxo⟩ := hp x hx
      have hxd := samePacket_piece hxo
      rw [samePacket_symm] at hxd
      have hdx := samePacket_trans (samePacket_piece hdo) (hsame x hx')
      rw [origin_unique hd ho ho' (samePacket_trans hdx hxd)]
      exact hxo
  cases hs : isSplited d.dataId.split with
  | true =>
    refine .inl ⟨rfl, o, originOf_piece hd ho hdo, ho, hmine, fun x hx => ?_, by simp⟩
    by_contra hx'
    obtain ⟨-, hsingle⟩ := whole_piece (hmine x hx) (by simpa using hx')
    rw [hsingle] at hdo
    rw [List.mem_singleton.1 hdo] at hs
    exact hx' hs
  | false =>
    obtain ⟨-, hsingle⟩ := whole_piece hdo hs
    have heq : ∀ x ∈ d :: ds, x = d := fun x hx => by
      have hx' := hmine x hx
      rw [hsingle] at hx'
      exact List.mem_singleton.1 hx'
    refine .inr ⟨rfl, ⟨fun x hx => hp x hx, fun x hx => by rw [heq x hx, hs]⟩, fun x hx =>
      heq x (List.mem_cons_of_mem _ hx)⟩

theorem turn_split {os : List Origin} {w : Watch} {o : Origin} {d : UserData} {ds : List UserData}
    (hs : isSplited d.dataId.split = true) (ho : originOf os d = some o) :
    turn os w (d :: ds) = take o w d ds := by
  simp [turn, hs, ho]

theorem turn_whole {os : List Origin} {w : Watch} {d : UserData} {ds : List UserData}
    (hs : isSplited d.dataId.split = false) :
    turn os w (d :: ds) = { w with sent := w.sent ++ d :: ds } := by
  simp [turn, hs]

theorem runInv_turn {os : List Origin} (hd : Distinct os) {hist : List UserData} {w : Watch}
    (h : RunInv os hist w) {d : UserData} {ds : List UserData} (hp : PiecesOf os (d :: ds))
    (hsame : ∀ x ∈ ds, samePacket d x = true) :
    RunInv os (hist ++ d :: ds) (turn os w (d :: ds)) := by
  rcases turn_kind hd hp hsame with ⟨hs, o, ho, hg⟩ | ⟨hs, hg, -⟩
  · rw [turn_split hs ho]
    refine ⟨inv_take h.inv hd hg, fun o' ho' hsp => ?_⟩
    by_cases hne : o = o'
    · subst hne
      exact tracked_take_own (h.tracked o ho' hsp) hg
    · exact tracked_take_other hd (h.tracked o' ho' hsp) ho' hg hne
  · rw [turn_whole hs]
    exact ⟨inv_whole h.inv hg, fun o ho hsp => tracked_whole hd (h.tracked o ho hsp) ho hsp hg⟩

/-- Copies of a whole packet that fits pass one by one. -/
theorem sendLoop_whole {aFor : Descriptor} {i : SplitInfo} (hcan : i.canNotSplit = true)
    {d : UserData} (hs : isSplited d.dataId.split = false)
    (hfit : i.maxSize = 0 ∨ i.dataSize d ≤ i.maxSize) (ds rest : List UserData)
    (hsame : ∀ x ∈ ds, x = d) (s : Sending) :
    sendLoop aFor i (ds ++ rest) s = sendLoop aFor i rest { s with sent := s.sent ++ ds } := by
  induction ds generalizing s with
  | nil => simp
  | cons x ds ih =>
    obtain rfl := hsame x List.mem_cons_self
    rw [List.cons_append, sendLoop]
    simp only [hcan, hs, hfit, if_true, Bool.false_eq_true, if_false]
    rw [ih fun y hy => hsame y (List.mem_cons_of_mem _ hy)]
    simp

/-- A call goes through its turns as the watch does. -/
theorem sendLoop_agrees {os : List Origin} (hd : Distinct os) {aFor : Descriptor} {i : SplitInfo}
    (hcan : i.canNotSplit = true) {call : List UserData} (hp : PiecesOf os call)
    {hist : List UserData} {w : Watch} (h : RunInv os hist w) {s : Sending}
    (hmap : MapSim aFor w s.mergeOp) (hok : StepsOk os i w (turnsOf call)) :
    ∃ s', sendLoop aFor i call s = .ok s' ∧
      Agrees aFor w (Stream.run os w (turnsOf call)) s s' ∧
      RunInv os (hist ++ call) (Stream.run os w (turnsOf call)) := by
  induction call using turnsOf.induct generalizing hist w s with
  | case1 =>
    refine ⟨s, by rw [sendLoop], ?_, ?_⟩
    · rw [turnsOf]
      exact ⟨hmap, ⟨[], by simp, by simp [Stream.run]⟩, [], by simp, by simp [Stream.run]⟩
    · rw [turnsOf, List.append_nil]
      exact h
  | case2 d ds ih =>
    have hsame : ∀ x ∈ ds.takeWhile (samePacket d), samePacket d x = true := fun x hx =>
      List.mem_takeWhile_imp hx
    have hsub : ∀ x ∈ d :: ds.takeWhile (samePacket d), x ∈ d :: ds := fun x hx =>
      List.cons_subset_cons d (List.takeWhile_sublist _).subset hx
    have hp₁ : PiecesOf os (d :: ds.takeWhile (samePacket d)) := fun x hx => hp x (hsub x hx)
    have hp₂ : PiecesOf os (ds.dropWhile (samePacket d)) := fun x hx =>
      hp x (List.mem_cons_of_mem _ ((List.dropWhile_sublist _).subset hx))
    rw [turnsOf] at hok ⊢
    have hinv := runInv_turn hd h hp₁ hsame
    have hcall : hist ++ d :: ds = hist ++ d :: ds.takeWhile (samePacket d) ++
        ds.dropWhile (samePacket d) := by simp
    rw [hcall]
    suffices hturn : ∃ t, sendLoop aFor i (d :: ds) s =
        sendLoop aFor i (ds.dropWhile (samePacket d)) t ∧
        Agrees aFor w (turn os w (d :: ds.takeWhile (samePacket d))) s t by
      obtain ⟨t, ht, hagree⟩ := hturn
      obtain ⟨s', hs', hagree', hinv'⟩ := ih hp₂ hinv hagree.map hok.2
      exact ⟨s', ht.trans hs', hagree.trans hagree', hinv'⟩
    rcases turn_kind hd hp₁ hsame with ⟨hs, o, ho, hg⟩ | ⟨hs, hg, heq⟩
    · have hstep := hok.1
      rw [StepOk, if_pos hs] at hstep
      obtain ⟨t, ht, hagree⟩ := mergeLoop_agrees hmap h.inv hd hg (hstep o ho)
      refine ⟨t, ?_, by rw [turn_split hs ho]; exact hagree⟩
      have hall : (ds.takeWhile (samePacket d)).all (fun e => isSplited e.dataId.split) = true :=
        List.all_eq_true.2 fun x hx => hg.split x (List.mem_cons_of_mem _ hx)
      rw [sendLoop]
      simp only [hcan, if_true, hs, Divisor.merge, hall, ht, bind, Except.bind]
    · have hstep := hok.1
      rw [StepOk, if_neg (by simp [hs])] at hstep
      refine ⟨{ s with sent := s.sent ++ d :: ds.takeWhile (samePacket d) }, ?_, ?_⟩
      · have hsplit : d :: ds = (d :: ds.takeWhile (samePacket d)) ++
            ds.dropWhile (samePacket d) := by simp
        rw [hsplit]
        refine sendLoop_whole hcan hs hstep _ _ (fun x hx => ?_) s
        rcases List.mem_cons.1 hx with rfl | hx
        · rfl
        · exact heq x hx
      · rw [turn_whole hs]
        exact ⟨hmap, ⟨_, rfl, rfl⟩, [], by simp, by simp⟩

def turns (calls : List (List UserData)) : List (List UserData) := calls.flatMap turnsOf

/-- A run goes through its turns as the watch does. -/
theorem sendAll_agrees {os : List Origin} (hd : Distinct os) {aFor : Descriptor} {i : SplitInfo}
    (hcan : i.canNotSplit = true) {calls : List (List UserData)} {p : PacketDivisor}
    (hfound : p.limitsInfo.find aFor = some i) (hp : ∀ call ∈ calls, PiecesOf os call)
    {hist : List UserData} {w : Watch} (h : RunInv os hist w) (hmap : MapSim aFor w p.mergeOp)
    (hok : StepsOk os i w (turns calls)) :
    ∃ rs, sendAll aFor p calls = .ok rs ∧
      (Stream.run os w (turns calls)).sent = w.sent ++ rs.flatMap Divided.sent ∧
      (∃ is, (Stream.run os w (turns calls)).lost = w.lost ++ is ∧
        rs.flatMap Divided.nonSent = is.map lostReport) ∧
      RunInv os (hist ++ calls.flatten) (Stream.run os w (turns calls)) := by
  induction calls generalizing p hist w with
  | nil =>
    refine ⟨[], by rw [sendAll], by simp [turns, Stream.run], ⟨[], ?_, rfl⟩, ?_⟩
    · simp [turns, Stream.run]
    · simpa [turns, Stream.run] using h
  | cons call calls ih =>
    have hturns : turns (call :: calls) = turnsOf call ++ turns calls := by
      rw [turns, List.flatMap_cons, turns]
    have hrun : Stream.run os w (turns (call :: calls)) =
        Stream.run os (Stream.run os w (turnsOf call)) (turns calls) := by
      rw [hturns, Stream.run, List.foldl_append]
      rfl
    rw [hturns, stepsOk_append] at hok
    obtain ⟨s, hs, hagree, hinv⟩ := sendLoop_agrees (s := ⟨p.mergeOp, [], [], []⟩) hd hcan
      (hp call List.mem_cons_self) h hmap hok.1
    have hcall : splitOrMergeIfNeed p aFor call =
        .ok ⟨{ p with mergeOp := s.mergeOp }, s.sent, s.fails, s.nonSent⟩ := by
      simp only [splitOrMergeIfNeed, hfound, hs, bind, Except.bind]
      rfl
    obtain ⟨rs, hrs, hsent, ⟨is, hlost, hnon⟩, hinv'⟩ := ih (p := { p with mergeOp := s.mergeOp })
      hfound (fun c hc => hp c (List.mem_cons_of_mem _ hc)) hinv hagree.map hok.2
    obtain ⟨ds, hds, hwd⟩ := hagree.sent
    obtain ⟨js, hjs, hwj⟩ := hagree.lost
    refine ⟨_, sendAll_cons hcall hrs, ?_, ⟨js ++ is, ?_, ?_⟩, ?_⟩
    · rw [hrun, hsent, hwd, List.append_assoc, List.flatMap_cons, hds, List.nil_append]
    · rw [hrun, hlost, hwj, List.append_assoc]
    · rw [List.flatMap_cons, hjs, hnon, List.nil_append, List.map_append]
    · rw [hrun, List.flatten_cons, ← List.append_assoc]
      exact hinv'

/-- Only packets that were sent are delivered, and only when they came. What came undamaged
    is delivered once, what did not come is reported once the next packet begins. -/
structure Undamaged (os : List Origin) (calls : List (List UserData)) (rs : List Divided) :
    Prop where
  exact_ : ∀ d ∈ rs.flatMap Divided.sent, ∃ o ∈ os, d = o.packet ∧
    (IsSplit o → Came calls.flatten o)
  intact : ∀ o ∈ os, IsSplit o → Intact calls.flatten o →
    (rs.flatMap Divided.sent).count o.packet = 1
  reported : ∀ o ∈ os, Followed calls.flatten o → ¬ Came calls.flatten o →
    ∃ s, lostReport { o.packet.dataId with split := s } ∈ rs.flatMap Divided.nonSent

/-- No packet of the descriptor is being put together. -/
def NoneOpen (aFor : Descriptor) (p : PacketDivisor) : Prop :=
  ∀ u : Uuid, p.mergeOp.find (toLex (u, aFor)) = none

theorem runInv_start (os : List Origin) : RunInv os [] start :=
  ⟨inv_start os, fun o _ _ => tracked_start o⟩

theorem undamaged_of_runInv {os : List Origin} {calls : List (List UserData)} {w : Watch}
    {rs : List Divided} (h : RunInv os calls.flatten w) (hsent : w.sent = rs.flatMap Divided.sent)
    (hlost : rs.flatMap Divided.nonSent = w.lost.map lostReport) : Undamaged os calls rs where
  exact_ d hd := h.inv.exact_ d (hsent ▸ hd)
  intact o ho hs hi := hsent ▸ (h.tracked o ho hs).after hi
  reported o ho hfol hcame := by
    obtain ⟨i, hi, hio⟩ := (h.inv.followed o ho hfol).resolve_right hcame
    refine ⟨i.split, ?_⟩
    rw [hlost, ← hio]
    exact List.mem_map_of_mem hi

def pieceOf (number : ℕ) (s : SplitPacket) (data : List Byte) : UserData :=
  ⟨{ (Roundtrip.packetOf data).dataId with packetNumber := number, split := s }, data⟩

@[simp] theorem pieceOf_data (number : ℕ) (s : SplitPacket) (data : List Byte) :
    (pieceOf number s data).data = data := rfl

theorem cross_bytesHop (n : ℕ) (ps : List UserData) :
    (bytesHop n).cross ps = (sendLoop 0 ⟨false, true, n + 1, none⟩ ps ⟨.empty, [], [], []⟩).map
      Sending.sent := by
  have hloop : sendLoop (bytesHop n).aFor (bytesHop n).limits ps
      ⟨(bytesHop n).divisor.mergeOp, [], [], []⟩ =
      sendLoop 0 ⟨false, true, n + 1, none⟩ ps ⟨.empty, [], [], []⟩ := rfl
  simp only [Hop.cross, splitOrMergeIfNeed, (bytesHop n).found, hloop]
  cases sendLoop 0 ⟨false, true, n + 1, none⟩ ps ⟨.empty, [], [], []⟩ <;> rfl

theorem crossed_two : crossAll [bytesHop 0] [pieceOf 2 .default [1, 2]] =
    .ok [pieceOf 2 ⟨false, 1, 2⟩ [1], pieceOf 2 ⟨true, 2, 2⟩ [2]] := by
  have hs : Divisor.split (pieceOf 2 .default [1, 2]) 1 =
    .ok [pieceOf 2 ⟨false, 1, 2⟩ [1], pieceOf 2 ⟨true, 2, 2⟩ [2]] := by decide
  simp [crossAll, cross_bytesHop, sendLoop, hs, SplitInfo.dataSize, bind, Except.bind, Except.map]

theorem crossed_five : crossAll [bytesHop 2, bytesHop 1] [pieceOf 1 .default [1, 2, 3, 4, 5]] =
    .ok [pieceOf 1 ⟨false, 1, 2⟩ [1, 2], pieceOf 1 ⟨false, 3, 4⟩ [3],
      pieceOf 1 ⟨true, 4, 4⟩ [4, 5]] := by
  have hs : Divisor.split (pieceOf 1 .default [1, 2, 3, 4, 5]) 3 =
    .ok [pieceOf 1 ⟨false, 1, 2⟩ [1, 2], pieceOf 1 ⟨true, 2, 2⟩ [3, 4, 5]] := by decide
  have hs' : Divisor.split (pieceOf 1 ⟨true, 2, 2⟩ [3, 4, 5]) 2 =
    .ok [pieceOf 1 ⟨false, 3, 4⟩ [3], pieceOf 1 ⟨true, 4, 4⟩ [4, 5]] := by decide
  simp [crossAll, cross_bytesHop, sendLoop, hs, hs', SplitInfo.dataSize, bind, Except.bind,
    Except.map]

theorem fits_two : Fits16 [bytesHop 0] (pieceOf 2 .default [1, 2]) := by
  have hplan : plan (meets (pieceOf 2 .default [1, 2]) [bytesHop 0]) [Plan.whole 2] =
      some [⟨⟨false, 1, 2⟩, 1⟩, ⟨⟨true, 2, 2⟩, 1⟩] := by decide
  intro qs hqs
  obtain rfl := Option.some.inj (hplan.symm.trans hqs)
  decide

theorem fits_five : Fits16 [bytesHop 2, bytesHop 1] (pieceOf 1 .default [1, 2, 3, 4, 5]) := by
  have hplan : plan (meets (pieceOf 1 .default [1, 2, 3, 4, 5]) [bytesHop 2, bytesHop 1])
      [Plan.whole 5] = some [⟨⟨false, 1, 2⟩, 2⟩, ⟨⟨false, 3, 4⟩, 1⟩, ⟨⟨true, 4, 4⟩, 2⟩] := by decide
  intro qs hqs
  obtain rfl := Option.some.inj (hplan.symm.trans hqs)
  decide

def twoBytes : Origin where
  packet := pieceOf 2 .default [1, 2]
  hops := [bytesHop 0]
  whole := rfl
  data := by decide
  fits := fits_two
  pieces := [pieceOf 2 ⟨false, 1, 2⟩ [1], pieceOf 2 ⟨true, 2, 2⟩ [2]]
  crossed := crossed_two

/-- Five bytes sent by three, the bigger half by two again. -/
def fiveBytes : Origin where
  packet := pieceOf 1 .default [1, 2, 3, 4, 5]
  hops := [bytesHop 2, bytesHop 1]
  whole := rfl
  data := by decide
  fits := fits_five
  pieces := [pieceOf 1 ⟨false, 1, 2⟩ [1, 2], pieceOf 1 ⟨false, 3, 4⟩ [3],
    pieceOf 1 ⟨true, 4, 4⟩ [4, 5]]
  crossed := crossed_five

/-- What a run does whose turns all meet the condition: no check fails, nothing damaged is
    delivered. -/
theorem sendAll_undamaged {os : List Origin} {aFor : Descriptor} {i : SplitInfo}
    {p : PacketDivisor} {calls : List (List UserData)} (hd : Distinct os)
    (hfound : p.limitsInfo.find aFor = some i) (hcan : i.canNotSplit = true)
    (hopen : NoneOpen aFor p) (hp : ∀ call ∈ calls, PiecesOf os call)
    (hok : StepsOk os i start (turns calls)) :
    ∃ rs, sendAll aFor p calls = .ok rs ∧ Undamaged os calls rs := by
  obtain ⟨rs, hrs, hsent, ⟨is, hlost, hnon⟩, hinv⟩ :=
    sendAll_agrees hd hcan hfound hp (runInv_start os) (fun u => hopen u) hok
  refine ⟨rs, hrs, undamaged_of_runInv (by simpa using hinv) (by simpa [start] using hsent) ?_⟩
  rw [hnon, hlost]
  simp [start]

/-- The first packet loses its end, the second comes undamaged. -/
def endLost : List (List UserData) :=
  [[pieceOf 1 ⟨false, 1, 2⟩ [1, 2]],
    [pieceOf 2 ⟨false, 1, 2⟩ [1], pieceOf 2 ⟨true, 2, 2⟩ [2]]]

theorem sendAll_undamaged_endLost : ∃ rs, sendAll 0 wholeOnlyDivisor endLost = .ok rs ∧
    Undamaged [fiveBytes, twoBytes] endLost rs := by
  refine sendAll_undamaged (i := wholeOnly) ?_ rfl rfl (fun u => rfl) ?_ ?_
  · simp only [Distinct, List.pairwise_cons]
    decide
  · intro call hc m hm
    simp only [endLost, List.mem_cons, List.not_mem_nil, or_false] at hc
    rcases hc with rfl | rfl
    · exact ⟨fiveBytes, by simp, by simp [List.mem_singleton.1 hm, fiveBytes]⟩
    · exact ⟨twoBytes, by simp, hm⟩
  · have ht : turns endLost = endLost := by
      simp [turns, turnsOf, endLost, samePacket, pieceOf, Roundtrip.packetOf]
    rw [ht]
    refine ⟨fun o ho _ => ?_, fun o ho _ => ?_, trivial⟩
    · obtain rfl : fiveBytes = o := Option.some.inj ho
      refine ⟨⟨fun _ => rfl, trivial⟩, ⟨fun _ => .inl ?_, fun h => ?_⟩, fun _ => trivial⟩
      · exact List.not_mem_nil
      · exact absurd ⟨_, rfl⟩ h
    · obtain rfl : twoBytes = o := Option.some.inj ho
      have hheld : held (turn [fiveBytes, twoBytes] start [pieceOf 1 ⟨false, 1, 2⟩ [1, 2]])
          (pieceOf 2 ⟨false, 1, 2⟩ [1]) = [] := by
        decide
      rw [hheld]
      refine ⟨⟨fun h => absurd h (by decide), fun _ => rfl, trivial⟩,
        ⟨fun _ => .inl ?_, fun h => ?_⟩,
        fun _ => ⟨⟨fun _ => .inr rfl, fun h => ?_⟩, fun _ => trivial⟩⟩
      · exact List.not_mem_nil
      · exact absurd ⟨_, rfl⟩ h
      · exact absurd ⟨_, rfl⟩ h

theorem call_piece {p : PacketDivisor} {aFor : Descriptor} {i : SplitInfo} {d : UserData}
    {t : Sending} (hfound : p.limitsInfo.find aFor = some i) (hcan : i.canNotSplit = true)
    (hs : isSplited d.dataId.split = true)
    (hm : Divisor.merge aFor d [] ⟨p.mergeOp, [], [], []⟩ = .ok t) :
    splitOrMergeIfNeed p aFor [d] =
      .ok ⟨{ p with mergeOp := t.mergeOp }, t.sent, t.fails, t.nonSent⟩ := by
  simp only [splitOrMergeIfNeed, hfound, sendLoop, hcan, hs, if_true, hm, List.dropWhile_nil, bind,
    Except.bind]
  rfl

/-- When the first half of the inner split is lost, the outer half and the end are delivered
    together. -/
theorem undamaged_false_of_lost_inner_piece : ¬ ∀ calls : List (List UserData),
    (∀ call ∈ calls, PiecesOf [fiveBytes] call) →
      ∃ rs, sendAll 0 wholeOnlyDivisor calls = .ok rs ∧ Undamaged [fiveBytes] calls rs := by
  intro h
  obtain ⟨rs, hrs, hund⟩ := h
    [[pieceOf 1 ⟨false, 1, 2⟩ [1, 2]], [pieceOf 1 ⟨true, 4, 4⟩ [4, 5]]] (by
      intro call hc m hm
      refine ⟨fiveBytes, by simp, ?_⟩
      simp only [List.mem_cons, List.not_mem_nil, or_false] at hc
      rcases hc with rfl | rfl <;> simp [List.mem_singleton.1 hm, fiveBytes])
  -- what the first call leaves is an entry that has met the level two only
  let opened : SortedMap MergeKey MergeOperation :=
    SortedMap.empty.insert (mergeKey 0 (pieceOf 1 ⟨false, 1, 2⟩ [1, 2]))
      (opAfter (pieceOf 1 ⟨false, 1, 2⟩ [1, 2]).dataId [pieceOf 1 ⟨false, 1, 2⟩ [1, 2]])
  have hfirst : Divisor.merge 0 (pieceOf 1 ⟨false, 1, 2⟩ [1, 2]) [] ⟨.empty, [], [], []⟩ =
      .ok ⟨opened, [], [], []⟩ := rfl
  have hlast : (Divisor.merge 0 (pieceOf 1 ⟨true, 4, 4⟩ [4, 5]) [] ⟨opened, [], [], []⟩).map
      Sending.sent = .ok [pieceOf 1 .default [1, 2, 4, 5]] := rfl
  cases hm : Divisor.merge 0 (pieceOf 1 ⟨true, 4, 4⟩ [4, 5]) [] ⟨opened, [], [], []⟩ with
  | error e => rw [hm] at hlast; cases hlast
  | ok t =>
    rw [hm] at hlast
    have ht : t.sent = [pieceOf 1 .default [1, 2, 4, 5]] := Except.ok.inj hlast
    have hcall₁ := call_piece (p := wholeOnlyDivisor) (i := wholeOnly) rfl rfl rfl hfirst
    have hcall₂ := call_piece (p := { wholeOnlyDivisor with mergeOp := opened }) (i := wholeOnly)
      rfl rfl rfl hm
    have hall := sendAll_cons hcall₁ (@sendAll_cons 0 _ _ [] _ [] hcall₂ rfl)
    obtain rfl := Except.ok.inj (hrs.symm.trans hall)
    obtain ⟨o, ho, hdo, -⟩ := hund.exact_ (pieceOf 1 .default [1, 2, 4, 5]) (by simp [ht])
    rw [List.mem_singleton.1 ho] at hdo
    exact absurd (congrArg UserData.data hdo) (by decide)

end UdtKernel.DamagedRun
