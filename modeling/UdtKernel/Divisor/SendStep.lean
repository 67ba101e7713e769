import UdtKernel.Divisor.Pieces
import UdtKernel.Divisor.Taking
import UdtKernel.Lib.Outcome

set_option autoImplicit false

/-! `MSplitOrMergeIfNeed`: where every packet goes, and when all that is sent keeps to the limit. -/

namespace UdtKernel.SendStep
open UdtKernel.Lib UdtKernel.Divisor UdtKernel.Cross UdtKernel.Merge UdtKernel.Roundtrip
open UdtKernel.Damage UdtKernel.Stream UdtKernel.Taking UdtKernel.Pieces

/-- The entries are those of packets whose pieces `held` arrived without an error. -/
def Holds (m : SortedMap MergeKey MergeOperation) (held : MergeKey → List UserData) : Prop :=
  ∀ key, m.find key = entryOf (held key)

/-- What is held under a key belongs to one packet of the sender of the key. -/
def OnePacket (held : MergeKey → List UserData) : Prop :=
  ∀ key, ∀ x ∈ held key, sender x = (ofLex key).1 ∧ ∀ y ∈ held key, samePacket x y

/-- The pieces that `d` goes behind. -/
def behind (l : List UserData) (d : UserData) : List UserData :=
  if ∀ x ∈ l.head?, x.dataId.packetNumber = d.dataId.packetNumber then l else []

/-- The pieces that are given up for `d`. -/
def stale (l : List UserData) (d : UserData) : List UserData :=
  if ∀ x ∈ l.head?, x.dataId.packetNumber = d.dataId.packetNumber then [] else l

/-- No `CHECK` fails while `d :: ds` is merged behind `pre`. -/
def Clear (pre : List UserData) (d : UserData) (ds : List UserData) : Prop :=
  pre = [] ∧ d.dataId.split.counter ≠ 1 ∨ (pre = [] → isEnd d = false) ∧ Takes pre (d :: ds)

/-- What is sent, handed back, reported and held of a packet when `g` comes behind `pre`. -/
inductive Fate (pre g : List UserData) (info : UserDataInfo) :
    List UserData → List UserData → List FailSend → List UserData → Prop where
  | joined (h : Completes pre g) : Fate pre g info [delivered info (pre ++ g)] [] [] []
  | held (h : Grows pre g) : Fate pre g info [] [] [] (pre ++ g)
  | failed (hc : ¬Completes pre g) (hg : ¬Grows pre g) (e : ErrorType) (he : e ≠ eNoError) :
    Fate pre g info [] (pre ++ g) [(FailSend.ofInfo info).setError e] []

/-- The step from `s` to `s'` puts out `sent`, `fails` and `reports`. -/
structure Puts (s s' : Sending) (sent fails : List UserData) (reports : List FailSend) : Prop where
  sent : s'.sent = s.sent ++ sent
  fails : s'.fails = s.fails ++ fails
  nonSent : s'.nonSent = s.nonSent ++ reports

theorem Puts.trans {s t u : Sending} {sent sent' fails fails' : List UserData}
    {reports reports' : List FailSend} (h : Puts s t sent fails reports)
    (h' : Puts t u sent' fails' reports') :
    Puts s u (sent ++ sent') (fails ++ fails') (reports ++ reports') where
  sent := by rw [h'.sent, h.sent, List.append_assoc]
  fails := by rw [h'.fails, h.fails, List.append_assoc]
  nonSent := by rw [h'.nonSent, h.nonSent, List.append_assoc]

section
variable {m m' : SortedMap MergeKey MergeOperation} {held : MergeKey → List UserData}
  {key : MergeKey} {l : List UserData}

theorem Holds.erase (h : Holds m held) (key : MergeKey) :
    Holds (m.erase key) (Function.update held key []) := by
  intro k
  rw [SortedMap.find_erase]
  by_cases hk : k = key
  · rw [if_pos hk, hk, Function.update_self]
    rfl
  · rw [if_neg hk, Function.update_of_ne hk]
    exact h k

theorem Holds.insert (h : Holds m held) {op : MergeOperation} (hop : entryOf l = some op) :
    Holds (m.insert key op) (Function.update held key l) := by
  intro k
  rw [SortedMap.find_insert]
  by_cases hk : k = key
  · rw [if_pos hk, hk, Function.update_self, hop]
  · rw [if_neg hk, Function.update_of_ne hk]
    exact h k

end

/-- A turn that leaves an error in the entry hands its pieces back. -/
theorem mergeTurn_report {key : MergeKey} {d : UserData} {ds : List UserData} {s : Sending}
    {op : MergeOperation} {m : MergeOperation.Merged} (hop : findOrNew s.mergeOp key d = .ok op)
    (hm : op.merge d ds = .ok m) (he : m.op.error ≠ eNoError) :
    ∃ s', mergeTurn key d ds s = .ok (m.rest, s') ∧ s'.mergeOp = s.mergeOp.erase key ∧
      Puts s s' m.delivered (m.op.mergedPackets ++ m.op.newPackets)
        [(FailSend.ofInfo m.op.info).setError m.op.error] := by
  refine ⟨⟨s.mergeOp.erase key, s.sent ++ m.delivered,
    s.fails ++ m.op.mergedPackets ++ m.op.newPackets,
    s.nonSent ++ [(FailSend.ofInfo m.op.info).setError m.op.error]⟩, ?_, rfl, rfl, ?_, rfl⟩
  · simp [mergeTurn, hop, hm, he, bind, Except.bind, pure, Except.pure,
      MergeOperation.hasToBeRemoved]
  · exact List.append_assoc _ _ _

/-- A turn at the entry of the packet. -/
theorem mergeTurn_fate {held : MergeKey → List UserData} {key : MergeKey} {pre : List UserData}
    {d : UserData} {ds : List UserData} {s : Sending} {info : UserDataInfo}
    (hm : Holds s.mergeOp held) (hinfo : info = (pre.headD d).dataId)
    (hop : findOrNew s.mergeOp key d = .ok (opAfter info pre))
    (hn : info.packetNumber = d.dataId.packetNumber) (hp : ∀ q ∈ d :: ds, isSplited q.dataId.split)
    (h : Takes pre (d :: ds)) :
    ∃ s' sent fails reports l, mergeTurn key d ds s = .ok ([], s') ∧
      Fate pre (d :: ds) info sent fails reports l ∧ Puts s s' sent fails reports ∧
      Holds s'.mergeOp (Function.update held key l) := by
  obtain ⟨m, hmerge, hrest, hcases⟩ := merge_takes info hn hp h
  rcases hcases with ⟨hc, hsent, hend⟩ | ⟨hgrows, hsent, hend⟩ |
    ⟨hc, hgrows, hsent, herr, hinfo', hmerged, hnew⟩
  · have hturn := mergeTurn_ok hop hmerge (by rw [hend]; rfl)
    rw [hrest, hsent, hend] at hturn
    exact ⟨_, _, [], [], [], hturn, .joined hc,
      ⟨rfl, (List.append_nil _).symm, (List.append_nil _).symm⟩, hm.erase key⟩
  · have hturn := mergeTurn_ok hop hmerge (by rw [hend]; rfl)
    rw [hrest, hsent, hend] at hturn
    refine ⟨_, [], [], [], pre ++ d :: ds, hturn, .held hgrows,
      ⟨rfl, (List.append_nil _).symm, (List.append_nil _).symm⟩, hm.insert ?_⟩
    rw [hinfo]
    cases pre <;> rfl
  · obtain ⟨s', hturn, hmap, hputs⟩ := mergeTurn_report hop hmerge herr
    rw [hsent, hmerged, hnew, List.append_nil, hinfo'] at hputs
    rw [hrest] at hturn
    exact ⟨s', [], _, _, [], hturn, .failed hc hgrows _ herr, hputs, hmap ▸ hm.erase key⟩

theorem mergeLoop_of_turn_nil {key : MergeKey} {d : UserData} {ds : List UserData}
    {s s' : Sending} (h : mergeTurn key d ds s = .ok ([], s')) (n : ℕ) :
    mergeLoop key (n + 1) (d :: ds) s = .ok s' := by
  rw [mergeLoop, h]
  cases n <;> rfl

theorem takes_of_mergeTurn {key : MergeKey} {pre : List UserData} {d : UserData}
    {ds : List UserData} {s : Sending} {info : UserDataInfo}
    (hop : findOrNew s.mergeOp key d = .ok (opAfter info pre))
    (hn : info.packetNumber = d.dataId.packetNumber) (hp : ∀ q ∈ d :: ds, isSplited q.dataId.split)
    {r : List UserData × Sending} (h : mergeTurn key d ds s = .ok r) : Takes pre (d :: ds) := by
  rw [mergeTurn, hop] at h
  obtain ⟨op, hop', h⟩ := eq_ok_of_bind h
  obtain rfl := Except.ok.inj hop'
  obtain ⟨m, hm, -⟩ := eq_ok_of_bind h
  exact takes_of_merge hn hp hm

/-- What comes of the pieces `d :: ds` where `l` is held of their sender. -/
structure Merges (key : MergeKey) (held : MergeKey → List UserData) (l : List UserData)
    (d : UserData) (ds : List UserData) (s s' : Sending) : Prop where
  fate : ∃ sent fails reports l', Fate (behind l d) (d :: ds) ((behind l d).headD d).dataId
      sent fails reports l' ∧
    Puts s s' sent (stale l d ++ fails)
      (((stale l d).head?.map fun x => lostReport x.dataId).toList ++ reports) ∧
    Holds s'.mergeOp (Function.update held key l')

section
variable {held : MergeKey → List UserData} {key : MergeKey} {d : UserData} {ds : List UserData}
  {s : Sending}

/-- Pieces of a sender of whom nothing is held. -/
theorem mergeLoop_nothing_held (hm : Holds s.mergeOp held) (hnil : held key = [])
    (hp : ∀ q ∈ d :: ds, isSplited q.dataId.split) :
    (∀ r, mergeTurn key d ds s = .ok r → Clear [] d ds) ∧
      (Clear [] d ds →
        ∃ s', mergeTurn key d ds s = .ok ([], s') ∧ Merges key held [] d ds s s') := by
  have hlost : ePacketLost ≠ eNoError := by decide
  have hfind : s.mergeOp.find key = none := by rw [hm key, hnil]; rfl
  by_cases hone : d.dataId.split.counter = 1
  · by_cases hend : isEnd d = true
    · have hnew : findOrNew s.mergeOp key d = .error .firstPieceIsLast := by
        have hlast : d.dataId.split.isLast = true := hend
        simp [findOrNew, hfind, MergeOperation.new, hone, hlast]
      constructor
      · intro r hr
        rw [mergeTurn, hnew] at hr
        cases hr
      · rintro (⟨-, hne⟩ | ⟨hfirst, -⟩)
        · exact absurd hone hne
        · exact absurd (hend.symm.trans (hfirst rfl)) (by decide)
    · have hend' := Bool.eq_false_iff.2 hend
      have hop := opAfter_nil_of_first hfind hone hend'
      constructor
      · exact fun r hr => .inr ⟨fun _ => hend', takes_of_mergeTurn hop rfl hp hr⟩
      · rintro (⟨-, hne⟩ | ⟨-, htakes⟩)
        · exact absurd hone hne
        · obtain ⟨s', sent, fails, reports, l, hturn, hfate, hputs, hholds⟩ :=
            mergeTurn_fate hm rfl hop rfl hp htakes
          exact ⟨s', hturn, ⟨sent, fails, reports, l, hfate, hputs, hholds⟩⟩
  · -- the pieces start in the middle of a packet
    refine ⟨fun _ _ => .inl ⟨rfl, hone⟩, fun _ => ?_⟩
    have hop : findOrNew s.mergeOp key d =
        .ok ⟨[], [], [], d.dataId, .empty, ePacketLost, false⟩ := by
      simp [findOrNew, hfind, MergeOperation.new, hone]
    have hmerge : (⟨[], [], [], d.dataId, .empty, ePacketLost, false⟩ : MergeOperation).merge d ds =
        .ok ⟨[], [], ⟨[], [], d :: ds, d.dataId, .empty, ePacketLost, false⟩⟩ := by
      simp [MergeOperation.merge, hlost]
    have hnot : ¬Sequenced [] (d :: ds) := fun h => hone (h.1.2.1 rfl)
    obtain ⟨s', hturn, hmap, hputs⟩ := mergeTurn_report hop hmerge hlost
    exact ⟨s', hturn, ⟨[], _, _, [], .failed (fun h => hnot h.1) (fun h => hnot h.1) _ hlost, hputs,
      hmap ▸ hm.erase key⟩⟩

/-- Pieces of a sender end well where they are clear, and then as the fate says; no number of
    turns above two makes a difference. -/
theorem mergeLoop_merges (hm : Holds s.mergeOp held)
    (hp : ∀ q ∈ d :: ds, isSplited q.dataId.split) (n : ℕ) :
    (∀ s', mergeLoop key (n + 2) (d :: ds) s = .ok s' → Clear (behind (held key) d) d ds) ∧
      (Clear (behind (held key) d) d ds →
        ∃ s', mergeLoop key (n + 2) (d :: ds) s = .ok s' ∧
          Merges key held (held key) d ds s s') := by
  cases hl : held key with
  | nil =>
    have hnothing := mergeLoop_nothing_held hm hl hp
    have hbehind : behind [] d = [] := by simp [behind]
    rw [hbehind]
    constructor
    · intro s' hs'
      rw [mergeLoop] at hs'
      obtain ⟨r, hr, -⟩ := eq_ok_of_bind hs'
      exact hnothing.1 r hr
    · intro hclear
      obtain ⟨s', hturn, hmerges⟩ := hnothing.2 hclear
      exact ⟨s', mergeLoop_of_turn_nil hturn (n + 1), hmerges⟩
  | cons x xs =>
    have hfind : s.mergeOp.find key = some (opAfter x.dataId (x :: xs)) := by rw [hm key, hl]; rfl
    by_cases hn : x.dataId.packetNumber = d.dataId.packetNumber
    · have hop : findOrNew s.mergeOp key d = .ok (opAfter x.dataId (x :: xs)) := by
        rw [findOrNew, hfind]
      have hbehind : behind (x :: xs) d = x :: xs := if_pos fun y hy => by
        obtain rfl := Option.some.inj hy
        exact hn
      have hstale : stale (x :: xs) d = [] := if_pos fun y hy => by
        obtain rfl := Option.some.inj hy
        exact hn
      rw [hbehind]
      constructor
      · intro s' hs'
        rw [mergeLoop] at hs'
        obtain ⟨r, hr, -⟩ := eq_ok_of_bind hs'
        exact .inr ⟨fun h => absurd h (List.cons_ne_nil x xs), takes_of_mergeTurn hop hn hp hr⟩
      · rintro (⟨hnil, -⟩ | ⟨-, htakes⟩)
        · cases hnil
        · obtain ⟨s', sent, fails, reports, l, hturn, hfate, hputs, hholds⟩ :=
            mergeTurn_fate hm rfl hop hn hp htakes
          refine ⟨s', mergeLoop_of_turn_nil hturn (n + 1),
            ⟨sent, fails, reports, l, ?_, ?_, hholds⟩⟩
          · rw [hbehind]
            exact hfate
          · rw [hstale]
            exact hputs
    · -- the entry of the other packet goes first
      have hbehind : behind (x :: xs) d = [] := if_neg fun h => hn (h x rfl)
      have hstale : stale (x :: xs) d = x :: xs := if_neg fun h => hn (h x rfl)
      have hop : findOrNew s.mergeOp key d = .ok (opAfter x.dataId (x :: xs)) := by
        rw [findOrNew, hfind]
      have hlost : ePacketLost ≠ eNoError := by decide
      have hmerge : (opAfter x.dataId (x :: xs)).merge d ds =
          .ok ⟨d :: ds, [], { opAfter x.dataId (x :: xs) with error := ePacketLost }⟩ := by
        have hn' : ¬(opAfter x.dataId (x :: xs)).info.packetNumber = d.dataId.packetNumber := hn
        simp [MergeOperation.merge, hn', hlost]
      obtain ⟨t, hturn, hmap, hputs⟩ := mergeTurn_report hop hmerge hlost
      have hloop : mergeLoop key (n + 2) (d :: ds) s = mergeLoop key (n + 1) (d :: ds) t := by
        rw [mergeLoop, hturn]
        rfl
      have hnothing := mergeLoop_nothing_held (s := t) (hmap ▸ hm.erase key)
        (Function.update_self key [] held) hp
      have hfirst : Puts s t [] (x :: xs ++ []) [lostReport x.dataId] := hputs
      have hnone : stale [] d = [] := by simp [stale]
      rw [List.append_nil] at hfirst
      rw [hbehind, hloop]
      constructor
      · intro s' hs'
        rw [mergeLoop] at hs'
        obtain ⟨r, hr, -⟩ := eq_ok_of_bind hs'
        exact hnothing.1 r hr
      · intro hclear
        obtain ⟨s', hturn', ⟨sent, fails, reports, l, hfate, hputs', hholds⟩⟩ := hnothing.2 hclear
        refine ⟨s', mergeLoop_of_turn_nil hturn' n, ⟨sent, fails, reports, l, ?_, ?_, ?_⟩⟩
        · rw [hbehind]
          exact hfate
        · rw [hnone] at hputs'
          rw [hstale]
          exact hfirst.trans hputs'
        · rw [Function.update_idem] at hholds
          exact hholds

end

abbrev Fits (i : SplitInfo) (d : UserData) : Prop := i.maxSize = 0 ∨ i.dataSize d ≤ i.maxSize

/-- The packets `src` are put out as `out`: as they are, in all their pieces, or as pieces joined
    to the packet that they are of. -/
inductive Sends (aPartSize : ℕ) : List UserData → List UserData → Prop where
  | nil : Sends aPartSize [] []
  | whole {d : UserData} {src out : List UserData} (h : Sends aPartSize src out) :
    Sends aPartSize (d :: src) (d :: out)
  | pieces {d : UserData} {ps src out : List UserData} (hps : split d aPartSize = .ok ps)
    (h : Sends aPartSize src out) : Sends aPartSize (d :: src) (ps ++ out)
  | joined {ps : List UserData} {d : UserData} {src out : List UserData} (hne : ps ≠ [])
    (hps : ∀ p ∈ ps, samePacket d p) (hdata : d.data = bytes ps)
    (hwhole : d.dataId.split = .default) (h : Sends aPartSize src out) :
    Sends aPartSize (ps ++ src) (d :: out)

/-- The packets `fails` are handed back, those of one packet with one report of it. -/
inductive Returned : List UserData → List FailSend → Prop where
  | nil : Returned [] []
  | cons {ps : List UserData} {f : FailSend} {fails : List UserData} {reports : List FailSend}
    (hne : ps ≠ []) (hps : ∀ p ∈ ps, p.dataId.packetNumber = f.info.packetNumber ∧
      sender p = f.info.routing.from_.uuid) (herr : f.error ≠ eNoError)
    (h : Returned fails reports) : Returned (ps ++ fails) (f :: reports)

theorem Sends.append {n : ℕ} {src src' out out' : List UserData} (h : Sends n src out)
    (h' : Sends n src' out') : Sends n (src ++ src') (out ++ out') := by
  induction h with
  | nil => exact h'
  | whole _ ih => exact .whole ih
  | pieces hps _ ih =>
    rw [List.append_assoc]
    exact .pieces hps ih
  | joined hne hps hdata hwhole _ ih =>
    rw [List.append_assoc]
    exact .joined hne hps hdata hwhole ih

theorem Returned.append {fails fails' : List UserData} {reports reports' : List FailSend}
    (h : Returned fails reports) (h' : Returned fails' reports') :
    Returned (fails ++ fails') (reports ++ reports') := by
  induction h with
  | nil => exact h'
  | cons hne hps herr _ ih =>
    rw [List.append_assoc]
    exact .cons hne hps herr ih

theorem returned_single {ps : List UserData} {info : UserDataInfo} {e : ErrorType} (hne : ps ≠ [])
    (hps : ∀ p ∈ ps, p.dataId.packetNumber = info.packetNumber ∧
      sender p = info.routing.from_.uuid) (he : e ≠ eNoError) :
    Returned ps [(FailSend.ofInfo info).setError e] := by
  have herr : ((FailSend.ofInfo info).setError e).error ≠ eNoError := by
    simpa [FailSend.ofInfo, FailSend.setError, eNoError] using he
  rw [← List.append_nil ps]
  exact .cons hne hps herr .nil

def pending (m : SortedMap MergeKey MergeOperation) : List UserData :=
  m.entries.flatMap fun e => e.2.mergedPackets

theorem pending_perm {m : SortedMap MergeKey MergeOperation} {held : MergeKey → List UserData}
    (h : Holds m held) (key : MergeKey) :
    (pending m).Perm (held key ++ pending (m.erase key)) := by
  have hfind := h key
  cases hl : held key with
  | nil =>
    rw [hl] at hfind
    rw [SortedMap.erase_of_find_none hfind]
    exact List.Perm.refl _
  | cons x xs =>
    rw [hl] at hfind
    exact (SortedMap.entries_perm hfind).flatMap_right _

/-- An entry that changes leaves the others as they are. -/
theorem erase_eq_erase {m m' : SortedMap MergeKey MergeOperation} {held : MergeKey → List UserData}
    {key : MergeKey} {l : List UserData} (h : Holds m held)
    (h' : Holds m' (Function.update held key l)) : m'.erase key = m.erase key :=
  SortedMap.ext_find fun k => by
    rw [SortedMap.find_erase, SortedMap.find_erase]
    split_ifs with hk
    · rfl
    · rw [h k, h' k, Function.update_of_ne hk]

/-- Every packet of `what`, and every packet held, goes somewhere. -/
structure Accounts (i : SplitInfo) (what : List UserData) (s s' : Sending) : Prop where
  goes : ∃ src out fails reports, Puts s s' out fails reports ∧ Sends i.maxSize src out ∧
    Returned fails reports ∧
    (pending s.mergeOp ++ what).Perm (src ++ fails ++ pending s'.mergeOp)

theorem Accounts.trans {i : SplitInfo} {what what' : List UserData} {s t u : Sending}
    (h : Accounts i what s t) (h' : Accounts i what' t u) : Accounts i (what ++ what') s u := by
  obtain ⟨src, out, fails, reports, hputs, hsends, hreturned, hperm⟩ := h
  obtain ⟨src', out', fails', reports', hputs', hsends', hreturned', hperm'⟩ := h'
  refine ⟨src ++ src', out ++ out', fails ++ fails', reports ++ reports', hputs.trans hputs',
    hsends.append hsends', hreturned.append hreturned', ?_⟩
  rw [List.perm_iff_count] at hperm hperm' ⊢
  intro a
  have hcount := hperm a
  have hcount' := hperm' a
  simp only [List.count_append] at hcount hcount' ⊢
  omega

/-- The packets that a turn of the loop takes, and those that it leaves. -/
def taken (i : SplitInfo) (d : UserData) (ds : List UserData) : List UserData :=
  if i.canNotSplit ∧ isSplited d.dataId.split then d :: ds.takeWhile (samePacket d) else [d]

def rest (i : SplitInfo) (d : UserData) (ds : List UserData) : List UserData :=
  if i.canNotSplit ∧ isSplited d.dataId.split then ds.dropWhile (samePacket d) else ds

def turn (aFor : Descriptor) (i : SplitInfo) (d : UserData) (ds : List UserData) (s : Sending) :
    Except Abort Sending :=
  if i.canNotSplit then
    if isSplited d.dataId.split then merge aFor d ds s
    else if Fits i d then .ok { s with sent := s.sent ++ [d] }
    else .ok
      { s with nonSent := s.nonSent ++ [(FailSend.ofInfo d.dataId).setError eDataTooLarge]
               fails := s.fails ++ [d] }
  else if i.limited = false ∨ Fits i d then .ok { s with sent := s.sent ++ [d] }
  else do
    let ps ← split d i.maxSize
    .ok { s with sent := s.sent ++ ps }

theorem taken_append_rest (i : SplitInfo) (d : UserData) (ds : List UserData) :
    taken i d ds ++ rest i d ds = d :: ds := by
  unfold taken rest
  split_ifs
  · rw [List.cons_append, List.takeWhile_append_dropWhile]
  · rfl

theorem rest_length_le (i : SplitInfo) (d : UserData) (ds : List UserData) :
    (rest i d ds).length ≤ ds.length := by
  unfold rest
  split_ifs
  · exact (List.dropWhile_sublist _).length_le
  · exact Nat.le_refl _

theorem sendLoop_cons (aFor : Descriptor) (i : SplitInfo) (d : UserData) (ds : List UserData)
    (s : Sending) :
    sendLoop aFor i (d :: ds) s = turn aFor i d ds s >>= sendLoop aFor i (rest i d ds) := by
  rw [sendLoop]
  by_cases h : i.canNotSplit = true ∧ isSplited d.dataId.split = true
  · rw [rest, turn, if_pos h, if_pos h.1, if_pos h.1, if_pos h.2, if_pos h.2]
  · rw [rest, turn, if_neg h]
    split_ifs with hcan hs
    · exact absurd ⟨hcan, hs⟩ h
    · rfl
    · rfl
    · rfl
    · cases split d i.maxSize <;> rfl

def heldAfter (aFor : Descriptor) (i : SplitInfo) (held : MergeKey → List UserData) (d : UserData)
    (ds : List UserData) : MergeKey → List UserData :=
  if i.canNotSplit ∧ isSplited d.dataId.split then
    let pre := behind (held (mergeKey aFor d)) d
    let g := d :: ds.takeWhile (samePacket d)
    Function.update held (mergeKey aFor d) (if Grows pre g then pre ++ g else [])
  else held

/-- The condition on a turn: pieces that are to be merged come as they are sent, and what they
    complete keeps to the limit; and a packet that is to be split has two bytes, a byte for each
    part, and parts that keep to the limit. -/
def TurnClear (aFor : Descriptor) (i : SplitInfo) (held : MergeKey → List UserData) (d : UserData)
    (ds : List UserData) : Prop :=
  if i.canNotSplit then
    isSplited d.dataId.split →
      let pre := behind (held (mergeKey aFor d)) d
      let g := d :: ds.takeWhile (samePacket d)
      (∀ e ∈ g, isSplited e.dataId.split) ∧ Clear pre d (ds.takeWhile (samePacket d)) ∧
        (Completes pre g → Fits i (delivered (pre.headD d).dataId (pre ++ g)))
  else i.limited = false ∨ Fits i d ∨
    (2 ≤ d.data.length ∧ numParts d.data.length i.maxSize ≤ d.data.length) ∧
    ∀ k < numParts d.data.length i.maxSize, Fits i (part d (numParts d.data.length i.maxSize)
      (d.data.length / numParts d.data.length i.maxSize) k)

/-- `TurnClear` for every turn of the loop. -/
def Clears (aFor : Descriptor) (i : SplitInfo) :
    (MergeKey → List UserData) → List UserData → Prop
  | _, [] => True
  | held, d :: ds => TurnClear aFor i held d ds ∧
      Clears aFor i (heldAfter aFor i held d ds) (rest i d ds)
termination_by _ what => what.length
decreasing_by exact Nat.lt_succ_of_le (rest_length_le i d ds)

def Accepted (i : SplitInfo) (d : UserData) : Prop :=
  i.canNotSplit = true ∨ i.limited = true → Fits i d

theorem not_grows_of_completes {pre g : List UserData} (h : Completes pre g) : ¬Grows pre g :=
  fun hg => nomatch hg.2.symm.trans h.2.1

section
variable {pre g : List UserData} {info : UserDataInfo} {sent fails : List UserData}
  {reports : List FailSend} {l : List UserData}

theorem Fate.held_eq (h : Fate pre g info sent fails reports l) :
    l = if Grows pre g then pre ++ g else [] := by
  cases h with
  | joined h => rw [if_neg (not_grows_of_completes h)]
  | held h => rw [if_pos h]
  | failed _ hg => rw [if_neg hg]

theorem Fate.sent_fits (h : Fate pre g info sent fails reports l) (i : SplitInfo) :
    (∀ x ∈ sent, Fits i x) ↔ (Completes pre g → Fits i (delivered info (pre ++ g))) := by
  cases h with
  | joined h => simp [h]
  | held h =>
    have hc : ¬Completes pre g := fun hc => not_grows_of_completes hc h
    simp [hc]
  | failed hc _ => simp [hc]

/-- The pieces of a packet are joined, held or handed back, all of them. -/
theorem Fate.goes (h : Fate pre g info sent fails reports l) (hne : g ≠ [])
    (hpacket : ∀ x ∈ pre ++ g, x.dataId.packetNumber = info.packetNumber ∧
      sender x = info.routing.from_.uuid) (n : ℕ) :
    ∃ src, Sends n src sent ∧ Returned fails reports ∧ src ++ fails ++ l = pre ++ g := by
  have hnil : pre ++ g ≠ [] := List.append_ne_nil_of_right_ne_nil pre hne
  cases h with
  | joined h =>
    have hsame : ∀ x ∈ pre ++ g, samePacket (delivered info (pre ++ g)) x := by
      intro x hx
      have hx' := hpacket x hx
      simp only [samePacket, Bool.and_eq_true, beq_iff_eq]
      exact ⟨hx'.1.symm, hx'.2.symm⟩
    have hsends : Sends n (pre ++ g ++ []) [delivered info (pre ++ g)] :=
      .joined hnil hsame rfl rfl .nil
    rw [List.append_nil] at hsends
    exact ⟨pre ++ g, hsends, .nil, by simp⟩
  | held h => exact ⟨[], .nil, .nil, rfl⟩
  | failed _ _ e he => exact ⟨[], .nil, returned_single hnil hpacket he, by simp⟩

end

section
variable {aFor : Descriptor} {i : SplitInfo} {held : MergeKey → List UserData} {d : UserData}
  {ds : List UserData} {s s' : Sending}

theorem merge_merges (hm : Holds s.mergeOp held) (hs : isSplited d.dataId.split) :
    (merge aFor d ds s = .ok s' →
      (∀ e ∈ d :: ds.takeWhile (samePacket d), isSplited e.dataId.split) ∧
      Clear (behind (held (mergeKey aFor d)) d) d (ds.takeWhile (samePacket d)) ∧
      Merges (mergeKey aFor d) held (held (mergeKey aFor d)) d (ds.takeWhile (samePacket d)) s s') ∧
    ((∀ e ∈ d :: ds.takeWhile (samePacket d), isSplited e.dataId.split) →
      Clear (behind (held (mergeKey aFor d)) d) d (ds.takeWhile (samePacket d)) →
      ∃ s', merge aFor d ds s = .ok s') := by
  unfold merge
  dsimp only
  split_ifs with hall
  · have hp : ∀ e ∈ d :: ds.takeWhile (samePacket d), isSplited e.dataId.split :=
      List.forall_mem_cons.2 ⟨hs, List.all_eq_true.1 hall⟩
    obtain ⟨hclear, hmerges⟩ := @mergeLoop_merges held (mergeKey aFor d) d _ s hm hp 0
    constructor
    · intro h
      obtain ⟨t, ht, hfate⟩ := hmerges (hclear s' h)
      obtain rfl := Except.ok.inj (ht.symm.trans h)
      exact ⟨hp, hclear _ h, hfate⟩
    · intro _ hc
      obtain ⟨t, ht, -⟩ := hmerges hc
      exact ⟨t, ht⟩
  · refine ⟨fun h => (nomatch h), fun hp => absurd ?_ hall⟩
    exact List.all_eq_true.2 (List.forall_mem_cons.1 hp).2

theorem behind_subset {l : List UserData} : behind l d ⊆ l := by
  unfold behind
  split_ifs
  · exact List.Subset.refl l
  · exact List.nil_subset l

theorem stale_append_behind (l : List UserData) (d : UserData) : stale l d ++ behind l d = l := by
  unfold stale behind
  split_ifs
  · rfl
  · exact List.append_nil l

/-- What `d` goes behind is of its packet. -/
theorem samePacket_behind (hone : OnePacket held) :
    ∀ x ∈ behind (held (mergeKey aFor d)) d, samePacket d x := by
  intro x hx
  obtain ⟨hsender, hsame⟩ := hone _ x (behind_subset hx)
  unfold behind at hx
  split_ifs at hx with hnumber
  · cases hl : held (mergeKey aFor d) with
    | nil => rw [hl] at hx; cases hx
    | cons y ys =>
      rw [hl] at hsame hnumber
      have hxy := hsame y List.mem_cons_self
      have hy := hnumber y rfl
      simp only [samePacket, Bool.and_eq_true, beq_iff_eq] at hxy ⊢
      exact ⟨hy.symm.trans hxy.1.symm, hsender.symm⟩
  · cases hx

end

section
variable {aFor : Descriptor} {i : SplitInfo} {held : MergeKey → List UserData} {d : UserData}
  {ds : List UserData} {s s' : Sending}

theorem stale_returned (hone : OnePacket held) (key : MergeKey) (d : UserData) :
    Returned (stale (held key) d)
      ((stale (held key) d).head?.map fun x => lostReport x.dataId).toList := by
  unfold stale
  split_ifs
  · exact .nil
  · cases hl : held key with
    | nil => exact .nil
    | cons x xs =>
      have hsame := (hone key x (by rw [hl]; exact List.mem_cons_self)).2
      rw [hl] at hsame
      refine returned_single (List.cons_ne_nil x xs) (fun y hy => ?_) (by decide)
      have hxy := hsame y hy
      simp only [samePacket, Bool.and_eq_true, beq_iff_eq] at hxy
      exact ⟨hxy.1.symm, hxy.2.symm⟩

/-- The pieces of a turn, and those that they come behind, are of one packet. -/
theorem samePacket_turn (hone : OnePacket held) :
    ∀ x ∈ behind (held (mergeKey aFor d)) d ++ d :: ds.takeWhile (samePacket d),
      samePacket d x := by
  intro x hx
  rcases List.mem_append.1 hx with hx | hx
  · exact samePacket_behind hone x hx
  · rcases List.mem_cons.1 hx with rfl | hx
    · exact samePacket_self x
    · exact List.mem_takeWhile_imp hx

theorem OnePacket.update (hone : OnePacket held) {l : List UserData}
    (hl : ∀ x ∈ l, samePacket d x) : OnePacket (Function.update held (mergeKey aFor d) l) := by
  intro key x hx
  by_cases hk : key = mergeKey aFor d
  · rw [hk, Function.update_self] at hx ⊢
    refine ⟨(sender_eq (hl x hx)).symm, fun y hy => ?_⟩
    exact samePacket_trans ((samePacket_symm x d).trans (hl x hx)) (hl y hy)
  · rw [Function.update_of_ne hk] at hx ⊢
    exact hone key x hx

/-- The merging of pieces keeps what is known of the pieces held, and accounts for all. -/
theorem merge_accounts (hm : Holds s.mergeOp held) (hone : OnePacket held)
    (hs : isSplited d.dataId.split) (h : merge aFor d ds s = .ok s') :
    let pre := behind (held (mergeKey aFor d)) d
    let g := d :: ds.takeWhile (samePacket d)
    let held' := Function.update held (mergeKey aFor d) (if Grows pre g then pre ++ g else [])
    Holds s'.mergeOp held' ∧ OnePacket held' ∧ Accounts i g s s' ∧
      ∃ out, s'.sent = s.sent ++ out ∧
        ((∀ x ∈ out, Fits i x) ↔
          (Completes pre g → Fits i (delivered (pre.headD d).dataId (pre ++ g)))) := by
  obtain ⟨-, -, ⟨sent, fails, reports, l, hfate, hputs, hholds⟩⟩ := (merge_merges hm hs).1 h
  dsimp only
  have hsame := @samePacket_turn aFor held d ds hone
  generalize hpre : behind (held (mergeKey aFor d)) d = pre at *
  generalize hg : d :: ds.takeWhile (samePacket d) = g at *
  have hne : g ≠ [] := by rw [← hg]; exact List.cons_ne_nil _ _
  have hhead : samePacket d (pre.headD d) := by
    cases pre with
    | nil => exact samePacket_self d
    | cons x xs => exact hsame x List.mem_cons_self
  rw [← hfate.held_eq]
  have hpacket : ∀ x ∈ pre ++ g, x.dataId.packetNumber = (pre.headD d).dataId.packetNumber ∧
      sender x = (pre.headD d).dataId.routing.from_.uuid := by
    intro x hx
    have hx' := samePacket_trans ((samePacket_symm x d).trans (hsame x hx)) hhead
    simp only [samePacket, Bool.and_eq_true, beq_iff_eq] at hx'
    exact hx'
  obtain ⟨src, hsends, hreturned, hgoes⟩ := hfate.goes hne hpacket i.maxSize
  have hl : ∀ x ∈ l, samePacket d x := by
    rw [hfate.held_eq]
    split_ifs
    · exact hsame
    · exact List.forall_mem_nil _
  refine ⟨hholds, hone.update hl, ⟨src, sent, _, _, hputs, hsends,
    (stale_returned hone _ d).append hreturned, ?_⟩, sent, hputs.sent, hfate.sent_fits i⟩
  have hbefore := pending_perm hm (mergeKey aFor d)
  have hafter := pending_perm hholds (mergeKey aFor d)
  rw [Function.update_self, erase_eq_erase hm hholds] at hafter
  have hstale := stale_append_behind (held (mergeKey aFor d)) d
  rw [hpre] at hstale
  rw [List.perm_iff_count] at hbefore hafter ⊢
  intro a
  have hcount := hbefore a
  have hcount' := hafter a
  rw [← hstale] at hcount
  have hsum := congrArg (List.count a) hgoes
  simp only [List.count_append] at hcount hcount' hsum ⊢
  omega

end

section
variable {aFor : Descriptor} {i : SplitInfo} {held : MergeKey → List UserData}

/-- A packet that is put out, or handed back, while nothing else happens. -/
theorem accounts_of_puts {s s' : Sending} {what out fails : List UserData}
    {reports : List FailSend} {src : List UserData} (hmap : s'.mergeOp = s.mergeOp)
    (hputs : Puts s s' out fails reports) (hsends : Sends i.maxSize src out)
    (hreturned : Returned fails reports) (hwhat : src ++ fails = what) : Accounts i what s s' := by
  refine ⟨src, out, fails, reports, hputs, hsends, hreturned, ?_⟩
  rw [hmap, hwhat]
  exact List.perm_append_comm

/-- What a turn of the loop does to what is held, sent and handed back. -/
theorem turn_accounts {d : UserData} {ds : List UserData} {s s' : Sending}
    (hm : Holds s.mergeOp held) (hone : OnePacket held) (h : turn aFor i d ds s = .ok s') :
    Holds s'.mergeOp (heldAfter aFor i held d ds) ∧ OnePacket (heldAfter aFor i held d ds) ∧
      Accounts i (taken i d ds) s s' ∧ ∃ out, s'.sent = s.sent ++ out ∧
        ((∀ x ∈ out, Accepted i x) ↔ TurnClear aFor i held d ds) := by
  unfold turn at h
  by_cases hboth : i.canNotSplit = true ∧ isSplited d.dataId.split = true
  · obtain ⟨hcan, hs⟩ := hboth
    rw [if_pos hcan, if_pos hs] at h
    obtain ⟨hholds, hone', haccounts, out, hout, hfits⟩ := merge_accounts (i := i) hm hone hs h
    obtain ⟨hsplit, hclear, -⟩ := (merge_merges hm hs).1 h
    rw [heldAfter, if_pos ⟨hcan, hs⟩, taken, if_pos ⟨hcan, hs⟩]
    refine ⟨hholds, hone', haccounts, out, hout, ?_⟩
    have haccepted : (∀ x ∈ out, Accepted i x) ↔ ∀ x ∈ out, Fits i x :=
      forall₂_congr fun x _ => ⟨fun h => h (.inl hcan), fun h _ => h⟩
    rw [haccepted, hfits, TurnClear, if_pos hcan]
    exact ⟨fun h _ => ⟨hsplit, hclear, h⟩, fun h => (h hs).2.2⟩
  · rw [heldAfter, if_neg hboth, taken, if_neg hboth]
    split_ifs at h with hcan hs hfits hfits
    · exact absurd ⟨hcan, hs⟩ hboth
    · obtain rfl := Except.ok.inj h
      refine ⟨hm, hone, accounts_of_puts rfl ⟨rfl, (List.append_nil _).symm,
        (List.append_nil _).symm⟩ (.whole .nil) .nil rfl, [d], rfl, ?_⟩
      rw [TurnClear, if_pos hcan]
      exact iff_of_true (List.forall_mem_singleton.2 fun _ => hfits) fun h => absurd h hs
    · obtain rfl := Except.ok.inj h
      have hreturned : Returned [d] [(FailSend.ofInfo d.dataId).setError eDataTooLarge] :=
        returned_single (List.cons_ne_nil d []) (fun x hx => by
          rw [List.mem_singleton.1 hx]
          exact ⟨rfl, rfl⟩) (by decide)
      refine ⟨hm, hone,
        accounts_of_puts rfl ⟨(List.append_nil _).symm, rfl, rfl⟩ .nil hreturned rfl,
        [], (List.append_nil _).symm, ?_⟩
      rw [TurnClear, if_pos hcan]
      exact iff_of_true (fun x hx => nomatch hx) fun h => absurd h hs
    · obtain rfl := Except.ok.inj h
      refine ⟨hm, hone, accounts_of_puts rfl ⟨rfl, (List.append_nil _).symm,
        (List.append_nil _).symm⟩ (.whole .nil) .nil rfl, [d], rfl, ?_⟩
      rw [TurnClear, if_neg hcan]
      refine iff_of_true (List.forall_mem_singleton.2 fun hlimits => ?_) (hfits.imp_right .inl)
      exact hfits.resolve_left fun hnot =>
        hlimits.elim hcan fun hlim => nomatch hnot.symm.trans hlim
    · obtain ⟨ps, hps, h⟩ := eq_ok_of_bind h
      obtain rfl := Except.ok.inj h
      have hsends : Sends i.maxSize [d] (ps ++ []) := .pieces hps .nil
      rw [List.append_nil] at hsends
      refine ⟨hm, hone, accounts_of_puts rfl ⟨rfl, (List.append_nil _).symm,
        (List.append_nil _).symm⟩ hsends .nil rfl, ps, rfl, ?_⟩
      obtain ⟨hnot, hlarge⟩ := not_or.1 hfits
      have hlimited : i.limited = true := Bool.eq_true_of_not_eq_false hnot
      obtain ⟨⟨htwo, -, hbytes⟩, rfl⟩ := split_eq.1 hps
      rw [TurnClear, if_neg hcan, or_iff_right hnot, or_iff_right hlarge,
        and_iff_right ⟨htwo, hbytes⟩,
        List.forall_mem_map]
      simp only [List.mem_range]
      exact forall₂_congr fun k _ => ⟨fun h => h (.inr hlimited), fun h _ => h⟩

/-- A turn under its condition ends well. -/
theorem turn_of_clear {d : UserData} {ds : List UserData} {s : Sending}
    (hm : Holds s.mergeOp held) (h : TurnClear aFor i held d ds) :
    ∃ s', turn aFor i d ds s = .ok s' := by
  unfold turn
  unfold TurnClear at h
  split_ifs at h ⊢ with hcan hs hfits hfits
  · obtain ⟨hsplit, hclear, -⟩ := h hs
    exact (@merge_merges aFor held d ds s s hm hs).2 hsplit hclear
  · exact ⟨_, rfl⟩
  · exact ⟨_, rfl⟩
  · exact ⟨_, rfl⟩
  · obtain ⟨hnot, hlarge⟩ := not_or.1 hfits
    obtain ⟨⟨htwo, hbytes⟩, -⟩ := (h.resolve_left hnot).resolve_left hlarge
    have hpos : 0 < i.maxSize := Nat.pos_of_ne_zero fun hzero => hlarge (.inl hzero)
    obtain ⟨ps, hps⟩ : ∃ ps, split d i.maxSize = .ok ps :=
      ⟨_, split_eq.2 ⟨⟨htwo, hpos, hbytes⟩, rfl⟩⟩
    refine ⟨{ s with sent := s.sent ++ ps }, ?_⟩
    rw [hps]
    rfl

/-- The whole loop: it ends well under the condition, and accounts for every packet whenever it
    ends well. -/
theorem sendLoop_accounts {what : List UserData} {s : Sending} (hm : Holds s.mergeOp held)
    (hone : OnePacket held) :
    (∀ s', sendLoop aFor i what s = .ok s' →
      (∃ held', Holds s'.mergeOp held' ∧ OnePacket held') ∧ Accounts i what s s' ∧
        ∃ out, s'.sent = s.sent ++ out ∧
          ((∀ x ∈ out, Accepted i x) ↔ Clears aFor i held what)) ∧
    (Clears aFor i held what → ∃ s', sendLoop aFor i what s = .ok s') := by
  induction hn : what.length using Nat.strong_induction_on generalizing what s held with
  | h n ih =>
    cases what with
    | nil =>
      rw [sendLoop]
      refine ⟨fun s' h => ?_, fun _ => ⟨s, rfl⟩⟩
      obtain rfl := Except.ok.inj h
      refine ⟨⟨held, hm, hone⟩, accounts_of_puts rfl ⟨(List.append_nil _).symm,
        (List.append_nil _).symm, (List.append_nil _).symm⟩ .nil .nil rfl, [],
        (List.append_nil _).symm, ?_⟩
      rw [Clears]
      exact iff_of_true (List.forall_mem_nil _) trivial
    | cons d ds =>
      have hlt : (rest i d ds).length < n := by
        have hle := rest_length_le i d ds
        rw [← hn, List.length_cons]
        omega
      rw [sendLoop_cons, Clears]
      constructor
      · intro s' h
        obtain ⟨t, hturn, h⟩ := eq_ok_of_bind h
        obtain ⟨hm', hone', haccounts, out, hout, hclear⟩ := turn_accounts hm hone hturn
        obtain ⟨hheld, haccounts', out', hout', hclear'⟩ := (ih _ hlt hm' hone' rfl).1 s' h
        have hall := haccounts.trans haccounts'
        rw [taken_append_rest] at hall
        refine ⟨hheld, hall, out ++ out', by rw [hout', hout, List.append_assoc], ?_⟩
        rw [List.forall_mem_append, hclear, hclear']
      · rintro ⟨hclear, hrest⟩
        obtain ⟨t, hturn⟩ := turn_of_clear hm hclear
        obtain ⟨hm', hone', -⟩ := turn_accounts hm hone hturn
        obtain ⟨s', hs'⟩ := (ih _ hlt hm' hone' rfl).2 hrest
        refine ⟨s', ?_⟩
        rw [hturn]
        exact hs'

end

/-- A divisor after some calls, whatever limits were set in between. -/
inductive Reached : PacketDivisor → Prop where
  | start (limitsInfo : SortedMap Descriptor SplitInfo) : Reached ⟨limitsInfo, .empty⟩
  | limits {p : PacketDivisor} (h : Reached p) (limitsInfo : SortedMap Descriptor SplitInfo) :
    Reached { p with limitsInfo := limitsInfo }
  | step {p : PacketDivisor} {aFor : Descriptor} {what : List UserData} {r : Divided}
    (h : Reached p) (hr : splitOrMergeIfNeed p aFor what = .ok r) : Reached r.divisor

def heldOf (p : PacketDivisor) (key : MergeKey) : List UserData :=
  ((p.mergeOp.find key).map MergeOperation.mergedPackets).getD []

/-- What a call is to do: every packet goes somewhere, and what is sent keeps to the limits. -/
structure StepDone (p : PacketDivisor) (aFor : Descriptor) (what : List UserData) (r : Divided) :
    Prop where
  goes : ∃ src, Sends (((p.limitsInfo.find aFor).map SplitInfo.maxSize).getD 0) src r.sent ∧
    Returned r.fails r.nonSent ∧
    (pending p.mergeOp ++ what).Perm (src ++ r.fails ++ pending r.divisor.mergeOp)
  accepted : ∀ i, p.limitsInfo.find aFor = some i → ∀ x ∈ r.sent, Accepted i x

theorem splitOrMergeIfNeed_of_some {p : PacketDivisor} {aFor : Descriptor} {i : SplitInfo}
    (hi : p.limitsInfo.find aFor = some i) (what : List UserData) :
    splitOrMergeIfNeed p aFor what = sendLoop aFor i what ⟨p.mergeOp, [], [], []⟩ >>= fun s =>
      .ok ⟨{ p with mergeOp := s.mergeOp }, s.sent, s.fails, s.nonSent⟩ := by
  rw [splitOrMergeIfNeed, hi]
  rfl

theorem splitOrMergeIfNeed_of_none {p : PacketDivisor} {aFor : Descriptor}
    (hi : p.limitsInfo.find aFor = none) (what : List UserData) :
    splitOrMergeIfNeed p aFor what = .ok ⟨p, what, [], []⟩ := by
  rw [splitOrMergeIfNeed, hi]

/-- The pieces that a divisor holds came in order, those of a key from one packet. -/
theorem Reached.holds {p : PacketDivisor} (h : Reached p) :
    Holds p.mergeOp (heldOf p) ∧ OnePacket (heldOf p) := by
  have hheld : ∀ {p : PacketDivisor} {held : MergeKey → List UserData},
      Holds p.mergeOp held → heldOf p = held := by
    intro p held hm
    funext key
    rw [heldOf, hm key]
    cases held key <;> rfl
  induction h with
  | start limitsInfo => exact ⟨fun _ => rfl, fun _ _ hx => nomatch hx⟩
  | limits _ _ ih => exact ih
  | @step p aFor what r _ hr ih =>
    cases hi : p.limitsInfo.find aFor with
    | none =>
      rw [splitOrMergeIfNeed_of_none hi] at hr
      rw [← Except.ok.inj hr]
      exact ih
    | some i =>
      rw [splitOrMergeIfNeed_of_some hi] at hr
      obtain ⟨s, hs, hr⟩ := eq_ok_of_bind hr
      obtain rfl := Except.ok.inj hr
      have hloop := @sendLoop_accounts aFor i _ what ⟨p.mergeOp, [], [], []⟩ ih.1 ih.2
      obtain ⟨⟨held', hm', hone'⟩, -⟩ := hloop.1 s hs
      rw [hheld hm']
      exact ⟨hm', hone'⟩

theorem sends_self (n : ℕ) (l : List UserData) : Sends n l l := by
  induction l with
  | nil => exact .nil
  | cons d l ih => exact .whole ih

/-- A call does what it is to do where every turn of its loop is clear. -/
theorem step_iff_clears {p : PacketDivisor} (h : Reached p) (aFor : Descriptor)
    (what : List UserData) :
    (∃ r, splitOrMergeIfNeed p aFor what = .ok r ∧ StepDone p aFor what r) ↔
      ∀ i, p.limitsInfo.find aFor = some i → Clears aFor i (heldOf p) what := by
  obtain ⟨hm, hone⟩ := h.holds
  cases hi : p.limitsInfo.find aFor with
  | none =>
    refine iff_of_true ⟨_, splitOrMergeIfNeed_of_none hi what, ⟨what, sends_self _ what, .nil, ?_⟩,
      fun i hi' => ?_⟩ fun i hi' => nomatch hi'
    · rw [List.append_nil]
      exact List.perm_append_comm
    · exact nomatch hi.symm.trans hi'
  | some i =>
    have hloop := @sendLoop_accounts aFor i _ what ⟨p.mergeOp, [], [], []⟩ hm hone
    constructor
    · rintro ⟨r, hr, hdone⟩ j hj
      obtain rfl := Option.some.inj hj
      rw [splitOrMergeIfNeed_of_some hi] at hr
      obtain ⟨s, hs, hr⟩ := eq_ok_of_bind hr
      obtain rfl := Except.ok.inj hr
      obtain ⟨-, -, out, hout, hclear⟩ := hloop.1 s hs
      refine hclear.1 fun x hx => hdone.accepted i hi x ?_
      rw [hout]
      exact List.mem_append_right _ hx
    · intro hclear
      obtain ⟨s, hs⟩ := hloop.2 (hclear i rfl)
      obtain ⟨-, ⟨src, out', fails, reports, hputs, hsends, hreturned, hperm⟩, out, hout, hiff⟩ :=
        hloop.1 s hs
      have hsent : s.sent = out := hout
      have hsent' : s.sent = out' := hputs.sent
      have hfails : s.fails = fails := hputs.fails
      have hreports : s.nonSent = reports := hputs.nonSent
      refine ⟨⟨{ p with mergeOp := s.mergeOp }, s.sent, s.fails, s.nonSent⟩, ?_, ⟨src, ?_, ?_, ?_⟩,
        fun j hj => ?_⟩
      · rw [splitOrMergeIfNeed_of_some hi, hs]
        rfl
      · rw [hi, hsent']
        exact hsends
      · rw [hfails, hreports]
        exact hreturned
      · rw [hfails]
        exact hperm
      · obtain rfl := Option.some.inj (hi.symm.trans hj)
        rw [hsent]
        exact hiff.2 (hclear i rfl)

theorem halves : (List.range 2).map (part tenBytes 2 5) =
    [part tenBytes 2 5 0, part tenBytes 2 5 1] := rfl

theorem step_done_halves :
    ∃ r, splitOrMergeIfNeed ⟨SortedMap.empty.insert 7 ⟨true, false, 10, none⟩, .empty⟩ 7
        ((List.range 2).map (part tenBytes 2 5)) = .ok r ∧
      StepDone ⟨SortedMap.empty.insert 7 ⟨true, false, 10, none⟩, .empty⟩ 7
        ((List.range 2).map (part tenBytes 2 5)) r := by
  refine (step_iff_clears (.start _) 7 _).2 fun i hi => ?_
  obtain rfl := Option.some.inj hi
  rw [halves, Clears]
  refine ⟨?_, ?_⟩
  · rw [TurnClear, if_pos rfl]
    exact fun _ => ⟨by decide, .inr ⟨fun _ => rfl, by decide⟩, fun _ => by decide⟩
  · have hrest : rest ⟨true, false, 10, none⟩ (part tenBytes 2 5 0) [part tenBytes 2 5 1] = [] :=
      by decide
    rw [hrest, Clears]
    trivial

/-- Two halves of ten bytes are joined for a descriptor that takes six. -/
theorem not_step_done_joined :
    ¬∀ (p : PacketDivisor), Reached p → ∀ (aFor : Descriptor) (what : List UserData),
      ∃ r, splitOrMergeIfNeed p aFor what = .ok r ∧ StepDone p aFor what r := by
  intro h
  have hstart := Reached.start (SortedMap.empty.insert 7 ⟨true, false, 6, none⟩)
  obtain ⟨r, hr, hdone⟩ := h _ hstart 7 ((List.range 2).map (part tenBytes 2 5))
  have hi : (SortedMap.empty.insert 7 ⟨true, false, 6, none⟩ : SortedMap Descriptor SplitInfo).find
      7 = some ⟨true, false, 6, none⟩ := rfl
  rw [splitOrMergeIfNeed_of_some hi] at hr
  obtain ⟨s, hs, hr⟩ := eq_ok_of_bind hr
  obtain rfl := Except.ok.inj hr
  obtain ⟨-, -, out, hout, hclear⟩ :=
    (@sendLoop_accounts 7 _ _ _ ⟨.empty, [], [], []⟩ hstart.holds.1 hstart.holds.2).1 s hs
  have hclears := hclear.1 fun x hx => hdone.accepted _ hi x (by
    rw [hout]
    exact List.mem_append_right _ hx)
  rw [halves, Clears, TurnClear, if_pos rfl] at hclears
  obtain ⟨-, -, hfits⟩ := hclears.1 (by decide)
  exact absurd (hfits (by decide)) (by decide)

end UdtKernel.SendStep
