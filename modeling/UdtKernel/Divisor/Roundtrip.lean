import Mathlib.Data.List.TakeWhile
import UdtKernel.Divisor.Merge

set_option autoImplicit false

/-! A packet that was split on its way is merged as it was sent. -/

namespace UdtKernel.Roundtrip
open UdtKernel.Lib UdtKernel.Divisor UdtKernel.Plan UdtKernel.Cross UdtKernel.Merge
open UdtKernel.Sequence

/-- What a descriptor that merges is sent, call after call. -/
def sendAll (aFor : Descriptor) : PacketDivisor → List (List UserData) →
    Except Abort (List Divided)
  | _, [] => .ok []
  | p, g :: gs => do
    let r ← splitOrMergeIfNeed p aFor g
    let rs ← sendAll aFor r.divisor gs
    return r :: rs

theorem sendAll_cons {aFor : Descriptor} {p : PacketDivisor} {g : List UserData}
    {gs : List (List UserData)} {r : Divided} {rs : List Divided}
    (hg : splitOrMergeIfNeed p aFor g = .ok r) (hgs : sendAll aFor r.divisor gs = .ok rs) :
    sendAll aFor p (g :: gs) = .ok (r :: rs) := by
  rw [sendAll, hg]
  simp only [bind, Except.bind, hgs]
  rfl

def Quiet (r : Divided) : Prop := r.sent = [] ∧ r.fails = [] ∧ r.nonSent = []

/-- The packet is delivered once, at the last call, and leaves no entry behind. -/
def Delivers (aFor : Descriptor) (d : UserData) (rs : List Divided) : Prop :=
  ∃ init r, rs = init ++ [r] ∧ (∀ q ∈ init, Quiet q) ∧ r.sent = [d] ∧ r.fails = [] ∧
    r.nonSent = [] ∧ r.divisor.mergeOp.find (mergeKey aFor d) = none

/-- Splitting on every hop, then merging, however the pieces are grouped, is the identity. -/
def RoundTrip (hs : List Hop) (p : PacketDivisor) (aFor : Descriptor) (d : UserData) : Prop :=
  ∃ ps, crossAll hs [d] = .ok ps ∧ ∀ gs : List (List UserData), gs.flatten = ps →
    (∀ g ∈ gs, g ≠ []) → ∃ rs, sendAll aFor p gs = .ok rs ∧ Delivers aFor d rs

/-- The sizes, the limits and the headers are such that there is a byte for each piece and the
    pieces of one level stand together; a packet that is not split fits the last limit. -/
def WellSplit (hs : List Hop) (i : SplitInfo) (d : UserData) : Prop :=
  ∃ qs, plan (meets d hs) [whole d.data.length] = some qs ∧
    LevelsTogether [] (qs.map fun q => q.split.coefficient) ∧
    (qs.length = 1 → i.maxSize = 0 ∨ i.dataSize d ≤ i.maxSize)

/-- The 16-bit fields of the pieces are not exceeded. -/
def Fits16 (hs : List Hop) (d : UserData) : Prop :=
  ∀ qs, plan (meets d hs) [whole d.data.length] = some qs →
    ∀ q ∈ qs, q.split.counter < 2 ^ 16 ∧ q.split.coefficient < 2 ^ 16

/-- The piece carries the header of `d`, its split record apart. -/
def OfPacket (d p : UserData) : Prop := p.dataId = { d.dataId with split := p.dataId.split }

theorem mergeKey_ofPacket {d p : UserData} (aFor : Descriptor) (h : OfPacket d p) :
    mergeKey aFor p = mergeKey aFor d := by
  rw [mergeKey, h]
  rfl

theorem samePacket_ofPacket {d p q : UserData} (hp : OfPacket d p) (hq : OfPacket d q) :
    samePacket p q = true := by
  rw [samePacket, hp, hq]
  simp

theorem mergeTurn_ok {key : MergeKey} {p : UserData} {ps : List UserData} {s : Sending}
    {op : MergeOperation} {m : MergeOperation.Merged} (hop : findOrNew s.mergeOp key p = .ok op)
    (hm : op.merge p ps = .ok m) (he : m.op.error = eNoError) :
    mergeTurn key p ps s = .ok (m.rest, { s with
      sent := s.sent ++ m.delivered
      mergeOp := if m.op.hasToBeRemoved then s.mergeOp.erase key
        else s.mergeOp.insert key m.op }) := by
  simp [mergeTurn, hop, hm, he, bind, Except.bind, pure, Except.pure]

theorem mergeTurn_failed {key : MergeKey} {p : UserData} {ps : List UserData} {s : Sending}
    {op : MergeOperation} {m : MergeOperation.Merged} (hop : findOrNew s.mergeOp key p = .ok op)
    (hm : op.merge p ps = .ok m) (he : m.op.error ≠ eNoError) :
    ∃ s', mergeTurn key p ps s = .ok (m.rest, s') ∧ s'.sent = s.sent ++ m.delivered ∧
      s'.nonSent = s.nonSent ++ [(FailSend.ofInfo m.op.info).setError m.op.error] ∧
      s'.mergeOp = s.mergeOp.erase key := by
  simp [mergeTurn, hop, hm, he, bind, Except.bind, pure, Except.pure,
    MergeOperation.hasToBeRemoved]

/-- One call with pieces of one packet is the merging loop on them. -/
theorem splitOrMerge_group {p : PacketDivisor} {aFor : Descriptor} {i : SplitInfo}
    (hfound : p.limitsInfo.find aFor = some i) (hcan : i.canNotSplit = true) {d x : UserData}
    {g : List UserData} (hd : ∀ q ∈ x :: g, OfPacket d q)
    (hp : ∀ q ∈ x :: g, isSplited q.dataId.split) :
    splitOrMergeIfNeed p aFor (x :: g) =
      mergeLoop (mergeKey aFor d) 2 (x :: g) ⟨p.mergeOp, [], [], []⟩ >>= fun s =>
        .ok ⟨{ p with mergeOp := s.mergeOp }, s.sent, s.fails, s.nonSent⟩ := by
  have hx := hd x List.mem_cons_self
  have hsame : ∀ q ∈ g, samePacket x q = true := fun q hq =>
    samePacket_ofPacket hx (hd q (List.mem_cons_of_mem _ hq))
  have htake : g.takeWhile (samePacket x) = g := List.takeWhile_eq_self_iff.2 hsame
  have hdrop : g.dropWhile (samePacket x) = [] := List.dropWhile_eq_nil_iff.2 hsame
  have hall : g.all (fun e => isSplited e.dataId.split) = true :=
    List.all_eq_true.2 fun q hq => hp q (List.mem_cons_of_mem _ hq)
  rw [splitOrMergeIfNeed, hfound]
  simp only [sendLoop, hcan, if_true, hp x List.mem_cons_self, Divisor.merge, htake, hdrop, hall,
    mergeKey_ofPacket aFor hx]
  cases mergeLoop (mergeKey aFor d) 2 (x :: g) ⟨p.mergeOp, [], [], []⟩ <;> rfl

/-- What a call of `mergeLoop` does when its first turn takes all the pieces. -/
theorem mergeLoop_turn {key : MergeKey} {x : UserData} {g : List UserData} {s s' : Sending}
    (h : mergeTurn key x g s = .ok ([], s')) : mergeLoop key 2 (x :: g) s = .ok s' := by
  rw [mergeLoop, h]
  rfl

theorem call_mid {p : PacketDivisor} {aFor : Descriptor} {i : SplitInfo}
    (hfound : p.limitsInfo.find aFor = some i) (hcan : i.canNotSplit = true) {d x : UserData}
    {g pre : List UserData} {info : UserDataInfo} (hd : ∀ q ∈ x :: g, OfPacket d q)
    (hp : ∀ q ∈ x :: g, isSplited q.dataId.split)
    (hop : findOrNew p.mergeOp (mergeKey aFor d) x = .ok (opAfter info pre))
    (hn : info.packetNumber = d.dataId.packetNumber) (hs : Sequenced pre (x :: g))
    (hend : ∀ q ∈ x :: g, isEnd q = false) :
    splitOrMergeIfNeed p aFor (x :: g) = .ok ⟨⟨p.limitsInfo,
      p.mergeOp.insert (mergeKey aFor d) (opAfter info (pre ++ x :: g))⟩, [], [], []⟩ := by
  have hn' : info.packetNumber = x.dataId.packetNumber := by
    rw [hn, hd x List.mem_cons_self]
  have hturn := mergeTurn_ok (s := ⟨p.mergeOp, [], [], []⟩) hop (merge_mid info hn' hs hend hp) rfl
  rw [splitOrMerge_group hfound hcan hd hp, mergeLoop_turn hturn]
  rfl

theorem call_last {p : PacketDivisor} {aFor : Descriptor} {i : SplitInfo}
    (hfound : p.limitsInfo.find aFor = some i) (hcan : i.canNotSplit = true) {d x z : UserData}
    {g pre init : List UserData} {info : UserDataInfo} (hd : ∀ q ∈ x :: g, OfPacket d q)
    (hp : ∀ q ∈ x :: g, isSplited q.dataId.split)
    (hop : findOrNew p.mergeOp (mergeKey aFor d) x = .ok (opAfter info pre))
    (hn : info.packetNumber = d.dataId.packetNumber) (hs : Sequenced pre (x :: g))
    (hg : x :: g = init ++ [z]) (hend : ∀ q ∈ init, isEnd q = false) (hz : isEnd z = true)
    (hb : bytes (pre ++ x :: g) ≠ []) :
    splitOrMergeIfNeed p aFor (x :: g) = .ok ⟨⟨p.limitsInfo,
      p.mergeOp.erase (mergeKey aFor d)⟩, [delivered info (pre ++ x :: g)], [], []⟩ := by
  have hn' : info.packetNumber = x.dataId.packetNumber := by
    rw [hn, hd x List.mem_cons_self]
  have hturn := mergeTurn_ok (s := ⟨p.mergeOp, [], [], []⟩) hop
    (merge_last info hg hn' hs hend hz hp hb) rfl
  rw [splitOrMerge_group hfound hcan hd hp, mergeLoop_turn hturn]
  rfl

/-- Pieces in sequence are delivered as one packet, however they are grouped. -/
theorem sendAll_delivers {aFor : Descriptor} {i : SplitInfo} (hcan : i.canNotSplit = true)
    {d z : UserData} (info : UserDataInfo) (hinfo : { info with split := .default } = d.dataId)
    {gs : List (List UserData)} {p : PacketDivisor} {pre init : List UserData}
    (hfound : p.limitsInfo.find aFor = some i)
    (hop : ∀ x, (init ++ [z]).head? = some x →
      findOrNew p.mergeOp (mergeKey aFor d) x = .ok (opAfter info pre))
    (hgs : gs.flatten = init ++ [z]) (hne : ∀ g ∈ gs, g ≠ [])
    (hd : ∀ q ∈ init ++ [z], OfPacket d q) (hp : ∀ q ∈ init ++ [z], isSplited q.dataId.split)
    (hs : Sequenced pre (init ++ [z])) (hend : ∀ q ∈ init, isEnd q = false)
    (hz : isEnd z = true) (hb : bytes (pre ++ (init ++ [z])) = d.data) (hdata : d.data ≠ []) :
    ∃ rs, sendAll aFor p gs = .ok rs ∧ Delivers aFor d rs := by
  have hn : info.packetNumber = d.dataId.packetNumber := by rw [← hinfo]
  induction gs generalizing p pre init with
  | nil => simp at hgs
  | cons g gs ih =>
    obtain ⟨x, g, rfl⟩ : ∃ x g', g = x :: g' :=
      List.exists_cons_of_ne_nil (hne g List.mem_cons_self)
    have hne' : ∀ g ∈ gs, g ≠ [] := fun h hh => hne h (List.mem_cons_of_mem _ hh)
    rw [List.flatten_cons] at hgs
    have hop' : findOrNew p.mergeOp (mergeKey aFor d) x = .ok (opAfter info pre) :=
      hop x (by rw [← hgs]; rfl)
    cases gs with
    | nil =>
      rw [List.flatten_nil, List.append_nil] at hgs
      rw [← hgs] at hd hp hs hb
      have hcall := call_last hfound hcan hd hp hop' hn hs hgs hend hz (hb ▸ hdata)
      refine ⟨_, sendAll_cons hcall rfl, [], _, rfl, by simp, ?_, rfl, rfl, by simp⟩
      rw [delivered, hinfo, hb]
    | cons h gs =>
      have hlater : (h :: gs).flatten ≠ [] := by
        rw [List.flatten_cons]
        exact fun hnil => hne' h List.mem_cons_self (List.append_eq_nil_iff.1 hnil).1
      -- the last piece is in a later group
      obtain ⟨init', hinit', hrest⟩ : ∃ init', init = x :: g ++ init' ∧
          (h :: gs).flatten = init' ++ [z] := by
        refine ⟨(h :: gs).flatten.dropLast, ?_, ?_⟩
        · have hdrop := congrArg List.dropLast hgs
          rw [List.dropLast_append_of_ne_nil hlater, List.dropLast_concat] at hdrop
          exact hdrop.symm
        · have hlast := congrArg List.getLast? hgs
          rw [List.getLast?_append_of_ne_nil _ hlater, List.getLast?_concat] at hlast
          exact (List.dropLast_append_getLast? z hlast).symm
      subst hinit'
      simp only [List.append_assoc] at hd hp hs hb
      obtain ⟨hs₁, hs₂⟩ := sequenced_append.1 hs
      have hcall := call_mid hfound hcan (fun q hq => hd q (List.mem_append_left _ hq))
        (fun q hq => hp q (List.mem_append_left _ hq)) hop' hn hs₁
        fun q hq => hend q (List.mem_append_left _ hq)
      obtain ⟨rs, hrs, init'', r, hrs', hquiet, hdone⟩ := @ih
        ⟨p.limitsInfo, p.mergeOp.insert (mergeKey aFor d) (opAfter info (pre ++ x :: g))⟩
        (pre ++ x :: g) init' hfound (fun y _ => by simp [findOrNew]) hrest hne'
        (fun q hq => hd q (List.mem_append_right _ hq))
        (fun q hq => hp q (List.mem_append_right _ hq)) hs₂
        (fun q hq => hend q (List.mem_append_right _ hq)) (by simpa using hb)
      refine ⟨_, sendAll_cons hcall hrs, _ :: init'', r, by rw [hrs']; rfl, fun q hq => ?_, hdone⟩
      rcases List.mem_cons.1 hq with rfl | hq
      · exact ⟨rfl, rfl, rfl⟩
      · exact hquiet q hq

theorem cut_of_lt {s : SplitPacket} (h : s.counter < 2 ^ 16 ∧ s.coefficient < 2 ^ 16) :
    cut s = s := by
  rw [cut, Nat.mod_eq_of_lt h.1, Nat.mod_eq_of_lt h.2]

theorem recs_eq_splits {d : UserData} {ps : List UserData} {qs : List PieceSize}
    (h : List.Forall₂ (PieceOf d) ps qs)
    (hfits : ∀ q ∈ qs, q.split.counter < 2 ^ 16 ∧ q.split.coefficient < 2 ^ 16) :
    recs ps = splits qs := by
  induction h with
  | nil => rfl
  | cons hp hrest ih =>
    rename_i p q ps qs
    have hq := cut_of_lt (hfits q List.mem_cons_self)
    have hsame := ih fun r hr => hfits r (List.mem_cons_of_mem _ hr)
    simp only [recs, splits, List.map_cons] at hsame ⊢
    rw [hsame, hp.1, hq]

theorem ofPacket_of_pieceOf {d : UserData} {ps : List UserData} {qs : List PieceSize}
    (h : List.Forall₂ (PieceOf d) ps qs) : ∀ p ∈ ps, OfPacket d p := by
  induction h with
  | nil => simp
  | cons hp _ ih =>
    intro r hr
    rcases List.mem_cons.1 hr with rfl | hr
    · rw [OfPacket, hp.1]
    · exact ih r hr

structure Arrived (d : UserData) (ps : List UserData) (qs : List PieceSize) : Prop where
  shape : List.Forall₂ (PieceOf d) ps qs
  laid : Laid 0 1 qs
  filled : ∀ p ∈ ps, p.data ≠ []
  same : recs ps = splits qs
  whole : bytes ps = d.data

namespace Arrived

variable {d : UserData} {ps : List UserData} {qs : List PieceSize}

theorem tiles (h : Arrived d ps qs) : Tiles 0 1 (recs ps) := h.same ▸ h.laid.tiles

theorem placed (h : Arrived d ps qs) : ∀ s ∈ recs ps, Placed s := h.same ▸ h.laid.placed

theorem coefs_eq (h : Arrived d ps qs) : coefs ps = qs.map fun q => q.split.coefficient := by
  have hs := congrArg (List.map SplitPacket.coefficient) h.same
  simpa [recs, splits, coefs, Function.comp_def] using hs

theorem marked (h : Arrived d ps qs) : ∃ init z, ps = init ++ [z] ∧
    (∀ p ∈ init, isEnd p = false) ∧ isEnd z = true := by
  obtain ⟨ss, s, hss, hinit, hs⟩ := h.laid.marked
  rw [← h.same] at hss
  obtain ⟨init, last, rfl, hi, hl⟩ := List.map_eq_append_iff.1 hss
  obtain ⟨z, rest, rfl, hz, hr⟩ := List.map_eq_cons_iff.1 hl
  obtain rfl : rest = [] := List.map_eq_nil_iff.1 hr
  refine ⟨init, z, rfl, fun p hp => ?_, by rw [isEnd, hz, hs]⟩
  exact hinit _ (hi ▸ List.mem_map_of_mem hp)

/-- With two pieces or more, every piece is marked as split. -/
theorem isSplited_of_two {x y : UserData} {rest : List UserData}
    (h : Arrived d (x :: y :: rest) qs) :
    ∀ p ∈ x :: y :: rest, isSplited p.dataId.split = true := by
  obtain ⟨init, z, heq, hinit, -⟩ := h.marked
  intro p hp
  rw [heq] at hp
  rcases List.mem_append.1 hp with hp | hp
  · have hend : p.dataId.split.isLast = false := hinit p hp
    simp [isSplited, hend]
  · obtain rfl := List.mem_singleton.1 hp
    have hne : init ≠ [] := fun hnil => by simp [hnil] at heq
    have ht := h.tiles
    have hplaced := h.placed
    rw [heq] at ht hplaced
    simp only [recs, List.map_append, List.map_cons, List.map_nil] at ht hplaced
    obtain ⟨b, htinit, htz⟩ := tiles_split ht
    have hpos : (0 : ℚ) < b := tiles_lt
      (fun s hs => hplaced s (List.mem_append_left _ hs)) (by simpa using hne) htinit
    have hcounter : p.dataId.split.counter ≠ 1 := fun hone => by
      have hzero := (counter_eq_one_iff (hplaced _ (by simp))).1 hone
      rw [htz.1] at hzero
      exact hpos.ne' hzero
    simp [isSplited, hcounter]

theorem first_counter {x : UserData} {rest : List UserData} (h : Arrived d (x :: rest) qs) :
    x.dataId.split.counter = 1 :=
  (counter_eq_one_iff (h.placed _ (by simp [recs]))).2 h.tiles.1

/-- A packet that arrives in one piece is the packet itself. -/
theorem single {x : UserData} (h : Arrived d [x] qs) (hwhole : d.dataId.split = .default) :
    x = d ∧ isSplited x.dataId.split = false := by
  have hone := h.first_counter
  have hstop : stop x.dataId.split = 1 := h.tiles.2
  have hcoef : x.dataId.split.coefficient = 1 := by
    have hpos := (h.placed x.dataId.split (by simp [recs])).2
    have hk : (x.dataId.split.coefficient : ℚ) ≠ 0 := by exact_mod_cast hpos.ne'
    rw [stop, hone, Nat.cast_one, div_eq_iff hk, one_mul] at hstop
    exact_mod_cast hstop.symm
  have hlast : x.dataId.split.isLast = true := by
    obtain ⟨init, z, heq, -, hz⟩ := h.marked
    cases init with
    | nil => exact (List.cons.inj heq).1 ▸ hz
    | cons w init => simp at heq
  have hs : x.dataId.split = .default := by
    cases hx : x.dataId.split
    simp_all [SplitPacket.default]
  have hid := ofPacket_of_pieceOf h.shape x (by simp)
  have hdata := h.whole
  simp only [bytes_cons, bytes_nil, List.append_nil] at hdata
  refine ⟨?_, by rw [hs]; rfl⟩
  rw [OfPacket, hs, ← hwhole] at hid
  change (⟨x.dataId, x.data⟩ : UserData) = ⟨d.dataId, d.data⟩
  rw [hid, hdata]

end Arrived

theorem filled_of_shape {d : UserData} {ps : List UserData} {qs : List PieceSize}
    (h : List.Forall₂ (PieceOf d) ps qs) (hqs : Filled qs) : ∀ p ∈ ps, p.data ≠ [] := by
  induction h with
  | nil => simp
  | cons hp _ ih =>
    refine List.forall_mem_cons.2 ⟨fun hnil => ?_, ih fun q hq => hqs q (List.mem_cons_of_mem _ hq)⟩
    exact hqs _ List.mem_cons_self (by rw [← hp.2, hnil]; rfl)

/-- Once every field fits, crossing the hops fails or brings pieces of the planned shapes. -/
theorem crossAll_arrived (hs : List Hop) {d : UserData} (hwhole : d.dataId.split = .default)
    (hdata : d.data ≠ []) (hfits : Fits16 hs d) :
    match plan (meets d hs) [whole d.data.length] with
    | none => ∃ e, crossAll hs [d] = .error e
    | some qs => ∃ ps, crossAll hs [d] = .ok ps ∧ Arrived d ps qs := by
  have hpiece : List.Forall₂ (PieceOf d) [d] [whole d.data.length] := by
    refine .cons ⟨?_, rfl⟩ .nil
    change d.dataId = { d.dataId with split := cut .default }
    rw [show cut .default = d.dataId.split from hwhole.symm]
  have hcross := crossAll_planned hs hpiece (whole_laid _)
  have hfits' : ∀ qs, plan (meets d hs) [whole d.data.length] = some qs → _ := hfits
  cases hplan : plan (meets d hs) [whole d.data.length] with
  | none => rw [hplan] at hcross; exact hcross
  | some qs =>
    rw [hplan] at hcross
    obtain ⟨ps, hps, hshape, hb⟩ := hcross
    have hfilled : Filled [whole d.data.length] := fun q hq =>
      List.mem_singleton.1 hq ▸ (List.length_pos_of_ne_nil hdata).ne'
    exact ⟨ps, hps, hshape, plan_laid (whole_laid _) hplan,
      filled_of_shape hshape (plan_filled hfilled hplan),
      recs_eq_splits hshape (hfits' qs hplan), by simpa using hb⟩

theorem opAfter_nil_of_first {x : UserData} {m : SortedMap MergeKey MergeOperation}
    {key : MergeKey} (hkey : m.find key = none) (hone : x.dataId.split.counter = 1)
    (hend : isEnd x = false) : findOrNew m key x = .ok (opAfter x.dataId []) := by
  simp only [isEnd] at hend
  simp [findOrNew, hkey, MergeOperation.new, hone, hend, opAfter, levels]

theorem eq_singleton_of_flatten {x : UserData} {gs : List (List UserData)}
    (h : gs.flatten = [x]) (hne : ∀ g ∈ gs, g ≠ []) : gs = [[x]] := by
  cases gs with
  | nil => simp at h
  | cons g gs =>
    obtain ⟨y, g, rfl⟩ := List.exists_cons_of_ne_nil (hne g List.mem_cons_self)
    simp only [List.flatten_cons, List.cons_append, List.cons.injEq, List.append_eq_nil_iff] at h
    obtain ⟨rfl, rfl, hrest⟩ := h
    cases gs with
    | nil => rfl
    | cons g gs => simp [hne g (by simp)] at hrest

/-- A packet that is not split passes if it fits the limit of the descriptor. -/
theorem call_whole {p : PacketDivisor} {aFor : Descriptor} {i : SplitInfo}
    (hfound : p.limitsInfo.find aFor = some i) (hcan : i.canNotSplit = true) {d : UserData}
    (hd : isSplited d.dataId.split = false) : splitOrMergeIfNeed p aFor [d] =
      if i.maxSize = 0 ∨ i.dataSize d ≤ i.maxSize then .ok ⟨p, [d], [], []⟩
      else .ok ⟨p, [], [d], [(FailSend.ofInfo d.dataId).setError eDataTooLarge]⟩ := by
  by_cases hfit : i.maxSize = 0 ∨ i.dataSize d ≤ i.maxSize
  · simp [splitOrMergeIfNeed, hfound, sendLoop, hcan, hd, hfit]
  · simp [splitOrMergeIfNeed, hfound, sendLoop, hcan, hd, hfit]

theorem roundTrip_of_wellSplit {hs : List Hop} {p : PacketDivisor} {aFor : Descriptor}
    {i : SplitInfo} {d : UserData} (hfound : p.limitsInfo.find aFor = some i)
    (hcan : i.canNotSplit = true) (hkey : p.mergeOp.find (mergeKey aFor d) = none)
    (hwhole : d.dataId.split = .default) (hdata : d.data ≠ []) (hfits : Fits16 hs d)
    (h : WellSplit hs i d) : RoundTrip hs p aFor d := by
  obtain ⟨qs, hplan, htogether, hsingle⟩ := h
  have hcross := crossAll_arrived hs hwhole hdata hfits
  rw [hplan] at hcross
  obtain ⟨ps, hps, harr⟩ := hcross
  refine ⟨ps, hps, fun gs hgs hne => ?_⟩
  have hlen := harr.shape.length_eq
  cases ps with
  | nil => exact absurd harr.whole.symm hdata
  | cons x rest =>
    cases rest with
    | nil =>
      obtain ⟨rfl, hnot⟩ := harr.single hwhole
      rw [eq_singleton_of_flatten hgs hne]
      have hcall := call_whole hfound hcan hnot
      rw [if_pos (hsingle hlen.symm)] at hcall
      exact ⟨_, sendAll_cons hcall rfl, [], _, rfl, by simp, rfl, rfl, rfl, hkey⟩
    | cons y rest =>
      obtain ⟨init, z, heq, hinit, hz⟩ := harr.marked
      have hone := harr.first_counter
      have hend : isEnd x = false := by
        cases init with
        | nil => simp at heq
        | cons w init => exact (List.cons.inj heq).1 ▸ hinit w List.mem_cons_self
      have hseq : Sequenced [] (x :: y :: rest) := by
        rw [sequenced_iff harr.tiles harr.placed, harr.coefs_eq]
        exact ⟨harr.filled, htogether⟩
      have hof := ofPacket_of_pieceOf harr.shape
      have hsp := harr.isSplited_of_two
      have hwhole' : bytes ([] ++ (x :: y :: rest)) = d.data := harr.whole
      rw [heq] at hof hsp hseq hwhole' hgs
      refine sendAll_delivers hcan x.dataId ?_ hfound (fun w hw => ?_) hgs hne hof hsp hseq
        hinit hz hwhole' hdata
      · rw [ofPacket_of_pieceOf harr.shape x List.mem_cons_self, ← hwhole]
      · rw [← heq] at hw
        obtain rfl := Option.some.inj hw
        exact opAfter_nil_of_first hkey hone hend

theorem mergeLoop_of_turn {key : MergeKey} {x : UserData} {g : List UserData} {s t : Sending}
    {op : MergeOperation} (hop : findOrNew s.mergeOp key x = .ok op)
    (hrest : ∀ m, op.merge x g = .ok m → m.rest = []) (ht : t.nonSent = s.nonSent)
    (h : mergeLoop key 2 (x :: g) s = .ok t) :
    ∃ m, op.merge x g = .ok m ∧ m.op.error = eNoError := by
  cases hm : op.merge x g with
  | error e =>
    rw [mergeLoop, mergeTurn, hop] at h
    simp [hm, bind, Except.bind] at h
  | ok m =>
    refine ⟨m, rfl, ?_⟩
    by_contra he
    obtain ⟨s', hs', -, hsent, -⟩ := mergeTurn_failed hop hm he
    rw [hrest m hm] at hs'
    rw [mergeLoop_turn hs'] at h
    rw [← Except.ok.inj h, hsent] at ht
    simp at ht

theorem wellSplit_of_roundTrip {hs : List Hop} {p : PacketDivisor} {aFor : Descriptor}
    {i : SplitInfo} {d : UserData} (hfound : p.limitsInfo.find aFor = some i)
    (hcan : i.canNotSplit = true) (hkey : p.mergeOp.find (mergeKey aFor d) = none)
    (hwhole : d.dataId.split = .default) (hdata : d.data ≠ []) (hfits : Fits16 hs d)
    (h : RoundTrip hs p aFor d) : WellSplit hs i d := by
  obtain ⟨ps, hps, hall⟩ := h
  have hcross := crossAll_arrived hs hwhole hdata hfits
  cases hplan : plan (meets d hs) [whole d.data.length] with
  | none =>
    rw [hplan] at hcross
    obtain ⟨e, he⟩ := hcross
    rw [hps] at he
    cases he
  | some qs =>
    rw [hplan] at hcross
    obtain ⟨ps', hps', harr⟩ := hcross
    obtain rfl : ps' = ps := Except.ok.inj (hps'.symm.trans hps)
    refine ⟨qs, hplan, ?_⟩
    have hlen := harr.shape.length_eq
    cases ps' with
    | nil => exact absurd harr.whole.symm hdata
    | cons x rest =>
      -- all the pieces are given in one call
      obtain ⟨rs, hrs, init, r, rfl, -, hsent, -, hnon, -⟩ :=
        hall [x :: rest] (by simp) (by simp)
      rw [sendAll] at hrs
      cases hcall : splitOrMergeIfNeed p aFor (x :: rest) with
      | error e => rw [hcall] at hrs; cases hrs
      | ok r' =>
        rw [hcall] at hrs
        have hr : [r'] = init ++ [r] := Except.ok.inj hrs
        obtain rfl : r' = r := by
          cases init with
          | nil => exact (List.cons.inj hr).1
          | cons _ init => simp at hr
        cases rest with
        | nil =>
          obtain ⟨rfl, hnot⟩ := harr.single hwhole
          rw [call_whole hfound hcan hnot] at hcall
          have hfit : i.maxSize = 0 ∨ i.dataSize x ≤ i.maxSize := by
            by_contra hfit
            rw [if_neg hfit] at hcall
            rw [← Except.ok.inj hcall] at hsent
            simp at hsent
          cases harr.shape with
          | cons hp hnil =>
            cases hnil
            exact ⟨⟨.inl (by simp), trivial⟩, fun _ => hfit⟩
        | cons y rest =>
          obtain ⟨init', z, heq, hinit, hz⟩ := harr.marked
          have hsp := harr.isSplited_of_two
          have hend : isEnd x = false := by
            cases init' with
            | nil => simp at heq
            | cons w init' => exact (List.cons.inj heq).1 ▸ hinit w List.mem_cons_self
          rw [splitOrMerge_group hfound hcan (ofPacket_of_pieceOf harr.shape) hsp] at hcall
          cases hloop : mergeLoop (mergeKey aFor d) 2 (x :: y :: rest) ⟨p.mergeOp, [], [], []⟩ with
          | error e => rw [hloop] at hcall; cases hcall
          | ok t =>
            rw [hloop] at hcall
            have ht : t.nonSent = [] := by rw [← Except.ok.inj hcall] at hnon; exact hnon
            obtain ⟨m, hm, he⟩ := mergeLoop_of_turn
              (opAfter_nil_of_first hkey harr.first_counter hend)
              (fun m hm => merge_rest rfl hm) ht hloop
            have hseq := sequenced_of_merge x.dataId heq rfl hinit hsp hm he
            rw [sequenced_iff harr.tiles harr.placed, harr.coefs_eq] at hseq
            refine ⟨hseq.2, fun hone => ?_⟩
            rw [hone] at hlen
            simp at hlen

/-- A channel that lets `n + 1` bytes of data through at a time. -/
def bytesHop (n : ℕ) : Hop where
  divisor := ⟨SortedMap.empty.insert 0 ⟨false, true, n + 1, none⟩, .empty⟩
  aFor := 0
  limits := ⟨false, true, n + 1, none⟩
  found := rfl
  canSplit := rfl
  isLimited := rfl
  limit_pos := Nat.succ_pos n
  overhead := fun _ => 0
  dataSize := fun _ => rfl
  overhead_split := fun _ _ => rfl

/-- A customer that can take whole packets only. -/
def wholeOnly : SplitInfo := ⟨true, false, 0, none⟩

def wholeOnlyDivisor : PacketDivisor := ⟨SortedMap.empty.insert 0 wholeOnly, .empty⟩

def packetOf (data : List Byte) : UserData :=
  ⟨⟨1, ['p'], 0, [], [7], [], ⟨⟨5, []⟩, [7]⟩, .default, .little, ⟨⟨0, 0, 0⟩, [1]⟩⟩, data⟩

/-- Splitting then merging is the identity exactly on the packets that are well split. -/
theorem roundTrip_iff_wellSplit {hs : List Hop} {p : PacketDivisor} {aFor : Descriptor}
    {i : SplitInfo} {d : UserData} (hfound : p.limitsInfo.find aFor = some i)
    (hcan : i.canNotSplit = true) (hkey : p.mergeOp.find (mergeKey aFor d) = none)
    (hwhole : d.dataId.split = .default) (hdata : d.data ≠ []) (hfits : Fits16 hs d) :
    RoundTrip hs p aFor d ↔ WellSplit hs i d :=
  ⟨wellSplit_of_roundTrip hfound hcan hkey hwhole hdata hfits,
    roundTrip_of_wellSplit hfound hcan hkey hwhole hdata hfits⟩

theorem roundTrip_two_bytes : RoundTrip [bytesHop 0] wholeOnlyDivisor 0 (packetOf [1, 2]) := by
  have hplan : plan (meets (packetOf [1, 2]) [bytesHop 0]) [whole 2] =
      some [⟨⟨false, 1, 2⟩, 1⟩, ⟨⟨true, 2, 2⟩, 1⟩] := by decide
  refine (roundTrip_iff_wellSplit (i := wholeOnly) rfl rfl rfl rfl (by decide) ?_).2
    ⟨_, hplan, ⟨.inl (by simp), .inr rfl, trivial⟩, by simp⟩
  intro qs hqs
  obtain rfl := Option.some.inj (hplan.symm.trans hqs)
  decide

/-- Three bytes to be sent one by one are to make four parts, of which the first has no byte. -/
theorem roundTrip_false_of_three_bytes :
    ¬ RoundTrip [bytesHop 0] wholeOnlyDivisor 0 (packetOf [1, 2, 3]) := by
  have hplan : plan (meets (packetOf [1, 2, 3]) [bytesHop 0]) [whole 3] = none := by decide
  intro h
  have hfits : Fits16 [bytesHop 0] (packetOf [1, 2, 3]) := by
    intro qs hqs
    cases hplan.symm.trans hqs
  obtain ⟨qs, hqs, -⟩ :=
    wellSplit_of_roundTrip (i := wholeOnly) rfl rfl rfl rfl (by decide) hfits h
  cases hplan.symm.trans hqs

end UdtKernel.Roundtrip
