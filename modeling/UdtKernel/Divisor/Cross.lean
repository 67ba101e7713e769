import UdtKernel.Divisor.Plan
import UdtKernel.Lib.Outcome

set_option autoImplicit false

/-! A packet that crosses several channels, each of which splits what is too long for it. -/

namespace UdtKernel.Cross
open UdtKernel.Lib UdtKernel.Divisor UdtKernel.Plan

/-- A channel on the way: a descriptor whose limit may be met by splitting. The size that is
    compared with the limit counts the service header, which does not depend on the split. -/
structure Hop where
  divisor : PacketDivisor
  aFor : Descriptor
  limits : SplitInfo
  found : divisor.limitsInfo.find aFor = some limits
  canSplit : limits.canNotSplit = false
  isLimited : limits.limited = true
  limit_pos : 0 < limits.maxSize
  overhead : UserDataInfo → ℕ
  dataSize : ∀ d, limits.dataSize d = d.data.length + overhead d.dataId
  overhead_split : ∀ info s, overhead { info with split := s } = overhead info

def Hop.cross (h : Hop) (what : List UserData) : Except Abort (List UserData) := do
  let r ← splitOrMergeIfNeed h.divisor h.aFor what
  return r.sent

def crossAll : List Hop → List UserData → Except Abort (List UserData)
  | [], what => .ok what
  | h :: hs, what => do
    let ps ← h.cross what
    crossAll hs ps

/-- The limit and the header size a packet meets on each hop. -/
def meets (d : UserData) (hs : List Hop) : List (ℕ × ℕ) :=
  hs.map fun h => (h.limits.maxSize, h.overhead d.dataId)

def cut (s : SplitPacket) : SplitPacket :=
  ⟨s.isLast, s.counter % 2 ^ 16, s.coefficient % 2 ^ 16⟩

/-- `p` is a piece of `d` of the planned shape, its fields cut to 16 bits. -/
def PieceOf (d : UserData) (p : UserData) (q : PieceSize) : Prop :=
  p.dataId = { d.dataId with split := cut q.split } ∧ p.data.length = q.size

def bytes (ps : List UserData) : List Byte := ps.flatMap UserData.data

@[simp] theorem bytes_nil : bytes [] = [] := rfl

@[simp] theorem bytes_cons (p : UserData) (ps : List UserData) :
    bytes (p :: ps) = p.data ++ bytes ps := List.flatMap_cons ..

@[simp] theorem bytes_append (ps qs : List UserData) : bytes (ps ++ qs) = bytes ps ++ bytes qs :=
  List.flatMap_append

theorem toUint16_natCast (n : ℕ) : toUint16 n = n % 2 ^ 16 := by
  unfold toUint16
  omega

theorem cut_planPartSplit (s : SplitPacket) (hs : 0 < s.counter) (n i : ℕ) :
    (⟨if i + 1 = n then (cut s).isLast else false,
      toUint16 ((cut s).counter * n - n + 1 + i),
      toUint16 ((cut s).coefficient * n)⟩ : SplitPacket) = cut (planPartSplit s n i) := by
  have hcounter : toUint16 ((cut s).counter * n - n + 1 + i) =
      ((s.counter - 1) * n + 1 + i) % 2 ^ 16 := by
    rw [← toUint16_natCast]
    unfold toUint16 cut
    congr 1
    obtain ⟨c, hc⟩ : ∃ c, s.counter = c + 1 := ⟨s.counter - 1, by omega⟩
    rw [hc]
    push_cast
    have hwrap : ((c : ℤ) + 1) % 65536 * n - n + 1 + i =
        (c + 1 - 1) * n + 1 + i + 65536 * (-(((c : ℤ) + 1) / 65536) * n) := by
      rw [Int.emod_def]
      ring
    norm_num [hwrap]
  have hcoef : toUint16 ((cut s).coefficient * n) = s.coefficient * n % 2 ^ 16 := by
    rw [← Nat.cast_mul, toUint16_natCast]
    exact Nat.mod_mul_mod ..
  simp only [planPartSplit, hcounter, hcoef]
  rfl

theorem bytes_parts (d : List Byte) (size m : ℕ) :
    (List.range m).flatMap (fun i => (d.drop (size * i)).take size) = d.take (size * m) := by
  induction m with
  | zero => simp
  | succ m ih =>
    rw [List.range_succ, List.flatMap_append, ih, Nat.mul_succ, List.take_add]
    simp

/-- Whatever the size of the first parts, the last one takes the rest. -/
theorem bytes_map_part (p : UserData) (size m : ℕ) :
    bytes ((List.range (m + 1)).map (part p (m + 1) size)) = p.data := by
  have hmid : bytes ((List.range m).map (part p (m + 1) size)) = p.data.take (size * m) := by
    rw [← bytes_parts, bytes, List.flatMap_map]
    refine List.flatMap_congr fun i hi => ?_
    have hne : i ≠ m := by have := List.mem_range.1 hi; omega
    simp [part, hne]
  rw [List.range_succ, List.map_append, bytes_append, hmid]
  simp [part, List.take_append_drop]

/-- All parts but the last have the same length, the last one has the rest besides. -/
theorem part_data_length {d : UserData} {n i : ℕ} (hi : i < n) :
    (part d n (d.data.length / n) i).data.length =
      d.data.length / n + if i + 1 = n then d.data.length % n else 0 := by
  obtain ⟨m, rfl⟩ : ∃ m, n = m + 1 := ⟨n - 1, by omega⟩
  have hdiv := Nat.div_add_mod' d.data.length (m + 1)
  rw [Nat.mul_succ, Nat.add_assoc] at hdiv
  by_cases hend : i = m
  · subst hend
    simp only [part, if_true, List.length_drop]
    exact Nat.sub_eq_of_eq_add' hdiv.symm
  · have hle : d.data.length / (m + 1) * (i + 1) ≤ d.data.length / (m + 1) * m :=
      Nat.mul_le_mul_left _ (by omega)
    rw [Nat.mul_succ] at hle
    have hfit := hle.trans (Nat.le.intro hdiv)
    simp only [part, Nat.succ_inj, hend, if_false, List.length_take, List.length_drop]
    omega

/-- Each part is made out of its bytes, unless there are more parts than bytes. -/
theorem mapM_makePart {d : UserData} {n : ℕ} (hn : 2 ≤ n) :
    (List.range n).mapM (makePart d n (d.data.length / n)) =
      if d.data.length / n = 0 then .error .emptyRange
      else .ok ((List.range n).map (part d n (d.data.length / n))) := by
  split_ifs with hzero
  · obtain ⟨m, rfl⟩ : ∃ m, n = m + 1 := ⟨n - 1, by omega⟩
    have hfirst : (part d (m + 1) (d.data.length / (m + 1)) 0).data = [] := by
      have hne : ¬ m = 0 := by omega
      simp [part, hne, hzero]
    have hmake : makePart d (m + 1) (d.data.length / (m + 1)) 0 = .error .emptyRange := by
      rw [makePart, hfirst, insertRange_nil]
      rfl
    rw [List.range_succ_eq_map, List.mapM_cons, hmake]
    rfl
  · refine mapM_ok fun i hi => ?_
    have hdata : (part d n (d.data.length / n) i).data ≠ [] := by
      refine List.ne_nil_of_length_pos ?_
      rw [part_data_length (List.mem_range.1 hi)]
      exact Nat.add_pos_left (Nat.pos_of_ne_zero hzero) _
    rw [makePart, insertRange_eq [] hdata]
    rfl

/-- `MSplit` gives the parts if there are two bytes or more, a limit, and a byte for each part. -/
theorem split_eq_ite (d : UserData) (aPartSize : ℕ) :
    let n := validNumPart d.data.length (clipPartSize d.data.length aPartSize)
    Divisor.split d aPartSize = if d.data.length = 0 then .error .splitOfEmptyData
      else if clipPartSize d.data.length aPartSize = 0 then .error .splitByZero
      else if d.data.length / n = 0 then .error .emptyRange
      else .ok ((List.range n).map (part d n (d.data.length / n))) := by
  intro n
  unfold Divisor.split
  dsimp only
  by_cases hclip : clipPartSize d.data.length aPartSize = 0
  · rw [if_pos hclip, if_pos hclip]
  · have hpos : 0 < clipPartSize d.data.length aPartSize := by omega
    rw [if_neg hclip, if_neg hclip, mapM_makePart (two_le_validNumPart hpos (clipPartSize_lt hpos))]

/-- The parts of a piece have the planned shapes and carry its bytes in order. -/
theorem part_spec {d p : UserData} {q : PieceSize} (h : PieceOf d p q) (hq : 0 < q.split.counter)
    (n : ℕ) (hn : 2 ≤ n) :
    List.Forall₂ (PieceOf d) ((List.range n).map (part p n (q.size / n)))
      ((List.range n).map (planPart q n (q.size / n))) ∧
    bytes ((List.range n).map (part p n (q.size / n))) = p.data := by
  obtain ⟨m, rfl⟩ : ∃ m, n = m + 1 := ⟨n - 1, by omega⟩
  have hle : q.size / (m + 1) * (m + 1) ≤ q.size := Nat.div_mul_le_self ..
  refine ⟨?_, ?_⟩
  · rw [List.forall₂_map_left_iff, List.forall₂_map_right_iff, List.forall₂_same]
    intro i hi
    refine ⟨?_, ?_⟩
    · have hcut := cut_planPartSplit q.split hq (m + 1) i
      simp only [part, planPart, h.1]
      rw [← hcut]
    · by_cases hend : i + 1 = m + 1
      · simp [part, planPart, hend, h.2]
      · have hi' : i + 1 ≤ m := by have := List.mem_range.1 hi; omega
        have hfit : q.size / (m + 1) * i + q.size / (m + 1) ≤ q.size := by
          rw [← Nat.mul_succ]
          exact (Nat.mul_le_mul_left _ (by omega)).trans hle
        simp only [part, planPart, hend, if_false, List.length_take, List.length_drop, h.2]
        omega
  · exact bytes_map_part p _ m

theorem split_spec {d p : UserData} {q : PieceSize} {limit overhead : ℕ} (h : PieceOf d p q)
    (hq : 0 < q.split.counter) (hover : ¬ q.size + overhead ≤ limit) :
    match planPiece limit overhead q with
    | none => ∃ e, Divisor.split p limit = .error e
    | some qs => ∃ ps, Divisor.split p limit = .ok ps ∧ List.Forall₂ (PieceOf d) ps qs ∧
        bytes ps = p.data := by
  have hsplit := split_eq_ite p limit
  dsimp only at hsplit
  rw [h.2] at hsplit
  rw [planPiece, if_neg hover, hsplit]
  by_cases hz : clipPartSize q.size limit = 0
  · rw [hz, if_pos rfl, if_pos rfl]
    by_cases hs : q.size = 0
    · exact ⟨.splitOfEmptyData, if_pos hs⟩
    · exact ⟨.splitByZero, if_neg hs⟩
  · have hpos : 0 < clipPartSize q.size limit := by omega
    have hlt := clipPartSize_lt hpos
    have hs : q.size ≠ 0 := by omega
    obtain ⟨hparts, hbytes⟩ := part_spec h hq _ (two_le_validNumPart hpos hlt)
    simp only [hz, hs, if_false]
    split_ifs with hpart
    · exact ⟨.emptyRange, rfl⟩
    · exact ⟨_, rfl, hparts, hbytes⟩

/-- A hop does to a list of pieces what the plan says of their shapes. -/
theorem sendLoop_planned (h : Hop) {d : UserData} {ps : List UserData} {qs : List PieceSize}
    (hr : List.Forall₂ (PieceOf d) ps qs) (hq : ∀ q ∈ qs, 0 < q.split.counter) (s : Sending) :
    match planPieces h.limits.maxSize (h.overhead d.dataId) qs with
    | none => ∃ e, sendLoop h.aFor h.limits ps s = .error e
    | some qs' => ∃ ps', sendLoop h.aFor h.limits ps s = .ok { s with sent := s.sent ++ ps' } ∧
        List.Forall₂ (PieceOf d) ps' qs' ∧ bytes ps' = bytes ps := by
  induction hr generalizing s with
  | nil => exact ⟨[], by simp [sendLoop], .nil, rfl⟩
  | cons hp hrest ih =>
    rename_i p q ps qs
    have ih' := ih fun r hr => hq r (List.mem_cons_of_mem _ hr)
    have hsize : h.limits.dataSize p = q.size + h.overhead d.dataId := by
      rw [h.dataSize, hp.2, hp.1, h.overhead_split]
    have hlim : ¬ h.limits.maxSize = 0 := h.limit_pos.ne'
    by_cases hfit : q.size + h.overhead d.dataId ≤ h.limits.maxSize
    · have hstep : sendLoop h.aFor h.limits (p :: ps) s =
          sendLoop h.aFor h.limits ps { s with sent := s.sent ++ [p] } := by
        rw [sendLoop]
        simp [h.canSplit, h.isLimited, hsize, hfit]
      have hplan : planPiece h.limits.maxSize (h.overhead d.dataId) q = some [q] := if_pos hfit
      have hnext := ih' { s with sent := s.sent ++ [p] }
      rw [hstep, planPieces, hplan]
      cases hqs : planPieces h.limits.maxSize (h.overhead d.dataId) qs with
      | none => simpa [hqs] using hnext
      | some qs' =>
        rw [hqs] at hnext
        obtain ⟨ps', hps', hrel, hb⟩ := hnext
        exact ⟨p :: ps', by simpa using hps', .cons hp hrel, by simp [hb]⟩
    · have hstep : sendLoop h.aFor h.limits (p :: ps) s =
          Divisor.split p h.limits.maxSize >>= fun rs =>
            sendLoop h.aFor h.limits ps { s with sent := s.sent ++ rs } := by
        rw [sendLoop]
        simp [h.canSplit, h.isLimited, hsize, hfit, hlim]
      have hsplit := split_spec hp (hq q List.mem_cons_self) hfit
      rw [hstep, planPieces]
      cases hplan : planPiece h.limits.maxSize (h.overhead d.dataId) q with
      | none =>
        rw [hplan] at hsplit
        obtain ⟨e, he⟩ := hsplit
        exact ⟨e, by rw [he]; rfl⟩
      | some rs =>
        rw [hplan] at hsplit
        obtain ⟨ts, hts, hrel, hb⟩ := hsplit
        rw [hts]
        change match (do let rest ← planPieces h.limits.maxSize (h.overhead d.dataId) qs
                         return rs ++ rest) with
          | none => ∃ e, sendLoop h.aFor h.limits ps { s with sent := s.sent ++ ts } = .error e
          | some qs' => ∃ ps', sendLoop h.aFor h.limits ps { s with sent := s.sent ++ ts } =
              .ok { s with sent := s.sent ++ ps' } ∧ List.Forall₂ (PieceOf d) ps' qs' ∧
              bytes ps' = bytes (p :: ps)
        have hnext := ih' { s with sent := s.sent ++ ts }
        cases hqs : planPieces h.limits.maxSize (h.overhead d.dataId) qs with
        | none => simpa [hqs] using hnext
        | some qs' =>
          rw [hqs] at hnext
          obtain ⟨ps', hps', hrel', hb'⟩ := hnext
          refine ⟨ts ++ ps', by simpa using hps', ?_, by simp [hb, hb']⟩
          exact List.rel_append hrel hrel'

theorem cross_planned (h : Hop) {d : UserData} {ps : List UserData} {qs : List PieceSize}
    (hr : List.Forall₂ (PieceOf d) ps qs) (hq : ∀ q ∈ qs, 0 < q.split.counter) :
    match planPieces h.limits.maxSize (h.overhead d.dataId) qs with
    | none => ∃ e, h.cross ps = .error e
    | some qs' => ∃ ps', h.cross ps = .ok ps' ∧ List.Forall₂ (PieceOf d) ps' qs' ∧
        bytes ps' = bytes ps := by
  have hs := sendLoop_planned h hr hq ⟨h.divisor.mergeOp, [], [], []⟩
  cases hplan : planPieces h.limits.maxSize (h.overhead d.dataId) qs with
  | none =>
    rw [hplan] at hs
    obtain ⟨e, he⟩ := hs
    exact ⟨e, by simp [Hop.cross, splitOrMergeIfNeed, h.found, he]⟩
  | some qs' =>
    rw [hplan] at hs
    obtain ⟨ps', hps', hrel, hb⟩ := hs
    exact ⟨ps', by simp [Hop.cross, splitOrMergeIfNeed, h.found, hps'], hrel, hb⟩

theorem crossAll_planned (hs : List Hop) {d : UserData} {ps : List UserData}
    {qs : List PieceSize} (hr : List.Forall₂ (PieceOf d) ps qs) (hl : Laid 0 1 qs) :
    match plan (meets d hs) qs with
    | none => ∃ e, crossAll hs ps = .error e
    | some qs' => ∃ ps', crossAll hs ps = .ok ps' ∧ List.Forall₂ (PieceOf d) ps' qs' ∧
        bytes ps' = bytes ps := by
  induction hs generalizing ps qs with
  | nil => exact ⟨ps, rfl, hr, rfl⟩
  | cons h hs ih =>
    have hq : ∀ q ∈ qs, 0 < q.split.counter := fun q hq =>
      (hl.placed q.split (List.mem_map_of_mem hq)).1
    have hcross := cross_planned h hr hq
    simp only [meets, List.map_cons, plan, crossAll]
    cases hplan : planPieces h.limits.maxSize (h.overhead d.dataId) qs with
    | none =>
      rw [hplan] at hcross
      obtain ⟨e, he⟩ := hcross
      exact ⟨e, by rw [he]; rfl⟩
    | some rs =>
      rw [hplan] at hcross
      obtain ⟨ps', hps', hrel, hb⟩ := hcross
      have hnext := ih hrel (planPieces_laid hl hplan)
      rw [hps']
      simp only [meets] at hnext
      rw [hb] at hnext
      exact hnext

end UdtKernel.Cross
