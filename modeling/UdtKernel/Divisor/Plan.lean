import Mathlib.Tactic
import UdtKernel.Divisor.Split

set_option autoImplicit false

/-! How a packet is to be divided on its way, and how its pieces lie in its data. -/

namespace UdtKernel.Plan
open UdtKernel.Divisor

/-- The shape of a piece: its split record, not yet cut to 16 bits, and its size. -/
structure PieceSize where
  split : SplitPacket
  size : ℕ
  deriving DecidableEq

def whole (size : ℕ) : PieceSize := ⟨.default, size⟩

def planPartSplit (s : SplitPacket) (n i : ℕ) : SplitPacket :=
  { isLast := if i + 1 = n then s.isLast else false
    counter := (s.counter - 1) * n + 1 + i
    coefficient := s.coefficient * n }

def planPart (p : PieceSize) (n size i : ℕ) : PieceSize :=
  ⟨planPartSplit p.split n i, if i + 1 = n then p.size - size * i else size⟩

/-- How a piece crosses a channel of part size `limit` that counts `overhead` bytes of
    service header; nothing when the piece would have to be split but is too short for it, or
    its parts would have no byte. -/
def planPiece (limit overhead : ℕ) (p : PieceSize) : Option (List PieceSize) :=
  if p.size + overhead ≤ limit then some [p]
  else
    let partSize := clipPartSize p.size limit
    if partSize = 0 then none
    else
      let n := validNumPart p.size partSize
      if p.size / n = 0 then none
      else some ((List.range n).map (planPart p n (p.size / n)))

def planPieces (limit overhead : ℕ) : List PieceSize → Option (List PieceSize)
  | [] => some []
  | p :: ps => do
    let qs ← planPiece limit overhead p
    let rest ← planPieces limit overhead ps
    return qs ++ rest

/-- The shapes of the pieces a packet arrives in, from its size and the channels' limits and
    header sizes alone. -/
def plan : List (ℕ × ℕ) → List PieceSize → Option (List PieceSize)
  | [], ps => some ps
  | c :: cs, ps => do
    let qs ← planPieces c.1 c.2 ps
    plan cs qs

/-- Each coefficient is new or that of the piece just before; `seen` holds the coefficients
    already met, the latest first. -/
def LevelsTogether : List ℕ → List ℕ → Prop
  | _, [] => True
  | seen, k :: ks => (k ∉ seen ∨ seen.head? = some k) ∧ LevelsTogether (k :: seen) ks

def start (s : SplitPacket) : ℚ := ((s.counter : ℚ) - 1) / s.coefficient

def stop (s : SplitPacket) : ℚ := (s.counter : ℚ) / s.coefficient

/-- The pieces lie one after another from `a` to `b`, on the scale where the packet is `[0, 1]`. -/
def Tiles : ℚ → ℚ → List SplitPacket → Prop
  | a, b, [] => a = b
  | a, b, s :: ss => start s = a ∧ Tiles (stop s) b ss

theorem tiles_append {a b c : ℚ} {ss ts : List SplitPacket} (hs : Tiles a b ss)
    (ht : Tiles b c ts) : Tiles a c (ss ++ ts) := by
  induction ss generalizing a with
  | nil => exact (show a = b from hs) ▸ ht
  | cons s ss ih => exact ⟨hs.1, ih hs.2⟩

theorem tiles_split {a c : ℚ} {ss ts : List SplitPacket} (h : Tiles a c (ss ++ ts)) :
    ∃ b, Tiles a b ss ∧ Tiles b c ts := by
  induction ss generalizing a with
  | nil => exact ⟨a, rfl, h⟩
  | cons s ss ih =>
    obtain ⟨b, hb, ht⟩ := ih h.2
    exact ⟨b, ⟨h.1, hb⟩, ht⟩

theorem tiles_range (f : ℕ → SplitPacket) (a w : ℚ) (n : ℕ)
    (hstart : ∀ i < n, start (f i) = a + i * w) (hstop : ∀ i < n, stop (f i) = a + (i + 1) * w) :
    Tiles a (a + n * w) ((List.range n).map f) := by
  induction n with
  | zero => simp [Tiles]
  | succ n ih =>
    have hprev := ih (fun i hi => hstart i (by omega)) fun i hi => hstop i (by omega)
    rw [List.range_succ, List.map_append]
    refine tiles_append hprev ⟨hstart n (by omega), ?_⟩
    change stop (f n) = _
    rw [hstop n (by omega)]
    push_cast
    ring

def Placed (s : SplitPacket) : Prop := 0 < s.counter ∧ 0 < s.coefficient

theorem start_lt_stop {s : SplitPacket} (h : Placed s) : start s < stop s := by
  have hk : (0 : ℚ) < s.coefficient := by exact_mod_cast h.2
  unfold start stop
  exact (div_lt_div_iff_of_pos_right hk).2 (by linarith)

theorem tiles_le {a b : ℚ} {ss : List SplitPacket} (hp : ∀ s ∈ ss, Placed s)
    (h : Tiles a b ss) : a ≤ b := by
  induction ss generalizing a with
  | nil => exact le_of_eq h
  | cons s ss ih =>
    have hs := start_lt_stop (hp s List.mem_cons_self)
    have hle := ih (fun t ht => hp t (List.mem_cons_of_mem _ ht)) h.2
    rw [h.1] at hs
    exact hs.le.trans hle

theorem tiles_lt {a b : ℚ} {ss : List SplitPacket} (hp : ∀ s ∈ ss, Placed s) (hne : ss ≠ [])
    (h : Tiles a b ss) : a < b := by
  cases ss with
  | nil => exact absurd rfl hne
  | cons s ss =>
    have hs := start_lt_stop (hp s List.mem_cons_self)
    have hle := tiles_le (fun t ht => hp t (List.mem_cons_of_mem _ ht)) h.2
    rw [h.1] at hs
    exact lt_of_lt_of_le hs hle

/-- On one level, the next place starts where this one stops. -/
theorem counter_succ_iff {s t : SplitPacket} (ht : Placed t)
    (hk : s.coefficient = t.coefficient) : s.counter + 1 = t.counter ↔ stop s = start t := by
  have hk' : (t.coefficient : ℚ) ≠ 0 := by exact_mod_cast ht.2.ne'
  unfold start stop
  rw [hk, div_left_inj' hk', eq_sub_iff_add_eq]
  exact_mod_cast Iff.rfl

theorem counter_eq_one_iff {s : SplitPacket} (hs : Placed s) : s.counter = 1 ↔ start s = 0 := by
  have hk : (s.coefficient : ℚ) ≠ 0 := by exact_mod_cast hs.2.ne'
  unfold start
  rw [div_eq_zero_iff, or_iff_left hk, sub_eq_zero]
  exact_mod_cast Iff.rfl

/-- No piece but the last is marked as last, and the last is marked as `b` says. -/
def LastMarked (b : Bool) (ss : List SplitPacket) : Prop :=
  ∃ init z, ss = init ++ [z] ∧ (∀ s ∈ init, s.isLast = false) ∧ z.isLast = b

theorem lastMarked_singleton (s : SplitPacket) : LastMarked s.isLast [s] :=
  ⟨[], s, rfl, by simp, rfl⟩

theorem lastMarked_append {b : Bool} {ss ts : List SplitPacket} (hs : LastMarked false ss)
    (ht : LastMarked b ts) : LastMarked b (ss ++ ts) := by
  obtain ⟨init, z, rfl, hinit, hz⟩ := hs
  obtain ⟨init', z', rfl, hinit', hz'⟩ := ht
  refine ⟨init ++ [z] ++ init', z', by simp, fun s hs => ?_, hz'⟩
  simp only [List.mem_append, List.mem_singleton] at hs
  rcases hs with (hs | rfl) | hs
  · exact hinit s hs
  · exact hz
  · exact hinit' s hs

theorem lastMarked_cons {b : Bool} {s : SplitPacket} {ss : List SplitPacket} (h : ss ≠ [])
    (hs : LastMarked b (s :: ss)) : s.isLast = false ∧ LastMarked b ss := by
  obtain ⟨init, z, heq, hinit, hz⟩ := hs
  cases init with
  | nil =>
    simp only [List.nil_append, List.cons.injEq] at heq
    exact absurd heq.2 h
  | cons t init =>
    simp only [List.cons_append, List.cons.injEq] at heq
    refine ⟨heq.1 ▸ hinit t List.mem_cons_self, init, z, heq.2, fun r hr => ?_, hz⟩
    exact hinit r (List.mem_cons_of_mem _ hr)

theorem lastMarked_range (f : ℕ → SplitPacket) (n : ℕ)
    (hmid : ∀ i < n, (f i).isLast = false) :
    LastMarked (f n).isLast ((List.range (n + 1)).map f) := by
  refine ⟨(List.range n).map f, f n, by simp [List.range_succ], fun s hs => ?_, rfl⟩
  obtain ⟨i, hi, rfl⟩ := List.mem_map.1 hs
  exact hmid i (List.mem_range.1 hi)

theorem two_le_validNumPart {size partSize : ℕ} (hp : 0 < partSize) (hs : partSize < size) :
    2 ≤ validNumPart size partSize := by
  have hdiv : 0 < size / partSize := Nat.div_pos hs.le hp
  unfold validNumPart
  dsimp only
  split_ifs <;> omega

theorem clipPartSize_lt {size aPartSize : ℕ} (h : 0 < clipPartSize size aPartSize) :
    clipPartSize size aPartSize < size := by
  unfold clipPartSize at *
  split_ifs at * <;> omega

/-- The parts of a piece tile its place, keep its mark and stand at finer levels. -/
theorem planPartSplit_spec (s : SplitPacket) (hs : Placed s) (n : ℕ) (hn : 2 ≤ n) :
    Tiles (start s) (stop s) ((List.range n).map (planPartSplit s n)) ∧
    LastMarked s.isLast ((List.range n).map (planPartSplit s n)) ∧
    ∀ t ∈ (List.range n).map (planPartSplit s n), Placed t := by
  obtain ⟨m, rfl⟩ : ∃ m, n = m + 1 := ⟨n - 1, by omega⟩
  have hk : (s.coefficient : ℚ) ≠ 0 := by exact_mod_cast hs.2.ne'
  have hm : ((m : ℚ) + 1) ≠ 0 := by positivity
  have hc : ((s.counter - 1 : ℕ) : ℚ) = (s.counter : ℚ) - 1 := by
    rw [Nat.cast_sub hs.1, Nat.cast_one]
  refine ⟨?_, ?_, fun t ht => ?_⟩
  · have ht := tiles_range (planPartSplit s (m + 1)) (start s)
      (1 / (s.coefficient * ((m : ℚ) + 1))) (m + 1) (fun i _ => ?_) fun i _ => ?_
    · convert ht using 1
      unfold start stop
      push_cast
      field_simp
      ring
    · simp only [start, planPartSplit]
      push_cast [hc]
      field_simp
      ring
    · simp only [start, stop, planPartSplit]
      push_cast [hc]
      field_simp
      ring
  · have hend : (planPartSplit s (m + 1) m).isLast = s.isLast := by simp [planPartSplit]
    rw [← hend]
    refine lastMarked_range _ m fun i hi => ?_
    have hne : ¬ i + 1 = m + 1 := by omega
    simp only [planPartSplit, hne, if_false]
  · obtain ⟨i, -, rfl⟩ := List.mem_map.1 ht
    exact ⟨by simp only [planPartSplit]; omega, Nat.mul_pos hs.2 (by omega)⟩

def splits (ps : List PieceSize) : List SplitPacket := ps.map PieceSize.split

theorem planPiece_spec {limit overhead : ℕ} {p : PieceSize} {qs : List PieceSize}
    (hp : Placed p.split) (h : planPiece limit overhead p = some qs) :
    Tiles (start p.split) (stop p.split) (splits qs) ∧
    LastMarked p.split.isLast (splits qs) ∧ ∀ t ∈ splits qs, Placed t := by
  unfold planPiece at h
  split at h
  · obtain rfl := Option.some.inj h
    exact ⟨⟨rfl, rfl⟩, lastMarked_singleton p.split, by simpa [splits] using hp⟩
  · dsimp only at h
    split_ifs at h with hover hzero
    · obtain rfl := Option.some.inj h
      have hpos : 0 < clipPartSize p.size limit := by omega
      have hspec := planPartSplit_spec p.split hp _
        (two_le_validNumPart hpos (clipPartSize_lt hpos))
      simpa [splits, planPart, Function.comp_def] using hspec

/-- No piece of a plan is without a byte. -/
def Filled (qs : List PieceSize) : Prop := ∀ q ∈ qs, q.size ≠ 0

theorem planPart_size_pos {p : PieceSize} {n i : ℕ} (hn : p.size / n ≠ 0) :
    (planPart p n (p.size / n) i).size ≠ 0 := by
  simp only [planPart]
  split_ifs with hend
  · have hle : p.size / n * (i + 1) ≤ p.size := by
      rw [hend]
      exact Nat.div_mul_le_self p.size n
    have hpos : 0 < p.size / n := Nat.pos_of_ne_zero hn
    rw [Nat.mul_succ] at hle
    exact (Nat.sub_pos_of_lt (lt_of_lt_of_le (Nat.lt_add_of_pos_right hpos) hle)).ne'
  · exact hn

theorem planPiece_filled {limit overhead : ℕ} {p : PieceSize} {qs : List PieceSize}
    (hp : p.size ≠ 0) (h : planPiece limit overhead p = some qs) : Filled qs := by
  unfold planPiece at h
  dsimp only at h
  split_ifs at h with hover hzero hpart
  · obtain rfl := Option.some.inj h
    intro q hq
    exact List.mem_singleton.1 hq ▸ hp
  · obtain rfl := Option.some.inj h
    intro q hq
    obtain ⟨i, -, rfl⟩ := List.mem_map.1 hq
    exact planPart_size_pos hpart

theorem planPieces_filled {limit overhead : ℕ} {ps qs : List PieceSize} (hps : Filled ps)
    (h : planPieces limit overhead ps = some qs) : Filled qs := by
  induction ps generalizing qs with
  | nil => exact Option.some.inj h ▸ hps
  | cons p ps ih =>
    simp only [planPieces, Option.bind_eq_bind, Option.bind_eq_some_iff, Option.pure_def,
      Option.some.injEq] at h
    obtain ⟨rs, hrs, rest, hrest, rfl⟩ := h
    have hfirst := planPiece_filled (hps p List.mem_cons_self) hrs
    have hothers := ih (fun q hq => hps q (List.mem_cons_of_mem _ hq)) hrest
    intro q hq
    rcases List.mem_append.1 hq with hq | hq
    · exact hfirst q hq
    · exact hothers q hq

theorem plan_filled {cs : List (ℕ × ℕ)} {ps qs : List PieceSize} (hps : Filled ps)
    (h : plan cs ps = some qs) : Filled qs := by
  induction cs generalizing ps with
  | nil => exact Option.some.inj h ▸ hps
  | cons c cs ih =>
    simp only [plan, Option.bind_eq_bind, Option.bind_eq_some_iff] at h
    obtain ⟨rs, hrs, hrest⟩ := h
    exact ih (planPieces_filled hps hrs) hrest

/-- What holds of the pieces of one packet before and after each channel. -/
structure Laid (a b : ℚ) (ps : List PieceSize) : Prop where
  tiles : Tiles a b (splits ps)
  marked : LastMarked true (splits ps)
  placed : ∀ s ∈ splits ps, Placed s

theorem planPieces_laid {limit overhead : ℕ} {ps qs : List PieceSize} {a b : ℚ}
    (hl : Laid a b ps) (h : planPieces limit overhead ps = some qs) : Laid a b qs := by
  induction ps generalizing a qs with
  | nil =>
    obtain ⟨init, z, heq, -⟩ := hl.marked
    simp [splits] at heq
  | cons p ps ih =>
    simp only [planPieces, Option.bind_eq_bind, Option.bind_eq_some_iff, Option.pure_def,
      Option.some.injEq] at h
    obtain ⟨rs, hrs, rest, hrest, rfl⟩ := h
    obtain ⟨htile, hlast, hplaced⟩ := planPiece_spec (hl.placed p.split List.mem_cons_self) hrs
    rw [hl.tiles.1] at htile
    by_cases hnil : ps = []
    · subst hnil
      obtain rfl : rest = [] := (Option.some.inj hrest).symm
      have hpl : p.split.isLast = true := by
        obtain ⟨init, z, heq, -, hz⟩ := hl.marked
        cases init with
        | nil =>
          simp only [splits, List.map_cons, List.map_nil, List.nil_append, List.cons.injEq] at heq
          exact heq.1 ▸ hz
        | cons q init => simp [splits] at heq
      rw [List.append_nil]
      exact ⟨(show stop p.split = b from hl.tiles.2) ▸ htile, hpl ▸ hlast, hplaced⟩
    · obtain ⟨hpl, hl'⟩ := lastMarked_cons (by simpa [splits] using hnil) hl.marked
      have hr := ih ⟨hl.tiles.2, hl', fun s hs => hl.placed s (List.mem_cons_of_mem _ hs)⟩ hrest
      refine ⟨?_, ?_, fun s hs => ?_⟩
      · rw [splits, List.map_append]
        exact tiles_append htile hr.tiles
      · rw [splits, List.map_append]
        exact lastMarked_append (hpl ▸ hlast) hr.marked
      · rw [splits, List.map_append] at hs
        rcases List.mem_append.1 hs with hs | hs
        · exact hplaced s hs
        · exact hr.placed s hs

theorem plan_laid {cs : List (ℕ × ℕ)} {ps qs : List PieceSize} (hl : Laid 0 1 ps)
    (h : plan cs ps = some qs) : Laid 0 1 qs := by
  induction cs generalizing ps with
  | nil => exact Option.some.inj h ▸ hl
  | cons c cs ih =>
    simp only [plan, Option.bind_eq_bind, Option.bind_eq_some_iff] at h
    obtain ⟨rs, hrs, hrest⟩ := h
    exact ih (planPieces_laid hl hrs) hrest

theorem whole_laid (size : ℕ) : Laid 0 1 [whole size] := by
  refine ⟨⟨?_, ?_⟩, lastMarked_singleton _, ?_⟩
  · simp [start, whole, SplitPacket.default]
  · simp [stop, whole, SplitPacket.default, Tiles]
  · simp [splits, whole, SplitPacket.default, Placed]

end UdtKernel.Plan
