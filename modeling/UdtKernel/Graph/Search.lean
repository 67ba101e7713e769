import UdtKernel.Graph.Route
import UdtKernel.Lib.Outcome
import Mathlib.Data.List.Perm.Subperm

set_option autoImplicit false

/-! What holds of the distances while the search for ways goes on. -/

namespace UdtKernel.RouteGraph
open UdtKernel.Lib

/-- The latency of the edge from `u` to `v`. -/
def edge (g : RouteGraph) (u v : Uuid) : Option ℤ := (g.vertices.find u).bind (·.find v)

/-- A value of `latency_t` that is not negative. -/
def IsLatency (n : ℤ) : Prop := 0 ≤ n ∧ n < 2 ^ 31

instance (n : ℤ) : Decidable (IsLatency n) := inferInstanceAs (Decidable (_ ∧ _))

structure WellFormed (g : RouteGraph) : Prop where
  vertex : ∀ {u v w}, g.edge u v = some w → g.isVertex v = true
  latency : ∀ {u v w}, g.edge u v = some w → IsLatency w

theorem isVertex_iff {g : RouteGraph} {u : Uuid} :
    g.isVertex u = true ↔ ∃ edges, g.vertices.find u = some edges := Option.isSome_iff_exists

theorem edge_of_mem {g : RouteGraph} {u : Uuid} {edges : Vertexs}
    (hu : g.vertices.find u = some edges) {e : Uuid × ℤ} (he : e ∈ edges.entries) :
    g.edge u e.1 = some e.2 := by
  rw [edge, hu]
  exact (SortedMap.mem_entries_iff ..).1 he

theorem mem_of_edge {g : RouteGraph} {u v : Uuid} {w : ℤ} (h : g.edge u v = some w) :
    ∃ edges, g.vertices.find u = some edges ∧ (v, w) ∈ edges.entries := by
  obtain ⟨edges, hu, hv⟩ := Option.bind_eq_some_iff.1 h
  exact ⟨edges, hu, (SortedMap.mem_entries_iff ..).2 hv⟩

/-- A sum of two latencies is exact or negative. -/
theorem toLatency_add {a b : ℤ} (ha : IsLatency a) (hb : IsLatency b) :
    toLatency (a + b) < 0 ∨ toLatency (a + b) = a + b ∧ IsLatency (a + b) := by
  obtain ⟨ha0, ha1⟩ := ha
  obtain ⟨hb0, hb1⟩ := hb
  unfold toLatency IsLatency
  rw [Int.bmod_def]
  have hmod : (a + b) % ((2 ^ 32 : ℕ) : ℤ) = a + b := Int.emod_eq_of_lt (by omega) (by omega)
  rw [hmod]
  omega

/-- What one edge changes: a distance only where there was none. -/
structure Relaxed (u : Uuid) (dist : ℤ) (e : Uuid × ℤ) (s s' : Search) : Prop where
  through : toLatency (dist + e.2) = dist + e.2 ∧ IsLatency (dist + e.2)
  minDistance : s'.info.minDistance = s.info.minDistance.insertNew e.1 (dist + e.2)
  changed : (s.info.minDistance.find e.1).all (dist + e.2 < ·) = true →
    s'.info.previous = s.info.previous.insert e.1 u ∧
    s'.queue = (match s.info.minDistance.find e.1 with
      | some d => s.queue.erase (toLex (d, e.1))
      | none => s.queue).insert
        (toLex ((s.info.minDistance.find e.1).getD (dist + e.2), e.1)) ()
  kept : (s.info.minDistance.find e.1).all (dist + e.2 < ·) = false →
    s'.info.previous = s.info.previous ∧ s'.queue = s.queue

theorem relax_spec {u : Uuid} {dist : ℤ} {s : Search} {e : Uuid × ℤ} (hdist : IsLatency dist)
    (he : IsLatency e.2) :
    Outcome (· = .negativeLatency) (Relaxed u dist e s) (relax u dist s e) := by
  unfold relax
  rcases toLatency_add hdist he with hneg | ⟨heq, hlat⟩
  · rw [if_pos (.inl hneg)]
    rfl
  · rw [heq, if_neg (by unfold IsLatency at hlat he; omega)]
    cases hall : (s.info.minDistance.find e.1).all (dist + e.2 < ·) with
    | true =>
      simp only [hall, if_true]
      refine Outcome.ok ⟨⟨heq, hlat⟩, rfl, fun _ => ⟨rfl, ?_⟩, fun h => ?_⟩
      · rw [SortedMap.find_insertNew, if_pos rfl]
        cases s.info.minDistance.find e.1 <;> rfl
      · exact absurd (hall.symm.trans h) (by decide)
    | false =>
      simp only [hall, Bool.false_eq_true, if_false]
      refine Outcome.ok ⟨⟨heq, hlat⟩, SortedMap.ext_find fun v => ?_, fun h => ?_,
        fun _ => ⟨rfl, rfl⟩⟩
      swap
      · exact absurd (hall.symm.trans h) (by decide)
      rw [SortedMap.find_insertNew]
      split_ifs with hv
      · subst hv
        cases hfind : s.info.minDistance.find e.1 with
        | none => rw [hfind] at hall; cases hall
        | some d => rfl
      · rfl

/-- What holds of a search from `source` after the vertices `visited`, in this order; the last
    one is `dist` away. -/
structure Searching (g : RouteGraph) (source : Uuid) (visited : List Uuid) (dist : ℤ)
    (s : Search) : Prop where
  isLatency : IsLatency dist
  atSource : s.info.minDistance.find source = some 0
  vertex : ∀ {v d}, s.info.minDistance.find v = some d → g.isVertex v = true ∧ IsLatency d
  known : ∀ v ∈ visited, ∃ d, s.info.minDistance.find v = some d ∧ d ≤ dist
  later : ∀ {v d}, s.info.minDistance.find v = some d → v ∉ visited → dist ≤ d
  queue : ∀ d v, s.queue.find (toLex (d, v)) = some () ↔
    s.info.minDistance.find v = some d ∧ v ∉ visited
  nodup : visited.Nodup
  hasPrevious : ∀ {v d}, s.info.minDistance.find v = some d → v ≠ source →
    ∃ u, s.info.previous.find v = some u
  previous : ∀ {v u}, s.info.previous.find v = some u → v ≠ source ∧
    (∃ d, s.info.minDistance.find v = some d) ∧ (∃ c, g.edge u v = some c) ∧
    visited.idxOf u < visited.idxOf v

theorem searching_start {g : RouteGraph} {source : Uuid} (h : g.isVertex source = true) :
    Searching g source [] 0 (startSearch source) := by
  have hfind : ∀ v d, (startSearch source).info.minDistance.find v = some d ↔
      v = source ∧ d = 0 := by
    intro v d
    unfold startSearch
    rw [SortedMap.find_insert]
    split_ifs with hv
    · simp [hv, eq_comm]
    · simp [hv]
  refine ⟨⟨le_refl 0, by decide⟩, (hfind _ _).2 ⟨rfl, rfl⟩, fun hv => ?_,
    fun v hv => absurd hv List.not_mem_nil, fun hv _ => ?_, fun d v => ?_, List.nodup_nil,
    fun hv hne => ?_, fun hv => ?_⟩
  · obtain ⟨rfl, rfl⟩ := (hfind _ _).1 hv
    exact ⟨h, le_refl 0, by decide⟩
  · obtain ⟨-, rfl⟩ := (hfind _ _).1 hv
    exact le_refl 0
  · rw [hfind]
    unfold startSearch
    rw [SortedMap.find_insert]
    by_cases hv : v = source ∧ d = 0
    · simp [hv]
    · have hne : toLex (d, v) ≠ toLex ((0 : ℤ), source) := fun heq => by
        have := Prod.mk.inj (toLex.injective heq)
        exact hv ⟨this.2, this.1⟩
      simp [hv, hne]
  · exact absurd ((hfind _ _).1 hv).1 hne
  · cases hv

namespace Searching

variable {g : RouteGraph} {source : Uuid} {visited : List Uuid} {dist : ℤ} {s : Search}

theorem ne_of_improved (h : Searching g source visited dist s) {e : Uuid × ℤ}
    (he : IsLatency e.2) (hnew : (s.info.minDistance.find e.1).all (dist + e.2 < ·) = true) :
    e.1 ≠ source ∧ e.1 ∉ visited := by
  have hdist := h.isLatency.1
  have hge := he.1
  constructor
  · intro heq
    rw [heq, h.atSource, Option.all_some, decide_eq_true_eq] at hnew
    omega
  · intro hmem
    obtain ⟨d, hd, hle⟩ := h.known e.1 hmem
    rw [hd, Option.all_some, decide_eq_true_eq] at hnew
    omega

theorem relaxed (h : Searching g source visited dist s) {u : Uuid} {e : Uuid × ℤ} {s' : Search}
    (hwf : g.WellFormed) (hmem : u ∈ visited) (he : g.edge u e.1 = some e.2)
    (hr : Relaxed u dist e s s') : Searching g source visited dist s' := by
  have hlat := hwf.latency he
  have hfind : ∀ v d, s'.info.minDistance.find v = some d ↔
      s.info.minDistance.find v = some d ∨
        v = e.1 ∧ s.info.minDistance.find e.1 = none ∧ d = dist + e.2 := by
    intro v d
    rw [hr.minDistance, SortedMap.find_insertNew]
    split_ifs with hv
    · subst hv
      cases s.info.minDistance.find e.1 <;> simp [eq_comm]
    · simp [hv]
  have hkeeps : ∀ {v d}, s.info.minDistance.find v = some d →
      s'.info.minDistance.find v = some d := fun hv => (hfind _ _).2 (.inl hv)
  refine ⟨h.isLatency, hkeeps h.atSource, fun hv => ?_, fun v hv => ?_, fun hv hnot => ?_,
    fun d v => ?_, h.nodup, fun hv hne => ?_, fun hv => ?_⟩
  · rcases (hfind _ _).1 hv with hv | ⟨rfl, -, rfl⟩
    · exact h.vertex hv
    · exact ⟨hwf.vertex he, hr.through.2⟩
  · obtain ⟨d, hd, hle⟩ := h.known v hv
    exact ⟨d, hkeeps hd, hle⟩
  · rcases (hfind _ _).1 hv with hv | ⟨-, -, rfl⟩
    · exact h.later hv hnot
    · have := hlat.1
      omega
  · cases hall : (s.info.minDistance.find e.1).all (dist + e.2 < ·) with
    | false =>
      have hsome : s.info.minDistance.find e.1 ≠ none := fun hnone => by
        rw [hnone] at hall
        cases hall
      rw [(hr.kept hall).2, h.queue, hfind]
      simp [hsome]
    | true =>
      obtain ⟨-, hnot⟩ := h.ne_of_improved hlat hall
      have hq := h.queue d v
      have hpair : ∀ d', toLex (d, v) = toLex (d', e.1) ↔ d = d' ∧ v = e.1 := fun d' => by
        rw [toLex.injective.eq_iff, Prod.mk.injEq]
      rw [(hr.changed hall).2, SortedMap.find_insert, hfind]
      simp only [hpair]
      cases hfound : s.info.minDistance.find e.1 with
      | none =>
        by_cases hv : v = e.1
        · subst hv
          simp only [hfound, Option.getD_none, and_true, reduceCtorEq, false_or, true_and]
          split_ifs with hd
          · simp [hd, hnot]
          · rw [hq, hfound]
            simp [hd]
        · simp [hv, hq]
      | some d' =>
        simp only [Option.getD_some, reduceCtorEq, false_and, and_false, or_false]
        simp only [SortedMap.find_erase, hpair]
        split_ifs with hd
        · obtain ⟨rfl, rfl⟩ := hd
          simp [hfound, hnot]
        · exact hq
  · cases hall : (s.info.minDistance.find e.1).all (dist + e.2 < ·) with
    | false =>
      rw [(hr.kept hall).1]
      rcases (hfind _ _).1 hv with hv | ⟨rfl, hnone, -⟩
      · exact h.hasPrevious hv hne
      · rw [hnone] at hall
        cases hall
    | true =>
      rw [(hr.changed hall).1, SortedMap.find_insert]
      split_ifs with hve
      · exact ⟨u, rfl⟩
      · rcases (hfind _ _).1 hv with hv | ⟨rfl, -, -⟩
        · exact h.hasPrevious hv hne
        · exact absurd rfl hve
  · rename_i v w
    have hold : s.info.previous.find v = some w → v ≠ source ∧
        (∃ d, s'.info.minDistance.find v = some d) ∧ (∃ c, g.edge w v = some c) ∧
        visited.idxOf w < visited.idxOf v := fun hv => by
      obtain ⟨hne, ⟨d, hd⟩, hedge, hbefore⟩ := h.previous hv
      exact ⟨hne, ⟨d, hkeeps hd⟩, hedge, hbefore⟩
    cases hall : (s.info.minDistance.find e.1).all (dist + e.2 < ·) with
    | false =>
      rw [(hr.kept hall).1] at hv
      exact hold hv
    | true =>
      rw [(hr.changed hall).1, SortedMap.find_insert] at hv
      split_ifs at hv with hve
      · cases hv
        subst hve
        obtain ⟨hne, hnot⟩ := h.ne_of_improved hlat hall
        refine ⟨hne, ?_, ⟨_, he⟩, ?_⟩
        · cases hfound : s.info.minDistance.find e.1 with
          | none => exact ⟨_, (hfind _ _).2 (.inr ⟨rfl, hfound, rfl⟩)⟩
          | some d => exact ⟨d, hkeeps hfound⟩
        · rw [List.idxOf_of_notMem hnot]
          exact List.idxOf_lt_length_iff.2 hmem
      · exact hold hv

/-- The next vertex leaves the queue. -/
theorem leave (h : Searching g source visited dist s) {d : ℤ} {u : Uuid}
    {rest : List ((ℤ ×ₗ Uuid) × Unit)} (hq : s.queue.entries = (toLex (d, u), ()) :: rest) :
    s.info.minDistance.find u = some d ∧ u ∉ visited ∧
      Searching g source (visited ++ [u]) d { s with queue := s.queue.erase (toLex (d, u)) } := by
  have hhead : s.queue.find (toLex (d, u)) = some () := by
    rw [← SortedMap.mem_entries_iff, hq]
    exact List.mem_cons_self
  obtain ⟨hu, hnot⟩ := (h.queue d u).1 hhead
  have hfirst : ∀ d' v, s.info.minDistance.find v = some d' → v ∉ visited → d ≤ d' := by
    intro d' v hv hnv
    have hmem : (toLex (d', v), ()) ∈ s.queue.entries :=
      (SortedMap.mem_entries_iff ..).2 ((h.queue d' v).2 ⟨hv, hnv⟩)
    rw [hq] at hmem
    rcases List.mem_cons.1 hmem with heq | hmem
    · have heq' := toLex.injective (Prod.mk.inj heq).1
      cases heq'
      exact le_refl d
    · have hsorted := s.queue.sorted
      rw [hq] at hsorted
      have hlt := (List.pairwise_cons.1 hsorted).1 _ hmem
      rcases Prod.Lex.toLex_lt_toLex.1 hlt with hlt | ⟨heq, -⟩
      · exact le_of_lt hlt
      · exact le_of_eq heq
  have hindex : ∀ v, v ≠ u → (visited ++ [u]).idxOf v = visited.idxOf v ∨
      v ∉ visited ∧ (visited ++ [u]).idxOf v = visited.length + 1 := by
    intro v hv
    by_cases hmem : v ∈ visited
    · exact .inl (List.idxOf_append_of_mem hmem)
    · rw [List.idxOf_append_of_notMem hmem, List.idxOf_of_notMem (by simpa using hv)]
      exact .inr ⟨hmem, rfl⟩
  refine ⟨hu, hnot, (h.vertex hu).2, h.atSource, h.vertex, fun v hv => ?_, fun hv hnv => ?_,
    fun d' v => ?_, ?_, h.hasPrevious, fun {v w} hv => ?_⟩
  · rcases List.mem_append.1 hv with hv | hv
    · obtain ⟨d', hd', hle⟩ := h.known v hv
      exact ⟨d', hd', le_trans hle (h.later hu hnot)⟩
    · rw [List.mem_singleton] at hv
      exact ⟨d, hv ▸ hu, le_refl d⟩
  · exact hfirst _ _ hv fun hmem => hnv (List.mem_append_left _ hmem)
  · simp only [SortedMap.find_erase, toLex.injective.eq_iff, Prod.mk.injEq, List.mem_append,
      List.mem_singleton]
    by_cases hv : v = u
    · subst hv
      simp only [and_true, or_true, not_true_eq_false, and_false, iff_false]
      split_ifs with hd
      · simp
      · rw [h.queue, hu]
        rintro ⟨heq, -⟩
        exact hd (Option.some.inj heq).symm
    · simp [hv, h.queue]
  · exact List.nodup_append.2 ⟨h.nodup, List.pairwise_singleton _ u, fun a ha b hb => by
      rw [List.mem_singleton] at hb
      exact fun heq => hnot (hb ▸ heq ▸ ha)⟩
  · obtain ⟨hne, hknown, hedge, hlt⟩ := h.previous hv
    refine ⟨hne, hknown, hedge, ?_⟩
    have hmem : w ∈ visited := List.idxOf_lt_length_iff.1
      (lt_of_lt_of_le hlt List.idxOf_le_length)
    rw [List.idxOf_append_of_mem hmem]
    by_cases hvu : v = u
    · subst hvu
      rw [List.idxOf_append_of_notMem hnot]
      have := List.idxOf_lt_length_iff.2 hmem
      omega
    · rcases hindex v hvu with heq | ⟨-, heq⟩
      · rw [heq]
        exact hlt
      · rw [heq]
        have := List.idxOf_lt_length_iff.2 hmem
        omega

theorem visited_length (h : Searching g source visited dist s) :
    visited.length ≤ g.vertices.entries.length := by
  have hsub : visited ⊆ g.vertices.keys := fun v hv => by
    obtain ⟨d, hd, -⟩ := h.known v hv
    exact (SortedMap.mem_keys_iff ..).2 (isVertex_iff.1 (h.vertex hd).1)
  have hle := (h.nodup.subperm hsub).length_le
  rwa [SortedMap.keys, List.length_map] at hle

theorem relaxAll (h : Searching g source visited dist s) (hwf : g.WellFormed) {u : Uuid}
    (hmem : u ∈ visited) {l : List (Uuid × ℤ)} (hl : ∀ e ∈ l, g.edge u e.1 = some e.2) :
    Outcome (· = .negativeLatency) (Searching g source visited dist)
      (l.foldlM (relax u dist) s) :=
  Outcome.foldlM h fun _ hs e he =>
    (relax_spec hs.isLatency (hwf.latency (hl e he))).mono fun _ hr =>
      hs.relaxed hwf hmem (hl e he) hr

theorem visit (h : Searching g source visited dist s) (hwf : g.WellFormed) {d : ℤ} {u : Uuid}
    {rest : List ((ℤ ×ₗ Uuid) × Unit)} (hq : s.queue.entries = (toLex (d, u), ()) :: rest) :
    Outcome (· = .negativeLatency) (Searching g source (visited ++ [u]) d)
      (RouteGraph.visit g s d u) := by
  obtain ⟨hu, -, hleft⟩ := h.leave hq
  obtain ⟨neighbors, hn⟩ := isVertex_iff.1 (h.vertex hu).1
  unfold RouteGraph.visit
  rw [hn]
  exact hleft.relaxAll hwf (by simp) fun e he => edge_of_mem hn he

/-- Every vertex leaves the queue at most once. -/
theorem search (hwf : g.WellFormed) {fuel : ℕ} (h : Searching g source visited dist s)
    (hfuel : g.vertices.entries.length < visited.length + fuel) :
    Outcome (· = .negativeLatency)
      (fun s => s.queue.entries = [] ∧ ∃ visited dist, Searching g source visited dist s)
      (RouteGraph.search g fuel s) := by
  induction fuel generalizing visited dist s with
  | zero =>
    have := h.visited_length
    omega
  | succ fuel ih =>
    unfold RouteGraph.search
    cases hq : s.queue.entries with
    | nil => exact Outcome.ok ⟨hq, visited, dist, h⟩
    | cons e rest =>
      refine (h.visit (d := (ofLex e.1).1) (u := (ofLex e.1).2) hwf hq).bind fun s' hs' => ih hs' ?_
      rw [List.length_append, List.length_singleton]
      omega

/-- A search that has ended with `n` turns ends alike with more. -/
theorem search_more {n : ℕ} {s s' : Search} (h : RouteGraph.search g n s = .ok s')
    (hq : s'.queue.entries = []) (k : ℕ) : RouteGraph.search g (n + k) s = .ok s' := by
  induction n generalizing s with
  | zero =>
    cases h
    cases k with
    | zero => rfl
    | succ k =>
      rw [Nat.zero_add]
      unfold RouteGraph.search
      rw [hq]
  | succ n ih =>
    rw [Nat.succ_add]
    unfold RouteGraph.search at h ⊢
    cases hs : s.queue.entries with
    | nil =>
      rw [hs] at h
      exact h
    | cons e rest =>
      rw [hs] at h
      simp only at h ⊢
      cases hv : RouteGraph.visit g s (ofLex e.1).1 (ofLex e.1).2 with
      | error err =>
        rw [hv] at h
        cases h
      | ok t =>
        rw [hv] at h
        exact ih h

theorem mem_visited (h : Searching g source visited dist s) (hq : s.queue.entries = [])
    {v : Uuid} {d : ℤ} (hv : s.info.minDistance.find v = some d) : v ∈ visited := by
  by_contra hnot
  have hmem := (SortedMap.mem_entries_iff ..).2 ((h.queue d v).2 ⟨hv, hnot⟩)
  rw [hq] at hmem
  cases hmem

/-- Every vertex but the source has a predecessor. -/
theorem idxOf_le (h : Searching g source visited dist s) (hq : s.queue.entries = []) {v : Uuid}
    {d : ℤ} (hv : s.info.minDistance.find v = some d) :
    visited.idxOf v ≤ s.info.previous.entries.length := by
  have hsub : visited ⊆ source :: s.info.previous.keys := by
    intro w hw
    obtain ⟨d, hd, -⟩ := h.known w hw
    by_cases hsource : w = source
    · exact hsource ▸ List.mem_cons_self
    · exact List.mem_cons_of_mem _ ((SortedMap.mem_keys_iff ..).2 (h.hasPrevious hd hsource))
  have hlength := (h.nodup.subperm hsub).length_le
  rw [List.length_cons, SortedMap.keys, List.length_map] at hlength
  have hlt := List.idxOf_lt_length_iff.2 (h.mem_visited hq hv)
  omega

/-- The walk back comes to an earlier vertex with each step. -/
theorem walkBack_more (h : Searching g source visited dist s) {n : ℕ} {v : Uuid}
    (hn : visited.idxOf v < n) (k : ℕ) :
    walkBack s.info.previous source (n + k) v = walkBack s.info.previous source n v := by
  induction n generalizing v with
  | zero => omega
  | succ n ih =>
    rw [Nat.succ_add]
    unfold walkBack
    cases hp : s.info.previous.find v with
    | none => rfl
    | some u =>
      have hlt := (h.previous hp).2.2.2
      simp only [(h.previous hp).1, if_false]
      rw [ih (by omega)]

end Searching

end UdtKernel.RouteGraph
