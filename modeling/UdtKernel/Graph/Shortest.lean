import UdtKernel.Graph.Integrity
import UdtKernel.Lib.Walk

set_option autoImplicit false

/-! When the ways that are found are shortest ones. -/

namespace UdtKernel.RouteGraph
open UdtKernel.Lib

/-- An edge does not lead by a shorter way to a vertex that has a distance already. -/
def NotShorter (dist : ℤ) (s : Search) (e : Uuid × ℤ) : Prop :=
  ∀ d ∈ s.info.minDistance.find e.1, d ≤ toLatency (dist + e.2)

/-- Every edge of one turn is as `P` says of it and what is found before it. -/
def EveryEdge (P : ℤ → Search → Uuid × ℤ → Prop) (u : Uuid) (dist : ℤ) :
    List (Uuid × ℤ) → Search → Prop
  | [], _ => True
  | e :: l, s => P dist s e ∧ ∀ s' ∈ (relax u dist s e).toOption, EveryEdge P u dist l s'

/-- Every edge that the search comes to is as `P` says. -/
def EveryTurn (P : ℤ → Search → Uuid × ℤ → Prop) (g : RouteGraph) : ℕ → Search → Prop
  | 0, _ => True
  | n + 1, s => ∀ e ∈ s.queue.entries.head?,
    let dist := (ofLex e.1).1
    let u := (ofLex e.1).2
    (∀ neighbors ∈ g.vertices.find u,
      EveryEdge P u dist neighbors.entries { s with queue := s.queue.erase e.1 }) ∧
    ∀ s' ∈ (visit g s dist u).toOption, EveryTurn P g n s'

/-- The search from `start` comes to no vertex that has a distance by a shorter way. -/
def NeverShorter (g : RouteGraph) (start : Uuid) : Prop :=
  EveryTurn NotShorter g g.turns (startSearch start)

/-- No sum of latencies overflows: neither along a way without repetition nor with one edge
    more. -/
def NoOverflow (g : RouteGraph) (start : Uuid) : Prop :=
  ∀ p t d, Walk g.edge start p t d → (start :: p).dropLast.Nodup → d < 2 ^ 31

instance (dist : ℤ) (s : Search) (e : Uuid × ℤ) : Decidable (NotShorter dist s e) :=
  inferInstanceAs (Decidable (∀ d ∈ _, _))

instance decidableEveryEdge (P : ℤ → Search → Uuid × ℤ → Prop)
    [∀ dist s e, Decidable (P dist s e)] (u : Uuid) (dist : ℤ) :
    (l : List (Uuid × ℤ)) → (s : Search) → Decidable (EveryEdge P u dist l s)
  | [], _ => isTrue trivial
  | e :: l, s =>
    have := decidableEveryEdge P u dist l
    inferInstanceAs (Decidable (P dist s e ∧
      ∀ s' ∈ (relax u dist s e).toOption, EveryEdge P u dist l s'))

instance decidableEveryTurn (P : ℤ → Search → Uuid × ℤ → Prop)
    [∀ dist s e, Decidable (P dist s e)] (g : RouteGraph) :
    (n : ℕ) → (s : Search) → Decidable (EveryTurn P g n s)
  | 0, _ => isTrue trivial
  | n + 1, s =>
    have := decidableEveryTurn P g n
    inferInstanceAs (Decidable (∀ e ∈ s.queue.entries.head?, _ ∧ _))

instance (g : RouteGraph) (start : Uuid) : Decidable (NeverShorter g start) :=
  inferInstanceAs (Decidable (EveryTurn ..))

/-- What holds besides when no vertex is met again by a shorter way: the edge from a predecessor
    is tight, no other vertex with an edge is nearer than the predecessor, and no edge of the
    vertices `left` is loose. -/
structure Exact (g : RouteGraph) (left : List Uuid) (s : Search) : Prop where
  tight : ∀ {v u}, s.info.previous.find v = some u → ∃ d c,
    s.info.minDistance.find u = some d ∧ g.edge u v = some c ∧
    s.info.minDistance.find v = some (d + c)
  nearest : ∀ {v u w c d d'}, s.info.previous.find v = some u → s.info.minDistance.find u = some d →
    g.edge w v = some c → s.info.minDistance.find w = some d' → d ≤ d'
  relaxed : ∀ u ∈ left, ∀ v c, g.edge u v = some c → ∃ d d',
    s.info.minDistance.find u = some d ∧ s.info.minDistance.find v = some d' ∧ d' ≤ d + c

theorem exact_start (g : RouteGraph) (start : Uuid) : Exact g [] (startSearch start) where
  tight := fun h => by cases h
  nearest := fun h => by cases h
  relaxed := fun u hu => absurd hu List.not_mem_nil

variable {g : RouteGraph} {source u : Uuid} {visited left : List Uuid} {dist : ℤ} {s s' : Search}

theorem walk_of_none (h : Searching g source visited dist s) {n : ℕ} {v : Uuid} {d : ℤ}
    (hp : s.info.previous.find v = none) (hv : s.info.minDistance.find v = some d) :
    Walk g.edge source (walkBack s.info.previous source (n + 1) v).reverse v d ∧
      (source :: (walkBack s.info.previous source (n + 1) v).reverse).Nodup ∧
      ∀ x ∈ source :: (walkBack s.info.previous source (n + 1) v).reverse,
        visited.idxOf x ≤ visited.idxOf v := by
  have hsource : v = source := by
    by_contra hne
    obtain ⟨u, hu⟩ := h.hasPrevious hv hne
    rw [hp] at hu
    cases hu
  subst hsource
  rw [h.atSource] at hv
  cases hv
  have hback : walkBack s.info.previous v (n + 1) v = [] := by
    rw [walkBack, hp]
  rw [hback]
  exact ⟨.nil v, List.pairwise_singleton _ v, fun x hx => by rw [List.mem_singleton.1 hx]⟩

/-- The predecessors lead back to the source along a way of the recorded length. -/
theorem Exact.walk (he : Exact g left s) (h : Searching g source visited dist s) {n : ℕ} {v : Uuid}
    {d : ℤ} (hn : visited.idxOf v ≤ n) (hv : s.info.minDistance.find v = some d) :
    Walk g.edge source (walkBack s.info.previous source (n + 1) v).reverse v d ∧
      (source :: (walkBack s.info.previous source (n + 1) v).reverse).Nodup ∧
      ∀ x ∈ source :: (walkBack s.info.previous source (n + 1) v).reverse,
        visited.idxOf x ≤ visited.idxOf v := by
  induction n generalizing v d with
  | zero =>
    have hnone : s.info.previous.find v = none := by
      by_contra hsome
      obtain ⟨u, hu⟩ := Option.ne_none_iff_exists'.1 hsome
      have := (h.previous hu).2.2.2
      omega
    exact walk_of_none h hnone hv
  | succ n ih =>
    cases hp : s.info.previous.find v with
    | none => exact walk_of_none h hp hv
    | some u =>
      obtain ⟨hne, -, -, hlt⟩ := h.previous hp
      obtain ⟨du, c, hdu, hedge, hdv⟩ := he.tight hp
      obtain ⟨hwalk, hnodup, hbefore⟩ := ih (by omega) hdu
      have hback : walkBack s.info.previous source (n + 1 + 1) v =
          v :: walkBack s.info.previous source (n + 1) u := by
        rw [walkBack, hp]
        simp only [hne, if_false]
      rw [hv] at hdv
      cases hdv
      rw [hback, List.reverse_cons, ← List.cons_append]
      refine ⟨hwalk.concat hedge, ?_, fun x hx => ?_⟩
      · refine List.nodup_append.2 ⟨hnodup, List.pairwise_singleton _ v, fun x hx y hy hxy => ?_⟩
        rw [List.mem_singleton] at hy
        have hle := hbefore x hx
        rw [hxy, hy] at hle
        omega
      · rcases List.mem_append.1 hx with hx | hx
        · exact le_trans (hbefore x hx) (le_of_lt hlt)
        · rw [List.mem_singleton.1 hx]

/-- No edge of a vertex that is left overflows. -/
theorem Exact.through_lt (he : Exact g left s) (h : Searching g source visited dist s)
    (hover : NoOverflow g source) {u v : Uuid} {d c : ℤ} (hu : s.info.minDistance.find u = some d)
    (hedge : g.edge u v = some c) : d + c < 2 ^ 31 := by
  obtain ⟨hwalk, hnodup, -⟩ := he.walk h (le_refl _) hu
  refine hover _ _ _ (hwalk.concat hedge) ?_
  rw [← List.cons_append, List.dropLast_concat]
  exact hnodup

theorem relax_ok {u : Uuid} {e : Uuid × ℤ} (hdist : IsLatency dist) (he : IsLatency e.2)
    (hlt : dist + e.2 < 2 ^ 31) :
    ∃ s', relax u dist s e = .ok s' ∧ Relaxed u dist e s s' := by
  have hspec := relax_spec (u := u) (s := s) hdist he
  cases hrelax : relax u dist s e with
  | ok s' =>
    rw [hrelax] at hspec
    exact ⟨s', rfl, hspec⟩
  | error err =>
    unfold relax at hrelax
    rcases toLatency_add hdist he with hneg | ⟨heq, hlat⟩
    · unfold toLatency IsLatency at *
      rw [Int.bmod_def] at hneg
      omega
    · rw [heq, if_neg (by unfold IsLatency at *; omega)] at hrelax
      simp only at hrelax
      split at hrelax <;> cases hrelax

theorem Relaxed.keeps {u : Uuid} {e : Uuid × ℤ} (hr : Relaxed u dist e s s') {v : Uuid} {d : ℤ}
    (hv : s.info.minDistance.find v = some d) : s'.info.minDistance.find v = some d := by
  rw [hr.minDistance, SortedMap.find_insertNew]
  split_ifs with heq
  · rw [← heq, hv]
    rfl
  · exact hv

theorem Relaxed.cases {e : Uuid × ℤ} (hr : Relaxed u dist e s s') (hnot : NotShorter dist s e) :
    (s.info.minDistance.find e.1 = none ∧ s'.info.previous = s.info.previous.insert e.1 u ∧
      s'.info.minDistance = s.info.minDistance.insertNew e.1 (dist + e.2)) ∨
    ∃ d, s.info.minDistance.find e.1 = some d ∧ d ≤ dist + e.2 ∧ s'.info = s.info := by
  cases hfind : s.info.minDistance.find e.1 with
  | none => exact .inl ⟨rfl, (hr.changed (by rw [hfind]; rfl)).1, hr.minDistance⟩
  | some d =>
    have hle : d ≤ dist + e.2 := hr.through.1 ▸ hnot d hfind
    have hall : (s.info.minDistance.find e.1).all (dist + e.2 < ·) = false := by
      rw [hfind, Option.all_some, decide_eq_false_iff_not]
      omega
    have hsame : s'.info.minDistance = s.info.minDistance := SortedMap.ext_find fun v => by
      rw [hr.minDistance, SortedMap.find_insertNew]
      split_ifs with hv
      · rw [hv, hfind]
        rfl
      · rfl
    exact .inr ⟨d, rfl, hle, congrArg₂ PathInfo.mk hsame (hr.kept hall).1⟩

theorem Exact.congr (he : Exact g left s) (h : s'.info = s.info) : Exact g left s' := by
  refine ⟨?_, ?_, ?_⟩
  · rw [h]
    exact he.tight
  · rw [h]
    exact he.nearest
  · rw [h]
    exact he.relaxed

/-- What has not been left before the last vertex is not nearer than it. -/
theorem Searching.le_of_left (h : Searching g source (left ++ [u]) dist s)
    (hu : s.info.minDistance.find u = some dist) {v : Uuid} {d : ℤ} (hv : v ∉ left)
    (hd : s.info.minDistance.find v = some d) : dist ≤ d := by
  by_cases hvu : v = u
  · rw [hvu, hu] at hd
    cases hd
    exact le_refl _
  · exact h.later hd (by simp [hv, hvu])

theorem Exact.relax (he : Exact g left s) (hwf : g.WellFormed)
    (h : Searching g source (left ++ [u]) dist s)
    {e : Uuid × ℤ} (hr : Relaxed u dist e s s')
    (hu : s.info.minDistance.find u = some dist) (hedge : g.edge u e.1 = some e.2)
    (hnot : NotShorter dist s e) :
    Exact g left s' ∧ ∃ d, s'.info.minDistance.find e.1 = some d ∧ d ≤ dist + e.2 := by
  rcases hr.cases hnot with ⟨hnone, hprevious, hdistance⟩ | ⟨d, hd, hle, hsame⟩
  swap
  · exact ⟨he.congr hsame, d, hsame ▸ hd, hle⟩
  have hfind : ∀ v d, s'.info.minDistance.find v = some d →
      s.info.minDistance.find v = some d ∨ v = e.1 ∧ d = dist + e.2 := by
    intro v d hv
    rw [hdistance, SortedMap.find_insertNew] at hv
    split_ifs at hv with heq
    · rw [hnone] at hv
      cases hv
      exact .inr ⟨heq, rfl⟩
    · exact .inl hv
  have hnew : s'.info.minDistance.find e.1 = some (dist + e.2) := by
    rw [hdistance, SortedMap.find_insertNew, if_pos rfl, hnone]
    rfl
  have hprev : ∀ v w, s'.info.previous.find v = some w →
      v = e.1 ∧ w = u ∨ v ≠ e.1 ∧ s.info.previous.find v = some w := by
    intro v w hv
    rw [hprevious, SortedMap.find_insert] at hv
    split_ifs at hv with heq
    · cases hv
      exact .inl ⟨heq, rfl⟩
    · exact .inr ⟨heq, hv⟩
  have hpos := (hwf.latency hedge).1
  refine ⟨⟨fun {v w} hv => ?_, fun {v w x c d d'} hv hw hc hx => ?_, fun w hw v c hc => ?_⟩, _,
    hnew, le_refl _⟩
  · rcases hprev v w hv with ⟨rfl, rfl⟩ | ⟨-, hv⟩
    · exact ⟨dist, e.2, hr.keeps hu, hedge, hnew⟩
    · obtain ⟨d, c, hd, hc, hdc⟩ := he.tight hv
      exact ⟨d, c, hr.keeps hd, hc, hr.keeps hdc⟩
  · rcases hprev v w hv with ⟨rfl, rfl⟩ | ⟨-, hv⟩
    · rw [hr.keeps hu] at hw
      cases hw
      rcases hfind x d' hx with hx | ⟨-, rfl⟩
      · have hleft : x ∉ left := fun hmem => by
          obtain ⟨-, d, -, hd, -⟩ := he.relaxed x hmem e.1 c hc
          rw [hnone] at hd
          cases hd
        exact h.le_of_left hu hleft hx
      · omega
    · obtain ⟨d₀, -, hd₀, -, -⟩ := he.tight hv
      rw [hr.keeps hd₀] at hw
      cases hw
      rcases hfind x d' hx with hx | ⟨-, rfl⟩
      · exact he.nearest hv hd₀ hc hx
      · -- the predecessor has been visited before, and is not farther than the last one
        have hmem : w ∈ left ++ [u] := List.idxOf_lt_length_iff.1
          (lt_of_lt_of_le (h.previous hv).2.2.2 List.idxOf_le_length)
        obtain ⟨d₁, hd₁, hle⟩ := h.known w hmem
        rw [hd₀] at hd₁
        cases hd₁
        omega
  · obtain ⟨d, d', hd, hd', hle⟩ := he.relaxed w hw v c hc
    exact ⟨d, d', hr.keeps hd, hr.keeps hd', hle⟩

theorem Exact.relaxAll (hwf : g.WellFormed) (hover : NoOverflow g source)
    {l : List (Uuid × ℤ)} (hl : ∀ e ∈ l, g.edge u e.1 = some e.2)
    (he : Exact g left s) (h : Searching g source (left ++ [u]) dist s)
    (hu : s.info.minDistance.find u = some dist) (hnot : EveryEdge NotShorter u dist l s) :
    ∃ s', l.foldlM (RouteGraph.relax u dist) s = .ok s' ∧ Exact g left s' ∧
      Searching g source (left ++ [u]) dist s' ∧
      (∀ {v d}, s.info.minDistance.find v = some d → s'.info.minDistance.find v = some d) ∧
      ∀ e ∈ l, ∃ d, s'.info.minDistance.find e.1 = some d ∧ d ≤ dist + e.2 := by
  induction l generalizing s with
  | nil => exact ⟨s, rfl, he, h, id, fun e he => absurd he List.not_mem_nil⟩
  | cons e l ih =>
    have hedge := hl e List.mem_cons_self
    obtain ⟨s₁, hs₁, hr⟩ := relax_ok (u := u) h.isLatency (hwf.latency hedge)
      (he.through_lt h hover hu hedge)
    obtain ⟨he₁, d, hd, hle⟩ := he.relax hwf h hr hu hedge hnot.1
    obtain ⟨s', hs', he', h', hkeeps, hall⟩ := ih (fun e he => hl e (List.mem_cons_of_mem _ he)) he₁
      (h.relaxed hwf (by simp) hedge hr) (hr.keeps hu) (hnot.2 s₁ (by rw [hs₁]; rfl))
    refine ⟨s', ?_, he', h', fun hv => hkeeps (hr.keeps hv), fun e' he' => ?_⟩
    · rw [List.foldlM_cons, hs₁]
      exact hs'
    · rcases List.mem_cons.1 he' with rfl | he'
      · exact ⟨d, hkeeps hd, hle⟩
      · exact hall e' he'

theorem Exact.visit (hwf : g.WellFormed) (hover : NoOverflow g source) (he : Exact g visited s)
    (h : Searching g source visited dist s) {d : ℤ} {u : Uuid}
    {rest : List ((ℤ ×ₗ Uuid) × Unit)} (hq : s.queue.entries = (toLex (d, u), ()) :: rest)
    (hnot : ∀ neighbors ∈ g.vertices.find u, EveryEdge NotShorter u d neighbors.entries
      { s with queue := s.queue.erase (toLex (d, u)) }) :
    ∃ s', RouteGraph.visit g s d u = .ok s' ∧ Exact g (visited ++ [u]) s' ∧
      Searching g source (visited ++ [u]) d s' := by
  obtain ⟨hu, -, hleft⟩ := h.leave hq
  obtain ⟨neighbors, hn⟩ := isVertex_iff.1 (h.vertex hu).1
  have he₀ : Exact g visited { s with queue := s.queue.erase (toLex (d, u)) } := he.congr rfl
  obtain ⟨s', hs', he', h', hkeeps, hall⟩ := he₀.relaxAll hwf hover
    (fun e he => edge_of_mem hn he) hleft hu (hnot neighbors hn)
  refine ⟨s', ?_, ⟨he'.tight, he'.nearest, fun w hw v c hc => ?_⟩, h'⟩
  · unfold RouteGraph.visit
    rw [hn]
    exact hs'
  · rcases List.mem_append.1 hw with hw | hw
    · exact he'.relaxed w hw v c hc
    · rw [List.mem_singleton] at hw
      subst hw
      obtain ⟨edges, hedges, hmem⟩ := mem_of_edge hc
      rw [hn] at hedges
      cases hedges
      obtain ⟨d', hd', hle⟩ := hall (v, c) hmem
      exact ⟨d, d', hkeeps hu, hd', hle⟩

theorem Exact.search (hwf : g.WellFormed) (hover : NoOverflow g source) {n : ℕ}
    (he : Exact g visited s) (h : Searching g source visited dist s)
    (hnot : EveryTurn NotShorter g n s) (hn : g.vertices.entries.length < visited.length + n) :
    ∃ s' visited dist, RouteGraph.search g n s = .ok s' ∧ s'.queue.entries = [] ∧
      Exact g visited s' ∧ Searching g source visited dist s' := by
  induction n generalizing visited dist s with
  | zero =>
    have := h.visited_length
    omega
  | succ n ih =>
    unfold RouteGraph.search
    cases hq : s.queue.entries with
    | nil => exact ⟨s, visited, dist, rfl, hq, he, h⟩
    | cons e rest =>
      obtain ⟨hedges, hrest⟩ := hnot e (by rw [hq]; rfl)
      obtain ⟨s₁, hs₁, he₁, h₁⟩ : ∃ s₁, RouteGraph.visit g s (ofLex e.1).1 (ofLex e.1).2 = .ok s₁ ∧
          Exact g (visited ++ [(ofLex e.1).2]) s₁ ∧
          Searching g source (visited ++ [(ofLex e.1).2]) (ofLex e.1).1 s₁ :=
        he.visit hwf hover h hq hedges
      obtain ⟨s', visited', dist', hs', hfinal⟩ := ih he₁ h₁ (hrest s₁ (by rw [hs₁]; rfl))
        (by rw [List.length_append, List.length_singleton]; omega)
      refine ⟨s', visited', dist', ?_, hfinal⟩
      change (RouteGraph.visit g s (ofLex e.1).1 (ofLex e.1).2 >>= _) = _
      rw [hs₁]
      exact hs'

/-- Each nearest one of the vertices with an edge to another vertex is on a shortest way to it. -/
def NearestFirst (g : RouteGraph) (start : Uuid) : Prop :=
  ∀ u v c d, g.edge u v = some c → v ≠ start → IsLeast (totals g.edge start u) d →
    (∀ w c' d', g.edge w v = some c' → IsLeast (totals g.edge start w) d' → d ≤ d') →
    IsLeast (totals g.edge start v) (d + c)

/-- The distances that are found are least ones. -/
def Least (g : RouteGraph) (start : Uuid) (s : Search) : Prop :=
  ∀ v d, s.info.minDistance.find v = some d → IsLeast (totals g.edge start v) d

theorem least_start (hwf : g.WellFormed) (start : Uuid) : Least g start (startSearch start) := by
  intro v d hv
  unfold startSearch at hv
  rw [SortedMap.find_insert] at hv
  split_ifs at hv with heq
  · cases hv
    subst heq
    exact ⟨⟨[], .nil _⟩, fun c ⟨_, hp⟩ => hp.nonneg fun _ _ _ hedge => (hwf.latency hedge).1⟩
  · cases hv

/-- No vertex that has not been left before the last one is nearer than it. -/
theorem Exact.le_of_isLeast (he : Exact g left s) (hwf : g.WellFormed)
    (h : Searching g source (left ++ [u]) dist s) (hu : s.info.minDistance.find u = some dist)
    {w : Uuid} {d : ℤ} (hw : w ∉ left) (hd : IsLeast (totals g.edge source w) d) : dist ≤ d := by
  obtain ⟨⟨p, hp⟩, -⟩ := hd
  have hdone : ∀ x dx, x ∈ left → s.info.minDistance.find x = some dx →
      ∀ y c, g.edge x y = some c → ∃ d', s.info.minDistance.find y = some d' ∧ d' ≤ dx + c := by
    intro x dx hx hdx y c hc
    obtain ⟨d₁, d₂, hd₁, hd₂, hle⟩ := he.relaxed x hx y c hc
    rw [hdx] at hd₁
    cases hd₁
    exact ⟨d₂, hd₂, hle⟩
  have hle : dist ≤ 0 + d := hp.le_of_frontier (fun _ _ _ hedge => (hwf.latency hedge).1) hdone
    (fun x dx hdx hx => h.le_of_left hu hx hdx) hw h.atSource
  omega

/-- The first edge that leads to a vertex comes from a nearest one. -/
theorem NearestFirst.of_unknown (hnear : NearestFirst g source) (hwf : g.WellFormed)
    (he : Exact g left s) (h : Searching g source (left ++ [u]) dist s) (hleast : Least g source s)
    (hu : s.info.minDistance.find u = some dist) {v : Uuid} {c : ℤ} (hedge : g.edge u v = some c)
    (hv : s.info.minDistance.find v = none) : IsLeast (totals g.edge source v) (dist + c) := by
  refine hnear u v c dist hedge (fun heq => ?_) (hleast u dist hu) fun w c' d' hw hd' => ?_
  · rw [heq, h.atSource] at hv
    cases hv
  · refine he.le_of_isLeast hwf h hu (fun hmem => ?_) hd'
    obtain ⟨-, d, -, hd, -⟩ := he.relaxed w hmem v c' hw
    rw [hv] at hd
    cases hd

theorem Least.notShorter (hleast : Least g source s) {e : Uuid × ℤ}
    (hu : s.info.minDistance.find u = some dist) (hedge : g.edge u e.1 = some e.2)
    (hr : Relaxed u dist e s s') : NotShorter dist s e := by
  intro d hd
  obtain ⟨⟨p, hp⟩, -⟩ := hleast u dist hu
  rw [hr.through.1]
  exact (hleast e.1 d hd).2 ⟨_, hp.concat hedge⟩

theorem Least.relax (hleast : Least g source s) {e : Uuid × ℤ} (hr : Relaxed u dist e s s')
    (hnew : s.info.minDistance.find e.1 = none →
      IsLeast (totals g.edge source e.1) (dist + e.2)) : Least g source s' := by
  intro v d hv
  rw [hr.minDistance, SortedMap.find_insertNew] at hv
  split_ifs at hv with heq
  · subst heq
    cases hfind : s.info.minDistance.find e.1 with
    | none =>
      rw [hfind] at hv
      cases hv
      exact hnew hfind
    | some d' =>
      rw [hfind] at hv
      cases hv
      exact hleast _ _ hfind
  · exact hleast v d hv

theorem NearestFirst.everyEdge (hnear : NearestFirst g source) (hwf : g.WellFormed)
    (hover : NoOverflow g source) {l : List (Uuid × ℤ)} (hl : ∀ e ∈ l, g.edge u e.1 = some e.2)
    (he : Exact g left s) (h : Searching g source (left ++ [u]) dist s)
    (hleast : Least g source s) (hu : s.info.minDistance.find u = some dist) :
    EveryEdge NotShorter u dist l s ∧
      ∀ s', l.foldlM (RouteGraph.relax u dist) s = .ok s' → Least g source s' := by
  induction l generalizing s with
  | nil =>
    refine ⟨trivial, fun s' hs' => ?_⟩
    cases hs'
    exact hleast
  | cons e l ih =>
    have hedge := hl e List.mem_cons_self
    obtain ⟨s₁, hs₁, hr⟩ := relax_ok (u := u) h.isLatency (hwf.latency hedge)
      (he.through_lt h hover hu hedge)
    have hnot := hleast.notShorter hu hedge hr
    obtain ⟨hedges, hend⟩ := ih (fun e he => hl e (List.mem_cons_of_mem _ he))
      (he.relax hwf h hr hu hedge hnot).1 (h.relaxed hwf (by simp) hedge hr)
      (hleast.relax hr (hnear.of_unknown hwf he h hleast hu hedge)) (hr.keeps hu)
    refine ⟨⟨hnot, fun s' hs' => ?_⟩, fun s' hs' => ?_⟩
    · rw [hs₁] at hs'
      cases hs'
      exact hedges
    · rw [List.foldlM_cons, hs₁] at hs'
      exact hend s' hs'

theorem NearestFirst.everyTurn (hnear : NearestFirst g source) (hwf : g.WellFormed)
    (hover : NoOverflow g source) {n : ℕ} (he : Exact g visited s)
    (h : Searching g source visited dist s) (hleast : Least g source s) :
    EveryTurn NotShorter g n s := by
  induction n generalizing visited dist s with
  | zero => trivial
  | succ n ih =>
    intro e hhead
    obtain ⟨rest, hq⟩ := List.head?_eq_some_iff.1 hhead
    obtain ⟨hu, -, hleft⟩ := h.leave (d := (ofLex e.1).1) (u := (ofLex e.1).2) hq
    have he₀ : Exact g visited { s with queue := s.queue.erase e.1 } := he.congr rfl
    have hedges := fun neighbors (hn : g.vertices.find (ofLex e.1).2 = some neighbors) =>
      hnear.everyEdge hwf hover (fun e' he' => edge_of_mem hn he') he₀ hleft hleast hu
    refine ⟨fun neighbors hn => (hedges neighbors hn).1, fun s' hs' => ?_⟩
    obtain ⟨s₁, hs₁, he₁, h₁⟩ : ∃ s₁, RouteGraph.visit g s (ofLex e.1).1 (ofLex e.1).2 = .ok s₁ ∧
        Exact g (visited ++ [(ofLex e.1).2]) s₁ ∧
        Searching g source (visited ++ [(ofLex e.1).2]) (ofLex e.1).1 s₁ :=
      he.visit hwf hover h hq fun neighbors hn => (hedges neighbors hn).1
    rw [hs₁] at hs'
    cases hs'
    refine ih he₁ h₁ ?_
    obtain ⟨neighbors, hn⟩ := isVertex_iff.1 (h.vertex hu).1
    unfold RouteGraph.visit at hs₁
    rw [hn] at hs₁
    exact (hedges neighbors hn).2 s' hs₁

/-- A condition on the graph alone under which the search comes to no vertex by a shorter way. -/
theorem NearestFirst.neverShorter {start : Uuid} (hnear : NearestFirst g start) (hwf : g.WellFormed)
    (hstart : g.isVertex start = true) (hover : NoOverflow g start) : NeverShorter g start :=
  hnear.everyTurn hwf hover (exact_start g start) (searching_start hstart) (least_start hwf start)

/-- A way is a shortest one, or empty when there is none to go. -/
structure IsShortest (g : RouteGraph) (start finish : Uuid) (path : List Uuid) : Prop where
  empty : path = [] ↔ finish = start ∨ ¬ Reachable g.edge start finish
  shortest : path ≠ [] →
    ∃ d, Walk g.edge start path finish d ∧ IsLeast (totals g.edge start finish) d

theorem Exact.edge_le (he : Exact g visited s) (h : Searching g source visited dist s)
    (hq : s.queue.entries = []) (u : Uuid) (d : ℤ) (hu : s.info.minDistance.find u = some d)
    (v : Uuid) (c : ℤ) (hc : g.edge u v = some c) :
    ∃ d', s.info.minDistance.find v = some d' ∧ d' ≤ d + c := by
  obtain ⟨d₁, d', hd₁, hd', hle⟩ := he.relaxed u (h.mem_visited hq hu) v c hc
  rw [hu] at hd₁
  cases hd₁
  exact ⟨d', hd', hle⟩

theorem Exact.isLeast_iff (he : Exact g visited s) (h : Searching g source visited dist s)
    (hq : s.queue.entries = []) {v : Uuid} {d : ℤ} :
    s.info.minDistance.find v = some d ↔ IsLeast (totals g.edge source v) d := by
  have hleast : ∀ {d}, s.info.minDistance.find v = some d →
      IsLeast (totals g.edge source v) d := fun hv =>
    (he.walk h (h.idxOf_le hq hv) hv).1.isLeast (he.edge_le h hq) h.atSource hv
  refine ⟨hleast, fun hd => ?_⟩
  obtain ⟨p, hp⟩ := hd.1
  obtain ⟨d', hd', -⟩ := hp.label_le (he.edge_le h hq) h.atSource
  rw [hd', (hleast hd').unique hd]

/-- Under the condition on the search some nearest vertex is on a shortest way. -/
theorem NeverShorter.exists_nearest {start : Uuid} (hnever : NeverShorter g start)
    (hwf : g.WellFormed) (hstart : g.isVertex start = true) (hover : NoOverflow g start) {v : Uuid}
    (hv : v ≠ start) (hreach : Reachable g.edge start v) :
    ∃ u c d, g.edge u v = some c ∧ IsLeast (totals g.edge start u) d ∧
      (∀ w c' d', g.edge w v = some c' → IsLeast (totals g.edge start w) d' → d ≤ d') ∧
      IsLeast (totals g.edge start v) (d + c) := by
  have hlt : g.vertices.entries.length + 1 < g.turns := Nat.lt_two_pow_self
  obtain ⟨s, visited, dist, -, hq, he, h⟩ := (exact_start g start).search hwf hover
    (searching_start hstart) hnever (by rw [List.length_nil]; omega)
  have hleast := fun {w} {d} => he.isLeast_iff h hq (v := w) (d := d)
  obtain ⟨p, c, hp⟩ := hreach
  obtain ⟨d, hd, -⟩ := hp.label_le (he.edge_le h hq) h.atSource
  obtain ⟨u, hu⟩ := h.hasPrevious hd hv
  obtain ⟨du, c, hdu, hedge, hdv⟩ := he.tight hu
  exact ⟨u, c, du, hedge, hleast.1 hdu,
    fun w c' d' hw hd' => he.nearest hu hdu hw (hleast.2 hd'), hleast.1 hdv⟩

theorem Exact.isShortest (he : Exact g visited s) (h : Searching g source visited dist s)
    (hq : s.queue.entries = []) (finish : Uuid) : IsShortest g source finish
      (walkBack s.info.previous source (s.info.previous.entries.length + 1) finish).reverse := by
  have hlabel := he.edge_le h hq
  cases hf : s.info.minDistance.find finish with
  | none =>
    have hnone : s.info.previous.find finish = none := by
      by_contra hsome
      obtain ⟨u, hu⟩ := Option.ne_none_iff_exists'.1 hsome
      obtain ⟨d, hd⟩ := (h.previous hu).2.1
      rw [hf] at hd
      cases hd
    have hback : walkBack s.info.previous source (s.info.previous.entries.length + 1) finish =
        [] := by
      rw [walkBack, hnone]
    rw [hback]
    refine ⟨iff_of_true rfl (.inr ?_), fun hne => absurd rfl hne⟩
    rintro ⟨p, c, hp⟩
    obtain ⟨d', hd', -⟩ := hp.label_le hlabel h.atSource
    rw [hf] at hd'
    cases hd'
  | some d =>
    obtain ⟨hwalk, -, -⟩ := he.walk h (h.idxOf_le hq hf) hf
    refine ⟨⟨fun hnil => ?_, ?_⟩, fun _ => ⟨d, hwalk, hwalk.isLeast hlabel h.atSource hf⟩⟩
    · rw [hnil] at hwalk
      cases hwalk
      exact .inl rfl
    · rintro (rfl | hnot)
      · cases hp : s.info.previous.find finish with
        | none =>
          rw [walkBack, hp]
          rfl
        | some u => exact absurd rfl (h.previous hp).1
      · exact absurd ⟨_, _, hwalk⟩ hnot

theorem Sound.isShortest (hsound : g.Sound) {start : Uuid} (hstart : g.isVertex start = true)
    (hover : NoOverflow g start) (hnever : NeverShorter g start) (finish : Uuid) :
    ∃ path g', g.shortestPath start finish = .ok (path, g') ∧
      IsShortest g start finish path := by
  obtain ⟨hwf, hf⟩ := hsound
  have hlt : g.vertices.entries.length + 1 < g.turns := Nat.lt_two_pow_self
  obtain ⟨s, visited, dist, hs, hq, he, h⟩ := (exact_start g start).search hwf hover
    (searching_start hstart) hnever (by rw [List.length_nil]; omega)
  obtain ⟨⟨path, g'⟩, hr, hfound⟩ := shortestPath_of_search hf hstart hs finish
  obtain ⟨t, ht, hpath⟩ := hfound.search
  rw [hs] at ht
  cases ht
  change path = _ at hpath
  exact ⟨path, g', hr, hpath ▸ he.isShortest h hq finish⟩

theorem runOps_shortestPath (ops : List Op)
    (hlat : EveryStep apply (fun _ => NonNegative) ops empty) {g : RouteGraph}
    (hg : runAll apply ops empty = .ok g) {start : Uuid} (hstart : g.isVertex start = true)
    (hover : NoOverflow g start) (hnever : NeverShorter g start) (finish : Uuid) :
    ∃ path g', g.shortestPath start finish = .ok (path, g') ∧
      IsShortest g start finish path := by
  have hsound := runOps_sound hlat
  rw [hg] at hsound
  exact Sound.isShortest hsound hstart hover hnever finish

theorem noOverflow_of_label {start : Uuid} (label : Uuid → ℤ)
    (hlabel : ∀ e ∈ g.vertices.entries, ∀ e' ∈ e.2.entries, e'.2 + label e'.1 ≤ label e.1)
    (hpos : ∀ v, 0 ≤ label v) (hstart : label start < 2 ^ 31) : NoOverflow g start := by
  intro p t d hwalk _
  have hle := hwalk.add_le_label label fun u v c huv => by
    obtain ⟨edges, hu, hmem⟩ := mem_of_edge huv
    exact hlabel (u, edges) ((SortedMap.mem_entries_iff ..).2 hu) (v, c) hmem
  have := hpos t
  omega

/-- Two ways to the last vertex, of which the one met first is the shorter. -/
def twoWays : List Op :=
  [.addNode 1 ((SortedMap.empty.insert 2 1).insert 3 2), .addNode 2 (SortedMap.empty.insert 3 2)]

theorem runOps_shortestPath_twoWays : ∃ g, runAll apply twoWays empty = .ok g ∧
    ∃ path g', g.shortestPath 1 3 = .ok (path, g') ∧ IsShortest g 1 3 path := by
  refine ⟨_, rfl, runOps_shortestPath twoWays (by decide) rfl (by decide) ?_ (by decide) 3⟩
  exact noOverflow_of_label (fun v => ((40 - 10 * v : ℕ) : ℤ)) (by decide)
    (fun v => Int.natCast_nonneg _) (by decide)

/-- The last vertex is met by a way of 9, of 2 and of 7, the last two of which are both taken for
    shorter than the first. -/
def threeWays : List Op :=
  [.addNode 1 (((SortedMap.empty.insert 2 2).insert 3 1).insert 4 9),
    .addNode 2 (SortedMap.empty.insert 4 5), .addNode 3 (SortedMap.empty.insert 4 1)]

theorem isShortest_false_of_decrease :
    EveryStep apply (fun _ => NonNegative) threeWays empty ∧
      ∃ g, runAll apply threeWays empty = .ok g ∧ g.isVertex 1 = true ∧ NoOverflow g 1 ∧
        ∃ g', g.shortestPath 1 4 = .ok ([2, 4], g') ∧ ¬ IsShortest g 1 4 [2, 4] := by
  refine ⟨by decide, _, rfl, rfl, ?_, _, rfl, fun h => ?_⟩
  · exact noOverflow_of_label (fun v => ((40 - 10 * v : ℕ) : ℤ)) (by decide)
      (fun v => Int.natCast_nonneg _) (by decide)
  · obtain ⟨d, hwalk, -, hleast⟩ := h.shortest (by decide)
    have hshort := hleast
      ⟨[3, 4], .cons (v := 3) (c := 1) rfl (.cons (v := 4) (c := 1) rfl (.nil 4))⟩
    cases hwalk with
    | cons h₁ hwalk =>
      cases hwalk with
      | cons h₂ hwalk =>
        cases hwalk
        cases h₁
        cases h₂
        revert hshort
        decide

end UdtKernel.RouteGraph
