import UdtKernel.Graph.Search
import UdtKernel.Lib.Run

set_option autoImplicit false

/-! The edges and the kept ways of a graph agree, whatever operations were done on it. -/

namespace UdtKernel.RouteGraph
open UdtKernel.Lib

inductive Op where
  | addNode (name : Uuid) (edges : Vertexs)
  | removeNode (name : Uuid)
  | reset
  | shortestPath (start finish : Uuid)

def apply : Op → RouteGraph → Except Abort RouteGraph
  | .addNode name edges, g => g.addNode name edges
  | .removeNode name, g => .ok (g.removeNode name)
  | .reset, g => .ok g.reset
  | .shortestPath start finish, g => do
    let r ← g.shortestPath start finish
    return r.2

def NonNegative : Op → Prop
  | .addNode _ edges => ∀ e ∈ edges.entries, IsLatency e.2
  | _ => True

/-- An edge that is there is given its latency again, and ways start at a vertex. -/
def Safe (g : RouteGraph) : Op → Prop
  | .addNode name edges => ∀ e ∈ edges.entries, ∀ w ∈ g.edge name e.1, w = e.2
  | .shortestPath start _ => g.isVertex start = true
  | _ => True

def StepOk (g : RouteGraph) (op : Op) : Prop := NonNegative op ∧ Safe g op

instance (op : Op) : Decidable (NonNegative op) := by
  cases op <;> unfold NonNegative <;> infer_instance

instance (g : RouteGraph) (op : Op) : Decidable (Safe g op) := by
  cases op <;> unfold Safe <;> infer_instance

instance (g : RouteGraph) (op : Op) : Decidable (StepOk g op) :=
  inferInstanceAs (Decidable (_ ∧ _))

theorem foldl_insertNew_find (l : List (Uuid × ℤ)) (m : Vertexs) (v : Uuid) :
    (l.foldl (fun res e => res.insertNew e.1 e.2) m).find v =
      (m.find v).or (SortedMap.lookup v l) := by
  induction l generalizing m with
  | nil => simp [SortedMap.lookup]
  | cons e l ih =>
    rw [List.foldl_cons, ih, SortedMap.find_insertNew, SortedMap.lookup]
    split_ifs with hv
    · subst hv
      cases m.find e.1 <;> rfl
    · rfl

theorem insertAll_find (aTo edges : Vertexs) (v : Uuid) :
    (insertAll aTo edges).find v = (aTo.find v).or (edges.find v) :=
  foldl_insertNew_find edges.entries aTo v

theorem foldl_insertEmpty_find (l : List Uuid) (m : SortedMap Uuid Vertexs) (u : Uuid) :
    (l.foldl (fun res u => res.insertNew u .empty) m).find u =
      (m.find u).or (if u ∈ l then some .empty else none) := by
  induction l generalizing m with
  | nil => simp
  | cons v l ih =>
    rw [List.foldl_cons, ih, SortedMap.find_insertNew]
    by_cases hu : u = v
    · subst hu
      cases m.find u <;> simp
    · simp [hu]

/-- What `MAddNode` makes of a graph. -/
structure Added (name : Uuid) (edges : Vertexs) (g g' : RouteGraph) : Prop where
  edge : ∀ u v, g'.edge u v = if u = name then (g.edge name v).or (edges.find v) else g.edge u v
  isVertex : ∀ u, g'.isVertex u = true ↔
    g.isVertex u = true ∨ u = name ∨ (edges.find u).isSome = true
  pathes : g'.pathes = .empty

theorem addNode_spec (name : Uuid) (g : RouteGraph) (edges : Vertexs)
    (h : ∀ e ∈ edges.entries, 0 ≤ e.2) :
    ∃ g', g.addNode name edges = .ok g' ∧ Added name edges g g' := by
  have hneg : edges.entries.any (·.2 < 0) = false := by
    rw [List.any_eq_false]
    intro e he
    simpa using h e he
  have hfound : ∀ u, (edges.keys.foldl (fun res u => res.insertNew u .empty) g.vertices).find u =
      (g.vertices.find u).or (if (edges.find u).isSome = true then some .empty else none) := by
    intro u
    rw [foldl_insertEmpty_find]
    rw [if_congr ((SortedMap.mem_keys_iff edges u).trans Option.isSome_iff_exists.symm) rfl rfl]
  unfold addNode
  rw [hneg, if_neg Bool.false_ne_true]
  refine ⟨_, rfl, fun u v => ?_, fun u => ?_, rfl⟩
  · change (SortedMap.find (SortedMap.alter _ _ _) u).bind (SortedMap.find · v) = _
    rw [SortedMap.find_alter, hfound, hfound]
    by_cases hu : u = name
    · rw [if_pos hu, if_pos hu, Option.bind_some, insertAll_find, RouteGraph.edge]
      cases g.vertices.find name with
      | none =>
        rw [Option.none_or, Option.bind_none]
        split_ifs <;> rfl
      | some m => rfl
    · rw [if_neg hu, if_neg hu, RouteGraph.edge]
      cases g.vertices.find u with
      | none =>
        rw [Option.none_or, Option.bind_none]
        split_ifs <;> rfl
      | some m => rfl
  · change (SortedMap.find (SortedMap.alter _ _ _) u).isSome = true ↔ _
    rw [SortedMap.find_alter, hfound, hfound, RouteGraph.isVertex]
    by_cases hu : u = name
    · simp [hu]
    · rw [if_neg hu]
      cases g.vertices.find u with
      | none =>
        rw [Option.none_or]
        split_ifs with hs <;> simp [hs, hu]
      | some m => simp

/-- What `MRemoveNode` makes of a graph. -/
structure Removed (name : Uuid) (g g' : RouteGraph) : Prop where
  edge : ∀ u v, g'.edge u v = if u = name ∨ v = name then none else g.edge u v
  isVertex : ∀ u, g'.isVertex u = true ↔ g.isVertex u = true ∧ u ≠ name
  pathes : g'.pathes = .empty

theorem removeNode_spec {name : Uuid} {g : RouteGraph} (h : g.isVertex name = true) :
    Removed name g (g.removeNode name) := by
  unfold removeNode
  rw [if_pos (by exact h)]
  refine ⟨fun u v => ?_, fun u => ?_, rfl⟩
  · unfold RouteGraph.edge resetCache
    simp only [SortedMap.find_erase, SortedMap.find_mapVal]
    by_cases hu : u = name
    · simp [hu]
    · rw [if_neg hu]
      cases g.vertices.find u with
      | none => simp
      | some m =>
        simp only [Option.map_some, Option.bind_some, SortedMap.find_erase, hu, false_or]
  · unfold RouteGraph.isVertex resetCache
    simp only [SortedMap.find_erase, SortedMap.find_mapVal]
    by_cases hu : u = name <;> simp [hu]

theorem removeNode_of_not_isVertex {name : Uuid} {g : RouteGraph} (h : g.isVertex name = false) :
    g.removeNode name = g := by
  unfold removeNode
  rw [if_neg (by unfold isVertex at h; simp [h])]

/-- The vertices and the edges make up a graph. -/
theorem vertices_ext {g g' : RouteGraph} (hvertex : ∀ u, g.isVertex u = true ↔ g'.isVertex u = true)
    (hedge : ∀ u v, g.edge u v = g'.edge u v) : g.vertices = g'.vertices := by
  refine SortedMap.ext_find fun u => ?_
  have hu := hvertex u
  unfold isVertex at hu
  cases h : g.vertices.find u with
  | none =>
    rw [h] at hu
    cases h' : g'.vertices.find u with
    | none => rfl
    | some m => rw [h'] at hu; simp at hu
  | some m =>
    rw [h] at hu
    cases h' : g'.vertices.find u with
    | none => rw [h'] at hu; simp at hu
    | some m' =>
      refine congrArg some (SortedMap.ext_find fun v => ?_)
      have hv := hedge u v
      rwa [edge, edge, h, h'] at hv

theorem wellFormed_empty : empty.WellFormed where
  vertex := fun h => by cases h
  latency := fun h => by cases h

theorem Added.wellFormed {name : Uuid} {edges : Vertexs} {g g' : RouteGraph}
    (h : Added name edges g g') (hl : ∀ e ∈ edges.entries, IsLatency e.2) (hwf : g.WellFormed) :
    g'.WellFormed := by
  have hcases : ∀ {u v w}, g'.edge u v = some w → g.edge u v = some w ∨ edges.find v = some w := by
    intro u v w huv
    rw [h.edge] at huv
    split_ifs at huv with hu
    · subst hu
      rcases Option.or_eq_some_iff.1 huv with huv | ⟨-, huv⟩
      · exact .inl huv
      · exact .inr huv
    · exact .inl huv
  constructor
  · intro u v w huv
    rw [h.isVertex]
    rcases hcases huv with huv | huv
    · exact .inl (hwf.vertex huv)
    · exact .inr (.inr (Option.isSome_iff_exists.2 ⟨w, huv⟩))
  · intro u v w huv
    rcases hcases huv with huv | huv
    · exact hwf.latency huv
    · exact hl (v, w) ((SortedMap.mem_entries_iff ..).2 huv)

theorem Removed.wellFormed {name : Uuid} {g g' : RouteGraph} (h : Removed name g g')
    (hwf : g.WellFormed) : g'.WellFormed := by
  have hcases : ∀ {u v w}, g'.edge u v = some w → v ≠ name ∧ g.edge u v = some w := by
    intro u v w huv
    rw [h.edge] at huv
    split_ifs at huv with hn
    exact ⟨fun hv => hn (.inr hv), huv⟩
  constructor
  · intro u v w huv
    obtain ⟨hne, huv⟩ := hcases huv
    exact (h.isVertex v).2 ⟨hwf.vertex huv, hne⟩
  · intro u v w huv
    exact hwf.latency (hcases huv).2

theorem search_congr {g g' : RouteGraph} (h : g'.vertices = g.vertices) (n : ℕ) (s : Search) :
    search g' n s = search g n s := by
  induction n generalizing s with
  | zero => rfl
  | succ n ih =>
    have hvisit : ∀ d u, visit g' s d u = visit g s d u := fun d u => by
      unfold visit
      rw [h]
    unfold search
    cases s.queue.entries with
    | nil => rfl
    | cons e rest =>
      simp only [hvisit]
      congr 1
      funext t
      exact ih t

theorem turns_congr {g g' : RouteGraph} (h : g'.vertices = g.vertices) (s : Search) :
    search g' g'.turns s = search g g.turns s := by
  rw [search_congr h, turns, turns, h]

/-- A search from a vertex ends with an empty queue, or a sum of latencies overflows. -/
theorem search_isVertex {g : RouteGraph} (hwf : g.WellFormed) {start : Uuid}
    (h : g.isVertex start = true) :
    Outcome (· = .negativeLatency)
      (fun s => s.queue.entries = [] ∧ ∃ visited dist, Searching g start visited dist s)
      (search g g.turns (startSearch start)) := by
  refine (searching_start h).search hwf ?_
  have hlt : g.vertices.entries.length + 1 < g.turns := Nat.lt_two_pow_self
  rw [List.length_nil]
  omega

theorem search_missingVertex {g : RouteGraph} {start : Uuid} (h : g.isVertex start = false) :
    search g g.turns (startSearch start) = .error .missingVertex := by
  have hnone : g.vertices.find start = none := by simpa [isVertex] using h
  obtain ⟨n, hn⟩ : ∃ n, g.turns = n + 1 := Nat.exists_eq_succ_of_ne_zero (by simp [turns])
  rw [hn]
  unfold search
  change (visit g (startSearch start) 0 start >>= _) = _
  unfold visit
  rw [hnone]
  rfl

theorem Searching.walkBack_ends {g : RouteGraph} {source : Uuid} {visited : List Uuid} {dist : ℤ}
    {s : Search} (h : Searching g source visited dist s) (hq : s.queue.entries = []) (v : Uuid)
    (k : ℕ) : walkBack s.info.previous source (s.info.previous.entries.length + 1 + k) v =
      walkBack s.info.previous source (s.info.previous.entries.length + 1) v := by
  cases hp : s.info.previous.find v with
  | none =>
    rw [Nat.add_right_comm]
    unfold walkBack
    rw [hp]
  | some u =>
    obtain ⟨d, hd⟩ := (h.previous hp).2.1
    exact h.walkBack_more (Nat.lt_succ_of_le (h.idxOf_le hq hd)) k

/-- What is kept for a start is what a search finds. -/
def Fresh (g : RouteGraph) : Prop := ∀ {start info}, g.pathes.find start = some info →
  g.isVertex start = true ∧
    ∃ s, search g g.turns (startSearch start) = .ok s ∧ s.info = info

theorem fresh_of_empty {g : RouteGraph} (h : g.pathes = .empty) : g.Fresh := by
  intro start info hinfo
  rw [h] at hinfo
  cases hinfo

/-- What `MShortestPath` gives and keeps, when it starts at a vertex. -/
structure Found (g : RouteGraph) (start finish : Uuid) (r : List Uuid × RouteGraph) : Prop where
  vertices : r.2.vertices = g.vertices
  search : ∃ s, search g g.turns (startSearch start) = .ok s ∧
    r.1 = (walkBack s.info.previous start (s.info.previous.entries.length + 1) finish).reverse
  fresh : r.2.Fresh

theorem shortestPath_of_search {g : RouteGraph} (hf : g.Fresh) {start : Uuid}
    (h : g.isVertex start = true) {s : Search} (hs : search g g.turns (startSearch start) = .ok s)
    (finish : Uuid) : ∃ r, g.shortestPath start finish = .ok r ∧ Found g start finish r := by
  unfold shortestPath
  cases hkept : g.pathes.find start with
  | some info =>
    obtain ⟨-, t, ht, rfl⟩ := hf hkept
    refine ⟨((walkBack t.info.previous start (t.info.previous.entries.length + 1)
      finish).reverse, g), ?_, rfl, ⟨t, ht, rfl⟩, hf⟩
    simp only [Option.isNone_some, Bool.false_eq_true, if_false]
    dsimp only [bind, Except.bind]
    rw [hkept]
    rfl
  | none =>
    have hturns := @turns_congr g { g with pathes := g.pathes.insert start s.info } rfl
    refine ⟨((walkBack s.info.previous start (s.info.previous.entries.length + 1) finish).reverse,
      { g with pathes := g.pathes.insert start s.info }), ?_, rfl, ⟨s, hs, rfl⟩,
      fun {u info} hu => ?_⟩
    · simp only [Option.isNone_none, if_true]
      unfold dijkstraComputePathsFor
      rw [hs]
      dsimp only [bind, Except.bind, pure, Except.pure]
      rw [SortedMap.find_insert_self]
    · change (g.pathes.insert start s.info).find u = some info at hu
      rw [SortedMap.find_insert] at hu
      split_ifs at hu with heq
      · cases hu
        rw [heq]
        exact ⟨h, s, (hturns _).trans hs, rfl⟩
      · obtain ⟨hv, t, ht, hinfo⟩ := hf hu
        exact ⟨hv, t, (hturns _).trans ht, hinfo⟩

theorem shortestPath_of_error {g : RouteGraph} (hf : g.Fresh) {start : Uuid} {e : Abort}
    (hs : search g g.turns (startSearch start) = .error e) (finish : Uuid) :
    g.shortestPath start finish = .error e := by
  unfold shortestPath
  cases hkept : g.pathes.find start with
  | some info =>
    obtain ⟨-, s, hs', -⟩ := hf hkept
    rw [hs] at hs'
    cases hs'
  | none =>
    simp only [Option.isNone_none, if_true]
    unfold dijkstraComputePathsFor
    rw [hs]
    rfl

theorem shortestPath_spec {g : RouteGraph} (hwf : g.WellFormed) (hf : g.Fresh) {start : Uuid}
    (h : g.isVertex start = true) (finish : Uuid) :
    Outcome (· = .negativeLatency) (Found g start finish) (g.shortestPath start finish) := by
  have hends := search_isVertex hwf h
  cases hs : search g g.turns (startSearch start) with
  | error e =>
    rw [hs] at hends
    rw [shortestPath_of_error hf hs finish]
    exact hends
  | ok s =>
    obtain ⟨r, hr, hfound⟩ := shortestPath_of_search hf h hs finish
    rw [hr]
    exact hfound

theorem shortestPath_missingVertex {g : RouteGraph} (hf : g.Fresh) {start : Uuid}
    (h : g.isVertex start = false) (finish : Uuid) :
    g.shortestPath start finish = .error .missingVertex :=
  shortestPath_of_error hf (search_missingVertex h) finish

/-- What is kept of the ends of edges and of the ways that are kept. -/
structure Sound (g : RouteGraph) : Prop where
  wellFormed : g.WellFormed
  fresh : g.Fresh

theorem sound_empty : empty.Sound := ⟨wellFormed_empty, fresh_of_empty rfl⟩

theorem Found.sound {g : RouteGraph} (h : g.Sound) {start finish : Uuid}
    {r : List Uuid × RouteGraph} (hr : Found g start finish r) : r.2.Sound := by
  refine ⟨⟨fun {u v w} huv => ?_, fun {u v w} huv => ?_⟩, hr.fresh⟩
  all_goals rw [RouteGraph.edge, hr.vertices] at huv
  · rw [isVertex, hr.vertices]
    exact h.wellFormed.vertex huv
  · exact h.wellFormed.latency huv

theorem apply_sound {g : RouteGraph} (h : g.Sound) {op : Op} (hop : NonNegative op) :
    Outcome (fun e => e = .negativeLatency ∨ e = .missingVertex ∧ ¬ Safe g op) Sound
      (apply op g) := by
  cases op with
  | addNode name edges =>
    obtain ⟨g', hg', hadded⟩ := addNode_spec name g edges fun e he => (hop e he).1
    change Outcome _ _ (g.addNode name edges)
    rw [hg']
    exact Outcome.ok ⟨hadded.wellFormed hop h.wellFormed, fresh_of_empty hadded.pathes⟩
  | removeNode name =>
    refine Outcome.ok ?_
    cases hv : g.isVertex name with
    | true =>
      have hremoved := removeNode_spec hv
      exact ⟨hremoved.wellFormed h.wellFormed, fresh_of_empty hremoved.pathes⟩
    | false =>
      rw [removeNode_of_not_isVertex hv]
      exact h
  | reset => exact Outcome.ok sound_empty
  | shortestPath start finish =>
    change Outcome _ _ (g.shortestPath start finish >>= fun r => pure r.2)
    cases hv : g.isVertex start with
    | true =>
      have hspec := shortestPath_spec h.wellFormed h.fresh hv finish
      exact (hspec.weaken fun _ => .inl).bind fun r hr => Outcome.ok (hr.sound h)
    | false =>
      rw [shortestPath_missingVertex h.fresh hv]
      exact .inr ⟨rfl, fun hsafe => absurd (hv.symm.trans hsafe) (by decide)⟩

theorem runOps_sound {ops : List Op} (h : EveryStep apply (fun _ => NonNegative) ops empty) :
    Outcome (fun _ => True) Sound (runAll apply ops empty) :=
  runAll_outcome (fun _ _ hg hop => (apply_sound hg hop).weaken fun _ _ => True.intro)
    sound_empty h

/-- The integrity of a graph. The ends of edges are vertices; `MAddNode` gives all edges the
    latencies it is told, unless one has another already; what is kept is what would be computed
    anew; and `MShortestPath` meets no missing vertex when it starts at a vertex: its search ends
    with an empty queue unless a sum of latencies overflows, and its walk back ends. -/
structure Integrity (g : RouteGraph) : Prop where
  vertex : ∀ {u v w}, g.edge u v = some w → g.isVertex v = true
  updates : ∀ name edges, NonNegative (.addNode name edges) →
    ∃ g', g.addNode name edges = .ok g' ∧
      ((∀ e ∈ edges.entries, g'.edge name e.1 = some e.2) ↔ Safe g (.addNode name edges))
  kept : ∀ {start info}, g.pathes.find start = some info →
    ∃ g', dijkstraComputePathsFor start g.resetCache = .ok g' ∧ g'.pathes.find start = some info
  noMissing : ∀ start finish,
    g.shortestPath start finish ≠ .error .missingVertex ↔ Safe g (.shortestPath start finish)
  ends : ∀ start finish, Safe g (.shortestPath start finish) →
    Outcome (· = .negativeLatency) (Found g start finish) (g.shortestPath start finish) ∧
    Outcome (· = .negativeLatency) (fun s => s.queue.entries = [] ∧ ∀ k,
      search g (g.turns + k) (startSearch start) = .ok s ∧
      walkBack s.info.previous start (s.info.previous.entries.length + 1 + k) finish =
        walkBack s.info.previous start (s.info.previous.entries.length + 1) finish)
      (search g g.turns (startSearch start))

theorem Added.updates_iff {name : Uuid} {edges : Vertexs} {g g' : RouteGraph}
    (h : Added name edges g g') : (∀ e ∈ edges.entries, g'.edge name e.1 = some e.2) ↔
      Safe g (.addNode name edges) := by
  refine forall₂_congr fun e he => ?_
  rw [h.edge, if_pos rfl, (SortedMap.mem_entries_iff ..).1 he]
  cases g.edge name e.1 with
  | none => simp
  | some w => simp

theorem Sound.integrity {g : RouteGraph} (h : g.Sound) : g.Integrity where
  vertex := h.wellFormed.vertex
  updates := fun name edges hlat => by
    obtain ⟨g', hg', hadded⟩ := addNode_spec name g edges fun e he => (hlat e he).1
    exact ⟨g', hg', hadded.updates_iff⟩
  kept := fun {start info} hinfo => by
    obtain ⟨-, s, hs, rfl⟩ := h.fresh hinfo
    refine ⟨{ g.resetCache with pathes := SortedMap.empty.insert start s.info }, ?_, ?_⟩
    · unfold dijkstraComputePathsFor
      rw [@turns_congr g g.resetCache rfl, hs]
      rfl
    · exact SortedMap.find_insert_self ..
  noMissing := fun start finish => by
    cases hv : g.isVertex start with
    | true =>
      have hspec := shortestPath_spec h.wellFormed h.fresh hv finish
      refine iff_of_true (fun heq => ?_) hv
      rw [heq] at hspec
      cases hspec
    | false =>
      refine iff_of_false (fun hne => hne (shortestPath_missingVertex h.fresh hv finish)) ?_
      intro hsafe
      exact absurd (hv.symm.trans hsafe) (by decide)
  ends := fun start finish hv => by
    refine ⟨shortestPath_spec h.wellFormed h.fresh hv finish, ?_⟩
    have hends := search_isVertex h.wellFormed hv
    cases hs : search g g.turns (startSearch start) with
    | error e =>
      rw [hs] at hends
      exact hends
    | ok s =>
      rw [hs] at hends
      obtain ⟨hq, visited, dist, hsearching⟩ := hends
      exact Outcome.ok ⟨hq, fun k => ⟨Searching.search_more hs hq k,
        hsearching.walkBack_ends hq finish k⟩⟩

theorem runOps_integrity (ops : List Op) (h : EveryStep apply StepOk ops empty) :
    Outcome (· = .negativeLatency) Integrity (runAll apply ops empty) := by
  have hsound : Outcome (· = .negativeLatency) Sound (runAll apply ops empty) := by
    refine runAll_outcome (fun g op hg hop => ?_) sound_empty h
    refine (apply_sound hg hop.1).weaken fun e he => ?_
    rcases he with he | ⟨-, hnot⟩
    · exact he
    · exact absurd hop.2 hnot
  exact hsound.mono fun _ hg => hg.integrity

def linkOps : List Op :=
  [.addNode 1 (SortedMap.empty.insert 2 3), .shortestPath 1 2,
    .addNode 1 (SortedMap.empty.insert 2 3), .removeNode 2, .shortestPath 1 2]

theorem runOps_integrity_link : EveryStep apply StepOk linkOps empty ∧
    Outcome (· = .negativeLatency) Integrity (runAll apply linkOps empty) :=
  ⟨by decide, runOps_integrity linkOps (by decide)⟩

/-- A start that is no vertex is looked for in the list of vertices all the same, and an edge
    that is given once more keeps its latency. -/
theorem integrity_false_of_no_vertex :
    empty.shortestPath 1 2 = .error .missingVertex ∧
      ∃ g, runAll apply [.addNode 1 (SortedMap.empty.insert 2 3),
        .addNode 1 (SortedMap.empty.insert 2 5)] empty = .ok g ∧ g.edge 1 2 = some 3 :=
  ⟨rfl, _, rfl, rfl⟩

end UdtKernel.RouteGraph
