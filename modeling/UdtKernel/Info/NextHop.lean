import UdtKernel.Core.Descriptors
import UdtKernel.Graph.Shortest
import UdtKernel.Info.Known

set_option autoImplicit false

/-! The next destinations, which the service keeps until the network changes. -/

namespace UdtKernel
open UdtKernel.Lib

/-- What the info of a descriptor says of a link; the type of a program is one of two. -/
def linkInfoOf (i : Core.DescriptorInfo) : DescriptorInfo :=
  ⟨i.program.id.uuid, i.program.id.name, if i.program.type = 2 then .consumer else .kernel,
    i.latency⟩

def publishedBy (t : Core.Descriptors) : Core.Descriptors.Op → List Event
  | .create => []
  | .open_ aVal aInfo => match t.descriptors.find aVal with
    | none => []
    | some _ => [.opened aVal (linkInfoOf aInfo)]
  | .close aVal => match t.descriptors.find aVal with
    | some (some i) => [.closed aVal (linkInfoOf i)]
    | _ => []

def linksOfTable (t : Core.Descriptors) : SortedMap Descriptor DescriptorInfo :=
  (t.descriptors.filter fun _ o => o.isSome).mapVal fun _ o => linkInfoOf (o.getD .default)

/-- The service, the table and the events of the table that the service has not handled. -/
structure NextHop where
  table : Core.Descriptors
  published : List Event
  data : InfoData

namespace NextHop

def firstOf (t : Core.Descriptors) : List Uuid → Except Abort (List Descriptor)
  | [] => .ok []
  | u :: _ => match t.mGetByUuid u with
    | none => .error .readOutside
    | some d => .ok (if d = invalidDescriptor then [] else [d])

def nextDestinations (aMe : Id) (aTo : Uuid) (s : NextHop) :
    Except Abort (List Descriptor × NextHop) :=
  match s.data.destinationCache.find aTo with
  | some next => .ok (next, s)
  | none => do
    let (short, graph) ← s.data.graph.shortestPath aMe.uuid aTo
    let next ← firstOf s.table short
    return (next, { s with data := { s.data with
      graph := graph
      destinationCache := s.data.destinationCache.insert aTo next } })

/-- What `MNextDestinations` gives. -/
def answer (aMe : Id) (aTo : Uuid) (s : NextHop) : Except Abort (List Descriptor) :=
  (s.nextDestinations aMe aTo).map Prod.fst

/-- The same network, of which nothing is kept. -/
def uncached (s : NextHop) : NextHop := { s with data := s.data.resetCache }

inductive Op where
  | table (op : Core.Descriptors.Op)
  | handle (n : ℕ)
  | netInfo (aFrom : Descriptor) (aNet : KernelInfosArray)
  | query (aTo : Uuid)

def handleEvent (aMe : Id) (n : ℕ) (s : NextHop) : Except Abort NextHop :=
  match s.published[n]? with
  | none => .ok s
  | some e => do
    let data ← s.data.step aMe e
    return { s with published := s.published.eraseIdx n, data := data }

def changeTable (op : Core.Descriptors.Op) (s : NextHop) : Except Abort NextHop :=
  match Core.Descriptors.step op s.table with
  | .ok t => .ok { s with table := t, published := s.published ++ publishedBy s.table op }
  | .error e => nomatch e

def step (aMe : Id) : Op → NextHop → Except Abort NextHop
  | .table op, s => s.changeTable op
  | .handle n, s => s.handleEvent aMe n
  | .netInfo aFrom aNet, s => do
    let data ← s.data.step aMe (.netInfo aFrom aNet)
    return { s with data := data }
  | .query aTo, s => do
    let r ← s.nextDestinations aMe aTo
    return r.2

/-- What `MStart` leaves, with a table. -/
def start (aMe : Id) (t : Core.Descriptors) : Except Abort NextHop := do
  let data ← InfoData.start aMe (linksOfTable t)
  return ⟨t, [], data⟩

end NextHop

namespace RouteGraph

/-- What is kept does not change the ways. -/
theorem shortestPath_congr {g g' : RouteGraph} (hf : g.Fresh) (hf' : g'.Fresh)
    (h : g'.vertices = g.vertices) (start finish : Uuid) :
    (g'.shortestPath start finish).map Prod.fst = (g.shortestPath start finish).map Prod.fst := by
  have hvertex : g'.isVertex start = g.isVertex start := by rw [isVertex, isVertex, h]
  cases hv : g.isVertex start with
  | false =>
    rw [shortestPath_missingVertex hf hv, shortestPath_missingVertex hf' (hvertex.trans hv)]
  | true =>
    have hsearch := turns_congr h (startSearch start)
    cases hs : search g g.turns (startSearch start) with
    | error e =>
      rw [shortestPath_of_error hf hs, shortestPath_of_error hf' (hsearch.trans hs)]
    | ok s =>
      obtain ⟨r, hr, hfound⟩ := shortestPath_of_search hf hv hs finish
      obtain ⟨r', hr', hfound'⟩ :=
        shortestPath_of_search hf' (hvertex.trans hv) (hsearch.trans hs) finish
      obtain ⟨t, ht, hpath⟩ := hfound.search
      obtain ⟨t', ht', hpath'⟩ := hfound'.search
      rw [hs] at ht
      rw [hsearch, hs] at ht'
      cases ht
      cases ht'
      rw [hr, hr']
      exact congrArg Except.ok (hpath'.trans hpath.symm)

theorem shortestPath_fresh {g g' : RouteGraph} (hf : g.Fresh) {start finish : Uuid}
    {path : List Uuid} (h : g.shortestPath start finish = .ok (path, g')) :
    g'.Fresh ∧ g'.vertices = g.vertices := by
  cases hv : g.isVertex start with
  | false =>
    rw [shortestPath_missingVertex hf hv] at h
    exact nomatch h
  | true =>
    cases hs : search g g.turns (startSearch start) with
    | error e =>
      rw [shortestPath_of_error hf hs] at h
      exact nomatch h
    | ok s =>
      obtain ⟨r, hr, hfound⟩ := shortestPath_of_search hf hv hs finish
      rw [h] at hr
      cases hr
      exact ⟨hfound.fresh, hfound.vertices⟩

theorem addNode_pathes {name : Uuid} {edges : Vertexs} {g g' : RouteGraph}
    (h : g.addNode name edges = .ok g') : g'.pathes = .empty := by
  unfold addNode at h
  split_ifs at h
  cases h
  rfl

end RouteGraph

namespace InfoData

structure Cleared (d : InfoData) : Prop where
  destinationCache : d.destinationCache = .empty
  pathes : d.graph.pathes = .empty

theorem cleared_resetCache (d : InfoData) : d.resetCache.Cleared := ⟨rfl, rfl⟩

theorem rebuildGraph_cleared {d d' : InfoData} (h : rebuildGraph d = .ok d')
    (hd : d.destinationCache = .empty) : d'.Cleared := by
  obtain ⟨g, hg, hd'⟩ := eq_ok_of_bind h
  cases hd'
  have hpathes : Outcome (fun _ => True) (fun g : RouteGraph => g.pathes = .empty)
      (d.fnet.net.entries.foldlM (fun g e => g.addNode e.1 (linksOf e.2)) d.graph.reset) := by
    refine Outcome.foldlM rfl fun g _ e _ => ?_
    cases hadd : g.addNode e.1 (linksOf e.2) with
    | error _ => trivial
    | ok g' => exact RouteGraph.addNode_pathes hadd
  rw [hg] at hpathes
  exact ⟨hd, hpathes⟩

theorem handleOpen_cleared {aMe : Id} {aFrom : Descriptor} {aInfo : DescriptorInfo}
    {d : InfoData} {r : InfoData × Synchronized} (h : handleOpen aMe aFrom aInfo d = .ok r) :
    r.1.Cleared := by
  obtain ⟨⟨d₁, opened⟩, -, h⟩ := eq_ok_of_bind h
  cases htype : aInfo.link.type with
  | consumer =>
    simp only [htype] at h
    obtain ⟨_, -, h⟩ := eq_ok_of_bind h
    cases h
    exact cleared_resetCache _
  | kernel =>
    simp only [htype] at h
    obtain ⟨⟨isNew, d₂, opened'⟩, -, h⟩ := eq_ok_of_bind h
    obtain ⟨_, -, h⟩ := eq_ok_of_bind h
    cases h
    exact cleared_resetCache _

theorem handleClose_cleared {aMe : Id} {aFrom : Descriptor} {aInfo : DescriptorInfo}
    {d : InfoData} {r : InfoData × Synchronized} (h : handleClose aMe aFrom aInfo d = .ok r) :
    r.1.Cleared := by
  obtain ⟨⟨d₁, closed⟩, -, h⟩ := eq_ok_of_bind h
  cases htype : aInfo.link.type with
  | consumer =>
    simp only [htype] at h
    cases h
    exact cleared_resetCache _
  | kernel =>
    simp only [htype] at h
    obtain ⟨⟨d₂, closed'⟩, -, h⟩ := eq_ok_of_bind h
    obtain ⟨d₃, -, h⟩ := eq_ok_of_bind h
    cases h
    exact cleared_resetCache _

/-- A snapshot that changes nothing leaves what is kept. -/
theorem handle_cleared {aNet : KernelInfosArray} {aFrom : Descriptor} {d : InfoData}
    {r : InfoData × Option Synchronized} (h : handle aNet aFrom d = .ok r) :
    r.1.Cleared ∨ r.1.destinationCache = d.destinationCache ∧ r.1.graph = d.graph := by
  obtain ⟨⟨d₁, diff⟩, hsync, h⟩ := eq_ok_of_bind h
  obtain ⟨_, -, hd₁⟩ := eq_ok_of_bind hsync
  cases hvalid : diff.isValid with
  | true =>
    simp only [hvalid, if_true] at h
    obtain ⟨d₂, hrebuild, h⟩ := eq_ok_of_bind h
    cases h
    exact .inl (rebuildGraph_cleared hrebuild rfl)
  | false =>
    simp only [hvalid, Bool.false_eq_true, if_false] at h
    cases h
    cases hd₁
    exact .inr ⟨rfl, rfl⟩

/-- An event of the table clears what is kept; a snapshot does, or it leaves the graph. -/
theorem step_cleared {aMe : Id} {e : Event} {d d' : InfoData} (h : step aMe e d = .ok d') :
    d'.Cleared ∨ (∃ aFrom aNet, e = .netInfo aFrom aNet) ∧
      d'.destinationCache = d.destinationCache ∧ d'.graph = d.graph := by
  obtain ⟨r, hr, h⟩ := eq_ok_of_bind h
  cases h
  cases e with
  | opened aFrom aInfo =>
    obtain ⟨_, hopen, hr⟩ := eq_ok_of_bind hr
    cases hr
    exact .inl (handleOpen_cleared hopen)
  | closed aFrom aInfo =>
    obtain ⟨_, hclose, hr⟩ := eq_ok_of_bind hr
    cases hr
    exact .inl (handleClose_cleared hclose)
  | netInfo aFrom aNet =>
    obtain ⟨_, hhandle, hr⟩ := eq_ok_of_bind hr
    cases hr
    exact (handle_cleared hhandle).imp_right fun hsame => ⟨⟨aFrom, aNet, rfl⟩, hsame⟩

end InfoData

/-- The index of the table points to no descriptor that has been created only. -/
structure Indexed (t : Core.Descriptors) : Prop where
  keys : ∀ d, (t.descriptors.find d).isSome = true → d ≤ t.last
  known : ∀ u d, t.byUuids.find u = some d → d ≤ t.last ∧ t.descriptors.find d ≠ some none

namespace Indexed

variable {t t' : Core.Descriptors}

theorem new : Indexed Core.Descriptors.new :=
  ⟨fun _ h => (nomatch h), fun _ _ h => (nomatch h)⟩

theorem mCreate (h : Indexed t) : Indexed t.mCreate := by
  refine ⟨fun d hd => ?_, fun u d hu => ?_⟩
  · change ((t.descriptors.insert (t.last + 1) none).find d).isSome = true at hd
    change d ≤ t.last + 1
    rw [SortedMap.find_insert] at hd
    split_ifs at hd with hnew
    · exact Int.le_of_eq hnew
    · exact Int.le_add_one (h.keys d hd)
  · obtain ⟨hle, hne⟩ := h.known u d hu
    refine ⟨Int.le_add_one hle, ?_⟩
    change (t.descriptors.insert (t.last + 1) none).find d ≠ some none
    rw [SortedMap.find_insert, if_neg (ne_of_lt (Int.lt_add_one_of_le hle))]
    exact hne

theorem mOpenInfo (h : Indexed t) {e : Descriptor} (he : e ≤ t.last) (i : Core.DescriptorInfo) :
    Indexed (t.mOpenInfo e i) := by
  refine ⟨fun d hd => ?_, fun u d hu => ?_⟩
  · change ((t.descriptors.insert e (some i)).find d).isSome = true at hd
    rw [SortedMap.find_insert] at hd
    split_ifs at hd with hself
    · exact hself ▸ he
    · exact h.keys d hd
  · change (t.byUuids.insert i.program.id.uuid e).find u = some d at hu
    change d ≤ t.last ∧ (t.descriptors.insert e (some i)).find d ≠ some none
    rw [SortedMap.find_insert]
    rw [SortedMap.find_insert] at hu
    split_ifs at hu with hu₀
    · cases hu
      rw [if_pos rfl]
      exact ⟨he, fun heq => nomatch heq⟩
    · refine ⟨(h.known u d hu).1, ?_⟩
      split_ifs
      · exact fun heq => nomatch heq
      · exact (h.known u d hu).2

theorem erase (h : Indexed t) (e : Descriptor) :
    Indexed { t with descriptors := t.descriptors.erase e } := by
  refine ⟨fun d hd => ?_, fun u d hu => ?_⟩
  · rw [SortedMap.find_erase] at hd
    split_ifs at hd
    · exact nomatch hd
    · exact h.keys d hd
  · rw [SortedMap.find_erase]
    refine ⟨(h.known u d hu).1, ?_⟩
    split_ifs
    · exact fun heq => nomatch heq
    · exact (h.known u d hu).2

theorem mCloseInfo (h : Indexed t) (i : Core.DescriptorInfo) : Indexed (t.mCloseInfo i) := by
  refine ⟨h.keys, fun u d hu => h.known u d ?_⟩
  change (t.byUuids.erase i.program.id.uuid).find u = some d at hu
  rw [SortedMap.find_erase] at hu
  split_ifs at hu
  exact hu

/-- A change of the table that is not published finds the same descriptors. -/
theorem step {op : Core.Descriptors.Op} (h : Indexed t)
    (hop : Core.Descriptors.step op t = .ok t') :
    Indexed t' ∧ (publishedBy t op = [] → ∀ u, t'.mGetByUuid u = t.mGetByUuid u) := by
  cases op with
  | create =>
    cases hop
    refine ⟨h.mCreate, fun _ u => ?_⟩
    unfold Core.Descriptors.mGetByUuid
    have hindex : t.mCreate.byUuids = t.byUuids := rfl
    rw [hindex]
    cases hu : t.byUuids.find u with
    | none => rfl
    | some d =>
      have hne : d ≠ t.last + 1 := ne_of_lt (Int.lt_add_one_of_le (h.known u d hu).1)
      change (if ((t.descriptors.insert (t.last + 1) none).find d).isSome = true then _ else _) = _
      rw [SortedMap.find_insert, if_neg hne]
  | open_ aVal aInfo =>
    cases hop
    unfold Core.Descriptors.mOpen
    cases hfind : t.descriptors.find aVal with
    | none => exact ⟨h, fun _ _ => rfl⟩
    | some o =>
      refine ⟨h.mOpenInfo (h.keys aVal (by rw [hfind]; rfl)) aInfo, fun hnil => ?_⟩
      simp only [publishedBy, hfind] at hnil
      exact nomatch hnil
  | close aVal =>
    cases hop
    unfold Core.Descriptors.mClose
    cases hfind : t.descriptors.find aVal with
    | none => exact ⟨h, fun _ _ => rfl⟩
    | some o =>
      cases o with
      | some i =>
        refine ⟨(h.erase aVal).mCloseInfo i, fun hnil => ?_⟩
        simp only [publishedBy, hfind] at hnil
        exact nomatch hnil
      | none =>
        refine ⟨h.erase aVal, fun _ u => ?_⟩
        unfold Core.Descriptors.mGetByUuid
        dsimp only
        cases hu : t.byUuids.find u with
        | none => rfl
        | some d =>
          have hne : d ≠ aVal := by
            rintro rfl
            exact (h.known u d hu).2 hfind
          change (if ((t.descriptors.erase aVal).find d).isSome = true then _ else _) = _
          rw [SortedMap.find_erase, if_neg hne]

end Indexed

namespace NextHop

variable {aMe : Id} {aTo : Uuid} {s s' : NextHop} {op : Op}

theorem answer_of_find {next : List Descriptor}
    (h : s.data.destinationCache.find aTo = some next) : s.answer aMe aTo = .ok next := by
  unfold answer nextDestinations
  rw [h]
  rfl

theorem answer_of_not_find (h : s.data.destinationCache.find aTo = none) :
    s.answer aMe aTo =
      (s.data.graph.shortestPath aMe.uuid aTo).map Prod.fst >>= firstOf s.table := by
  unfold answer nextDestinations
  rw [h]
  dsimp only
  cases s.data.graph.shortestPath aMe.uuid aTo with
  | error e => rfl
  | ok r =>
    change Except.map Prod.fst (firstOf s.table r.1 >>= _) = firstOf s.table r.1
    cases firstOf s.table r.1 <;> rfl

theorem answer_uncached (aMe : Id) (aTo : Uuid) (s : NextHop) : s.uncached.answer aMe aTo =
    (s.data.graph.resetCache.shortestPath aMe.uuid aTo).map Prod.fst >>= firstOf s.table :=
  answer_of_not_find rfl

theorem firstOf_congr {t t' : Core.Descriptors} (h : ∀ u, t'.mGetByUuid u = t.mGetByUuid u)
    (path : List Uuid) : firstOf t' path = firstOf t path := by
  cases path with
  | nil => rfl
  | cons u rest => rw [firstOf, firstOf, h]

/-- What is computed anew depends on the vertices and on what is found in the table. -/
theorem answer_uncached_congr (s s' : NextHop) (hv : s'.data.graph.vertices = s.data.graph.vertices)
    (ht : ∀ u, s'.table.mGetByUuid u = s.table.mGetByUuid u) (aMe : Id) (aTo : Uuid) :
    s'.uncached.answer aMe aTo = s.uncached.answer aMe aTo := by
  have hgraph : s'.data.graph.resetCache = s.data.graph.resetCache := by
    unfold RouteGraph.resetCache
    rw [hv]
  rw [answer_uncached, answer_uncached, hgraph]
  exact congrArg (_ >>= ·) (funext (firstOf_congr ht))

/-- What is kept would be computed anew, unless an event has not been handled. -/
structure Kept (aMe : Id) (s : NextHop) : Prop where
  indexed : Indexed s.table
  fresh : s.data.graph.Fresh
  answers : s.published = [] → ∀ aTo next,
    s.data.destinationCache.find aTo = some next → s.uncached.answer aMe aTo = .ok next

theorem Kept.answer_eq (h : Kept aMe s) (hs : s.published = []) (aTo : Uuid) :
    s.answer aMe aTo = s.uncached.answer aMe aTo := by
  cases hfind : s.data.destinationCache.find aTo with
  | some next => rw [answer_of_find hfind, h.answers hs aTo next hfind]
  | none =>
    have hfresh : s.data.graph.resetCache.Fresh := RouteGraph.fresh_of_empty rfl
    rw [answer_of_not_find hfind, answer_uncached,
      RouteGraph.shortestPath_congr h.fresh hfresh rfl]

theorem Kept.query (h : Kept aMe s) {next : List Descriptor}
    (hquery : s.nextDestinations aMe aTo = .ok (next, s')) : Kept aMe s' := by
  have hanswer : s.answer aMe aTo = .ok next := by
    unfold answer
    rw [hquery]
    rfl
  unfold nextDestinations at hquery
  cases hfind : s.data.destinationCache.find aTo with
  | some next' =>
    rw [hfind] at hquery
    cases hquery
    exact h
  | none =>
    rw [hfind] at hquery
    obtain ⟨⟨short, graph⟩, hshort, hquery⟩ := eq_ok_of_bind hquery
    obtain ⟨next', hnext, hquery⟩ := eq_ok_of_bind hquery
    cases hquery
    obtain ⟨hfresh, hvertices⟩ := RouteGraph.shortestPath_fresh h.fresh hshort
    refine ⟨h.indexed, hfresh, fun hs aTo' next' hnext' => ?_⟩
    change (s.data.destinationCache.insert aTo next).find aTo' = some next' at hnext'
    refine (answer_uncached_congr s { s with data := { s.data with
      graph := graph
      destinationCache := s.data.destinationCache.insert aTo next } } hvertices (fun _ => rfl)
      aMe aTo').trans ?_
    rw [SortedMap.find_insert] at hnext'
    split_ifs at hnext' with hself
    · cases hnext'
      rw [hself, ← h.answer_eq hs, hanswer]
    · exact h.answers hs aTo' next' hnext'

/-- What is kept after an event. -/
theorem Kept.event (h : Kept aMe s) {e : Event} {d : InfoData}
    (hstep : s.data.step aMe e = .ok d) (l : List Event)
    (hl : (∃ aFrom aNet, e = .netInfo aFrom aNet) → l = s.published) :
    Kept aMe { s with published := l, data := d } := by
  rcases InfoData.step_cleared hstep with hcleared | ⟨hnet, hcache, hgraph⟩
  · refine ⟨h.indexed, RouteGraph.fresh_of_empty hcleared.pathes, fun _ aTo next hfind => ?_⟩
    change d.destinationCache.find aTo = some next at hfind
    rw [hcleared.destinationCache] at hfind
    exact nomatch hfind
  · refine ⟨h.indexed, ?_, fun hs aTo next hfind => ?_⟩
    · change d.graph.Fresh
      rw [hgraph]
      exact h.fresh
    · change d.destinationCache.find aTo = some next at hfind
      rw [hcache] at hfind
      have hvertices : d.graph.vertices = s.data.graph.vertices := by rw [hgraph]
      refine (answer_uncached_congr s { s with published := l, data := d } hvertices
        (fun _ => rfl) aMe aTo).trans ?_
      exact h.answers ((hl hnet).symm.trans hs) aTo next hfind

def OfTable (l : List Event) : Prop := ∀ e ∈ l, ¬∃ aFrom aNet, e = .netInfo aFrom aNet

theorem ofTable_publishedBy (t : Core.Descriptors) (op : Core.Descriptors.Op) :
    OfTable (publishedBy t op) := by
  intro e he
  unfold publishedBy at he
  split at he
  · exact absurd he List.not_mem_nil
  · split at he
    · exact absurd he List.not_mem_nil
    · rw [List.mem_singleton.1 he]
      exact fun ⟨_, _, h⟩ => nomatch h
  · split at he
    · rw [List.mem_singleton.1 he]
      exact fun ⟨_, _, h⟩ => nomatch h
    · exact absurd he List.not_mem_nil

theorem step_kept (h : Kept aMe s) (hs : OfTable s.published) (hstep : step aMe op s = .ok s') :
    Kept aMe s' ∧ OfTable s'.published := by
  cases op with
  | table op =>
    change s.changeTable op = .ok s' at hstep
    unfold changeTable at hstep
    cases hop : Core.Descriptors.step op s.table with
    | error e => exact nomatch e
    | ok t =>
      rw [hop] at hstep
      cases hstep
      obtain ⟨hindexed, hsame⟩ := h.indexed.step hop
      refine ⟨⟨hindexed, h.fresh, fun hnil aTo next hfind => ?_⟩, fun e he => ?_⟩
      · obtain ⟨hold, hnew⟩ := List.append_eq_nil_iff.1 hnil
        refine (answer_uncached_congr s { s with
          table := t, published := s.published ++ publishedBy s.table op } rfl (hsame hnew)
          aMe aTo).trans ?_
        exact h.answers hold aTo next hfind
      · rcases List.mem_append.1 he with he | he
        · exact hs e he
        · exact ofTable_publishedBy s.table op e he
  | handle n =>
    change s.handleEvent aMe n = .ok s' at hstep
    unfold handleEvent at hstep
    cases hget : s.published[n]? with
    | none =>
      rw [hget] at hstep
      cases hstep
      exact ⟨h, hs⟩
    | some e =>
      rw [hget] at hstep
      obtain ⟨d, hd, hstep⟩ := eq_ok_of_bind hstep
      cases hstep
      refine ⟨h.event hd _ fun hnet => ?_, fun e he => hs e (List.mem_of_mem_eraseIdx he)⟩
      exact absurd hnet (hs e (List.mem_of_getElem? hget))
  | netInfo aFrom aNet =>
    obtain ⟨d, hd, hstep⟩ := eq_ok_of_bind hstep
    cases hstep
    exact ⟨h.event hd _ fun _ => rfl, hs⟩
  | query aTo =>
    obtain ⟨⟨next, s₁⟩, hquery, hstep⟩ := eq_ok_of_bind hstep
    cases hstep
    refine ⟨h.query hquery, ?_⟩
    have hpublished : s₁.published = s.published := by
      unfold nextDestinations at hquery
      split at hquery
      · cases hquery
        rfl
      · obtain ⟨_, -, hquery⟩ := eq_ok_of_bind hquery
        obtain ⟨_, -, hquery⟩ := eq_ok_of_bind hquery
        cases hquery
        rfl
    rw [hpublished]
    exact hs

end NextHop

end UdtKernel
