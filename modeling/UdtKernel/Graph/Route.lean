import Mathlib.Data.Int.Order.Basic
import Mathlib.Data.Prod.Lex
import UdtKernel.Lib.SortedMap
import UdtKernel.Types

set_option autoImplicit false

/-! The graph of the kernels and its shortest ways: `CRouteGraph`. -/

namespace UdtKernel
open UdtKernel.Lib

/-- `CRouteGraph::vertexs_t`: the ends of the edges of a vertex with their latencies. -/
abbrev Vertexs := SortedMap Uuid ℤ

structure PathInfo where
  minDistance : SortedMap Uuid ℤ
  previous : SortedMap Uuid Uuid
  deriving DecidableEq

structure RouteGraph where
  vertices : SortedMap Uuid Vertexs
  pathes : SortedMap Uuid PathInfo
  deriving DecidableEq

namespace RouteGraph

def empty : RouteGraph := ⟨.empty, .empty⟩

def resetCache (g : RouteGraph) : RouteGraph := { g with pathes := .empty }

def reset (_ : RouteGraph) : RouteGraph := empty

/-- `std::map::insert(begin, end)`: an edge that is already there keeps its latency. -/
def insertAll (aTo edges : Vertexs) : Vertexs :=
  edges.entries.foldl (fun res e => res.insertNew e.1 e.2) aTo

/-- `MAddNode`: the ends of the edges become vertices too. -/
def addNode (name : Uuid) (edges : Vertexs) (g : RouteGraph) : Except Abort RouteGraph :=
  if edges.entries.any (·.2 < 0) then .error .negativeLatency
  else
    let vertices := edges.keys.foldl (fun res u => res.insertNew u .empty) g.vertices
    .ok (resetCache
      { g with vertices := vertices.alter name fun o => some (insertAll (o.getD .empty) edges) })

def removeNode (name : Uuid) (g : RouteGraph) : RouteGraph :=
  if (g.vertices.find name).isSome then
    resetCache { g with vertices := (g.vertices.mapVal fun _ edges => edges.erase name).erase name }
  else g

/-- `latency_t` is an `int` of 32 bits. -/
def toLatency (n : ℤ) : ℤ := Int.bmod n (2 ^ 32)

abbrev VertexQueue := SortedMap (ℤ ×ₗ Uuid) Unit

structure Search where
  info : PathInfo
  queue : VertexQueue

/-- One edge of the loop of `MDijkstraComputePathsFor`. The hinted `insert` leaves a distance that
    is there already as it is. -/
def relax (u : Uuid) (dist : ℤ) (s : Search) (e : Uuid × ℤ) : Except Abort Search :=
  let through := toLatency (dist + e.2)
  if through < 0 ∨ e.2 < 0 then .error .negativeLatency
  else
    let known := s.info.minDistance.find e.1
    if known.all (through < ·) then
      let queue := match known with
        | some d => s.queue.erase (toLex (d, e.1))
        | none => s.queue
      let minDistance := s.info.minDistance.insertNew e.1 through
      .ok ⟨⟨minDistance, s.info.previous.insert e.1 u⟩,
        queue.insert (toLex ((minDistance.find e.1).getD 0, e.1)) ()⟩
    else .ok s

def visit (g : RouteGraph) (s : Search) (d : ℤ) (u : Uuid) : Except Abort Search :=
  match g.vertices.find u with
  | none => .error .missingVertex
  | some neighbors =>
    neighbors.entries.foldlM (relax u d) { s with queue := s.queue.erase (toLex (d, u)) }

/-- The outer loop for at most `fuel` turns. -/
def search (g : RouteGraph) : ℕ → Search → Except Abort Search
  | 0, s => .ok s
  | fuel + 1, s => match s.queue.entries with
    | [] => .ok s
    | e :: _ => do search g fuel (← visit g s (ofLex e.1).1 (ofLex e.1).2)

/-- As many turns as the search can take. -/
def turns (g : RouteGraph) : ℕ := 2 ^ (g.vertices.entries.length + 1)

def startSearch (source : Uuid) : Search :=
  ⟨⟨SortedMap.empty.insert source 0, .empty⟩, SortedMap.empty.insert (toLex (0, source)) ()⟩

def dijkstraComputePathsFor (source : Uuid) (g : RouteGraph) : Except Abort RouteGraph := do
  let s ← search g g.turns (startSearch source)
  return { g with pathes := g.pathes.insert source s.info }

/-- The loop of `MShortestPath` back to `start`, for at most `fuel` steps; the last vertex comes
    first. -/
def walkBack (prev : SortedMap Uuid Uuid) (start : Uuid) : ℕ → Uuid → List Uuid
  | 0, _ => []
  | fuel + 1, val => match prev.find val with
    | none => []
    | some before => if val = start then [] else val :: walkBack prev start fuel before

/-- `MShortestPath`, with the graph whose cache it has filled. -/
def shortestPath (start finish : Uuid) (g : RouteGraph) :
    Except Abort (List Uuid × RouteGraph) := do
  let g ← if (g.pathes.find start).isNone then dijkstraComputePathsFor start g else .ok g
  match g.pathes.find start with
  | none => return ([], g)
  | some info =>
    return ((walkBack info.previous start (info.previous.entries.length + 1) finish).reverse, g)

def isVertex (name : Uuid) (g : RouteGraph) : Bool := (g.vertices.find name).isSome

end RouteGraph

end UdtKernel
