/-
# Orders of a graph's vertices

`Graph.topological` lists the vertices so that every edge goes forward: again
and again it takes the least key that waits for no predecessor any more. A
`Frontier` counts for every vertex the predecessors that are still to come. On
an acyclic graph every vertex is taken once; on any other the list stays short.

`Graph.outline` lists, leaf by leaf, every walk backwards from a leaf, a vertex
per line with its distance from the leaf.

Key definitions: `Frontier`, `Graph.topological`, `Graph.outline`.
-/
import MapReduce.Graph.Basic

namespace MapReduce

/-- For how many predecessors each vertex still waits, and the vertices that are
to be taken next. -/
structure Frontier where
  waiting : KeyMap Nat
  ready : KeySet

namespace Frontier

/-- One predecessor of `k` has been taken. -/
def release (f : Frontier) (k : Key) : Frontier :=
  match f.waiting.find? k with
  | some (n + 1) => ⟨f.waiting.insert k n, if n = 0 then f.ready.add k else f.ready⟩
  | _ => f

/-- `k` is taken, and is no predecessor to wait for any more. -/
def take (f : Frontier) (k : Key) (succs : List Key) : Frontier :=
  succs.foldl release ⟨f.waiting, f.ready.erase k⟩

end Frontier

namespace Graph

variable {α : Type}

/-- The frontier before any vertex is taken. -/
def frontier (g : Graph α) : Frontier :=
  let waiting : KeyMap Nat := g.nodes.mapValues (fun k _ => (g.preds k).length)
  ⟨waiting, (waiting.filter (fun _ n => n == 0)).mapValues (fun _ _ => ())⟩

/-- Takes up to `n` vertices, each the least that is ready. -/
def takeReady (g : Graph α) : Nat → Frontier → List Key
  | 0, _ => []
  | n + 1, f =>
    match f.ready.elements with
    | [] => []
    | k :: _ => k :: takeReady g n (f.take k (g.succs k))

/-- The least order of the vertices in which every edge goes forward. -/
def topological (g : Graph α) : List Key := takeReady g g.size g.frontier

/-- The walks of at most `n` vertices backwards from `k`, which stands at
distance `depth`. -/
def outlineFrom (g : Graph α) : Nat → Nat → Key → List (Nat × Key)
  | 0, _, _ => []
  | n + 1, depth, k =>
    if g.contains k then (depth, k) :: (g.preds k).flatMap (outlineFrom g n (depth + 1)) else []

/-- Every walk backwards from a leaf, with the distance from the leaf. No walk
of an acyclic graph has more vertices than the graph. -/
def outline (g : Graph α) : List (Nat × Key) := g.leaves.flatMap (outlineFrom g g.size 0)

end Graph

end MapReduce
