/-
# Directed graphs over keys

A graph holds labels by key and two indexes of its edges: for every vertex the
ends of the edges that leave it, and those of the edges that enter it. An edge
is recorded in both. `Graph.connect` refuses an edge whose ends are missing or
that would close a cycle; every graph built with it is acyclic.

A vertex comes in with an empty record in both indexes (`Graph.insert?`), or with none
until it has an edge (`Graph.place`).

The searches walk the vertices that are not yet seen: `Graph.explore` visits a
vertex at most once, so it ends after as many visits as there are vertices. What a
vertex leads to is found with a queue (`Graph.flood`), in which a vertex may stand
several times; its successors join the queue only the first time.

Key definitions: `EdgeIndex`, `Graph`, `Graph.explore`, `Graph.reaches`, `Graph.flood`,
`Graph.descendants`, `Graph.connect`, `Graph.remove`, `Graph.isConnected`.
Key theorems: `Graph.unexplored_add_lt`.
-/
import MapReduce.Key

namespace MapReduce

/-- For each vertex, the far ends of its edges in one direction. -/
abbrev EdgeIndex := KeyMap KeySet

namespace EdgeIndex

/-- The far ends recorded for `k`, in order. -/
def ends (e : EdgeIndex) (k : Key) : List Key := ((e.find? k).map OrderedSet.elements).getD []

/-- The index with a record for `k`, without ends unless there was one. -/
def enter (e : EdgeIndex) (k : Key) : EdgeIndex := e.upsert k (fun s => s.getD OrderedMap.empty)

/-- The index with the end `l` recorded for `k`. -/
def join (e : EdgeIndex) (k l : Key) : EdgeIndex :=
  e.upsert k (fun s => (s.getD OrderedMap.empty).add l)

/-- The index without the end `l` in the record of `k`. -/
def part (e : EdgeIndex) (k l : Key) : EdgeIndex := e.modify k (fun s => s.erase l)

end EdgeIndex

/-- A directed graph with labels of type `α`. -/
structure Graph (α : Type) where
  nodes : KeyMap α
  outgoing : EdgeIndex
  incoming : EdgeIndex

/-- Why an edge is refused. -/
inductive EdgeFault where
  | missing (key : Key)
  | cycle
deriving DecidableEq

namespace Graph

variable {α : Type}

/-- The graph without vertices. -/
def empty : Graph α := ⟨OrderedMap.empty, OrderedMap.empty, OrderedMap.empty⟩

instance : Inhabited (Graph α) := ⟨empty⟩

/-- The keys of the vertices, in order. -/
def keys (g : Graph α) : List Key := g.nodes.keys

/-- The labels of the vertices, in key order. -/
def labels (g : Graph α) : List α := g.nodes.values

/-- The number of vertices. -/
def size (g : Graph α) : Nat := g.nodes.size

/-- Whether `k` is a vertex. -/
def contains (g : Graph α) (k : Key) : Bool := g.nodes.contains k

/-- The label of a vertex. -/
def label? (g : Graph α) (k : Key) : Option α := g.nodes.find? k

/-- The successors of a vertex, in order. -/
def succs (g : Graph α) (k : Key) : List Key := g.outgoing.ends k

/-- The predecessors of a vertex, in order. -/
def preds (g : Graph α) (k : Key) : List Key := g.incoming.ends k

/-- The vertices without predecessors, in order. -/
def roots (g : Graph α) : List Key := g.keys.filter (fun k => (g.preds k).isEmpty)

/-- The vertices without successors, in order. -/
def leaves (g : Graph α) : List Key := g.keys.filter (fun k => (g.succs k).isEmpty)

/-- The vertices of `unseen` that a walk from `todo` along `next` reaches without
leaving `unseen`, in the order of their first visit. -/
def explore (next : Key → List Key) (unseen todo : List Key) : List Key :=
  match todo with
  | [] => []
  | k :: rest =>
    if k ∈ unseen then k :: explore next (unseen.erase k) (next k ++ rest)
    else explore next unseen rest
termination_by (unseen.length, todo.length)
decreasing_by
  · rename_i h
    have := List.length_pos_of_mem h
    rw [List.length_erase_of_mem h]
    exact Prod.Lex.left _ _ (by omega)
  · exact Prod.Lex.right _ (Nat.lt_succ_self _)

/-- Whether there is a directed walk from `a` to `b`. -/
def reaches (g : Graph α) (a b : Key) : Bool := decide (b ∈ explore g.succs g.keys [a])

/-- How many of the vertices with a record of successors are not among `found`. -/
def unexplored (g : Graph α) (found : KeySet) : Nat :=
  ((OrderedMap.keys g.outgoing).filter (fun x => !found.contains x)).length

/-- What is found once is found still. -/
theorem unexplored_add (g : Graph α) (found : KeySet) (k : Key) : g.unexplored (found.add k) =
    (((OrderedMap.keys g.outgoing).filter (fun x => !found.contains x)).filter
      (fun x => !(found.add k).contains x)).length := by
  unfold unexplored
  rw [List.filter_filter]
  congr 2
  funext x
  cases hx : found.contains x with
  | false => simp
  | true =>
    have hadd : (found.add k).contains x = true := OrderedMap.contains_upsert_of_contains found hx
    simp [hadd]

theorem unexplored_add_le (g : Graph α) (found : KeySet) (k : Key) :
    g.unexplored (found.add k) ≤ g.unexplored found := by
  rw [unexplored_add]
  exact List.length_filter_le _ _

/-- A vertex with a record is found for the first time once. -/
theorem unexplored_add_lt (g : Graph α) {found : KeySet} {k : Key} (hk : found.contains k = false)
    (h : g.outgoing.contains k = true) : g.unexplored (found.add k) < g.unexplored found := by
  have hmem : k ∈ OrderedMap.keys g.outgoing := by
    obtain ⟨e, he, heq⟩ := (OrderedMap.contains_eq_true_iff _).mp h
    exact List.mem_map.mpr ⟨e, he, (Std.LawfulEqCmp.eq_of_compare heq).symm⟩
  have hadd : (found.add k).contains k = true := OrderedMap.contains_upsert_self found k _
  rw [unexplored_add]
  refine List.length_filter_lt_length_iff_exists.mpr ⟨k, List.mem_filter.mpr ⟨hmem, ?_⟩, ?_⟩
  · simp [hk]
  · simp [hadd]

/-- The vertices that a queue leads to, beside those found so far. The first of the
queue is taken; unless it was found before, its successors join the end of the queue. -/
def flood (g : Graph α) (found : KeySet) (queue : List Key) : KeySet :=
  match queue with
  | [] => found
  | k :: rest =>
    if found.contains k then g.flood found rest
    else g.flood (found.add k) (rest ++ g.succs k)
termination_by (g.unexplored found, queue.length)
decreasing_by
  · exact Prod.Lex.right _ (Nat.lt_succ_self _)
  · rename_i hk
    rw [Bool.not_eq_true] at hk
    cases hr : g.outgoing.contains k with
    | true => exact Prod.Lex.left _ _ (g.unexplored_add_lt hk hr)
    | false =>
      -- nothing is recorded for the vertex, so the queue gets shorter
      have hnone : g.outgoing.find? k = none := Option.not_isSome_iff_eq_none.mp (by simp [← hr, OrderedMap.contains])
      have hnil : g.succs k = [] := by simp [succs, EdgeIndex.ends, hnone]
      rcases Nat.lt_or_eq_of_le (g.unexplored_add_le found k) with hlt | heq
      · exact Prod.Lex.left _ _ hlt
      · rw [heq, hnil, List.append_nil]
        exact Prod.Lex.right _ (Nat.lt_succ_self _)

/-- The vertices that can be reached from `k` over an edge or more, in order. -/
def descendants (g : Graph α) (k : Key) : List Key := (g.flood OrderedMap.empty (g.succs k)).elements

/-- Whether any two vertices are joined by edges, whatever their direction. -/
def isConnected (g : Graph α) : Bool :=
  match g.keys with
  | [] => true
  | k :: ks => (explore (fun x => g.succs x ++ g.preds x) (k :: ks) [k]).length == g.size

/-- The graph with a vertex added that has no edges; none if the key is taken. -/
def insert? (g : Graph α) (k : Key) (a : α) : Option (Graph α) :=
  if g.contains k then none
  else some ⟨g.nodes.insert k a, g.outgoing.enter k, g.incoming.enter k⟩

/-- The graph with `a` at the vertex `k`. The indexes get no record for it before it
has an edge. -/
def place (g : Graph α) (k : Key) (a : α) : Graph α := ⟨g.nodes.insert k a, g.outgoing, g.incoming⟩

/-- The graph with the edge from `a` to `b` recorded in both indexes. -/
def link (g : Graph α) (a b : Key) : Graph α :=
  ⟨g.nodes, g.outgoing.join a b, g.incoming.join b a⟩

/-- Adds the edge from `a` to `b`. -/
def connect (g : Graph α) (a b : Key) : Except EdgeFault (Graph α) :=
  if !g.contains a then .error (.missing a)
  else if !g.contains b then .error (.missing b)
  else if a == b || g.reaches b a then .error .cycle
  else .ok (g.link a b)

/-- Whether there is an edge from `a` to `b`. -/
def hasEdge (g : Graph α) (a b : Key) : Bool := decide (b ∈ g.succs a)

/-- The graph without the edge from `a` to `b`. -/
def disconnect (g : Graph α) (a b : Key) : Graph α :=
  ⟨g.nodes, g.outgoing.part a b, g.incoming.part b a⟩

/-- The graph without the vertex `k` and its edges. -/
def remove (g : Graph α) (k : Key) : Graph α :=
  let incoming : EdgeIndex := (g.succs k).foldl (fun e s => e.part s k) g.incoming
  let outgoing : EdgeIndex := (incoming.ends k).foldl (fun e p => e.part p k) (g.outgoing.erase k)
  ⟨g.nodes.erase k, outgoing, incoming.erase k⟩

end Graph

end MapReduce
