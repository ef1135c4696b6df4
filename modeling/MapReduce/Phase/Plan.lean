/-
# Phase plans

The operators of one phase of a job, linked into an acyclic graph in which data
flows along the edges. An operation gives the plan it leaves behind and a result:
one that fails leaves the plan as it was. Adding a leaf takes several steps, and
takes them back if one is refused.

The explained plan has a line per walk from a leaf back towards the roots, a
level deeper per step.

Key definitions: `PhasePlan`, `PhasePlan.add`, `PhasePlan.connect`,
`PhasePlan.remove`, `PhasePlan.checkEdges`, `PhasePlan.addAsLeaf`,
`PhasePlan.validate`, `PhasePlan.explain`.
-/
import MapReduce.Failure
import MapReduce.Graph.Order

namespace MapReduce

/-- The plan of a phase: operators and the edges between them. -/
structure PhasePlan where
  graph : Graph Operator

namespace PhasePlan

/-- The plan without operators. -/
def empty : PhasePlan := ⟨Graph.empty⟩

instance : Inhabited PhasePlan := ⟨empty⟩

/-- The number of operators. -/
def size (p : PhasePlan) : Nat := p.graph.size

/-- Whether there are no operators. -/
def isEmpty (p : PhasePlan) : Bool := p.size == 0

/-- An operator by its key. -/
def find? (p : PhasePlan) (k : Key) : Option Operator := p.graph.label? k

/-- The operators, in key order. -/
def operators (p : PhasePlan) : List Operator := p.graph.labels

/-- The number of operators without a successor. -/
def leafCount (p : PhasePlan) : Nat := p.graph.leaves.length

/-- Adds an operator without edges. -/
def add (p : PhasePlan) (op : Operator) : PhasePlan × Except Failure Unit :=
  match p.graph.insert? op.key op with
  | some g => (⟨g⟩, .ok ())
  | none => (p, .error (.construction (.duplicateOperator op.key)))

/-- Adds an edge between two operators of the plan that closes no cycle. -/
def connect (p : PhasePlan) (a b : Key) : PhasePlan × Except Failure Unit :=
  match p.graph.connect a b with
  | .ok g => (⟨g⟩, .ok ())
  | .error (.missing k) => (p, .error (.construction (.unknownEnd a b k)))
  | .error .cycle => (p, .error (.construction (.cycle a b)))

/-- Removes an edge, and tells whether it was there. -/
def disconnect (p : PhasePlan) (a b : Key) : PhasePlan × Bool :=
  (⟨p.graph.disconnect a b⟩, p.graph.hasEdge a b)

/-- Removes an operator and its edges, and hands it over. -/
def remove (p : PhasePlan) (k : Key) : PhasePlan × Option Operator :=
  match p.find? k with
  | some op => (⟨p.graph.remove k⟩, some op)
  | none => (p, none)

/-- The fault of a recorded edge from `a` to `b`. -/
def edgeFault? (p : PhasePlan) (a b : Key) : Option PlanFault :=
  if !p.graph.contains b then some (.danglingEdge a b)
  else if !(p.graph.preds b).contains a then some (.unmirrored a b)
  else none

/-- The first fault of the edges recorded for `a`. -/
def sourceFault? (p : PhasePlan) (a : Key) (targets : List Key) : Option PlanFault :=
  if !p.graph.contains a then some (.danglingSource a) else targets.findSome? (p.edgeFault? a)

/-- The edges of a plan join its operators, stand in both indexes and close no
cycle. -/
def checkEdges (p : PhasePlan) : Except Failure Unit :=
  match p.graph.outgoing.entries.findSome? (fun e => p.sourceFault? e.1 e.2.elements) with
  | some fault => .error (.construction fault)
  | none =>
    if p.graph.topological.length ≠ p.size then .error (.construction .cyclic) else .ok ()

/-- Connects `leaves` to the operator `k`; if one is refused, `k` is removed
again. -/
def feed (p : PhasePlan) (k : Key) : List Key → PhasePlan × Except Failure Unit
  | [] => (p, .ok ())
  | leaf :: leaves =>
    match p.connect leaf k with
    | (q, .ok _) => feed q k leaves
    | (q, .error e) => ((q.remove k).1, .error e)

/-- Adds an operator that all former leaves feed. -/
def addAsLeaf (p : PhasePlan) (op : Operator) : PhasePlan × Except Failure Unit :=
  match p.checkEdges with
  | .error e => (p, .error e)
  | .ok _ =>
    match p.add op with
    | (q, .ok _) => q.feed op.key p.graph.leaves
    | (q, .error e) => (q, .error e)

/-- A plan may be used if its operators hang together. -/
def validate (p : PhasePlan) : Except Failure Unit := do
  p.checkEdges
  if !p.graph.isConnected then
    throw (.construction (.disconnected p.size p.graph.roots.length))

/-- What stands before a line, once per level. -/
def indent : String := "|   "

/-- One line of an explained plan. -/
def explainLine (p : PhasePlan) (l : Nat × Key) : String :=
  String.join (List.replicate l.1 indent) ++ ((p.find? l.2).map Operator.name).getD ""

/-- The plan as text. -/
def explain (p : PhasePlan) : String :=
  String.intercalate "\n" (p.graph.outline.map p.explainLine)

end PhasePlan

end MapReduce
