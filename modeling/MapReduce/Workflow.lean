/-
# Workflows

The graph of jobs: an edge leads from a job to one that reads what it writes.
Jobs are submitted producers first, of several that are ready the one with the
least key. A walk shows every job once in that order, or in its reverse, until
the visitor fails.

Key definitions: `Workflow`, `Workflow.add`, `Workflow.connect`,
`Workflow.submissionOrder`, `Workflow.dependents`, `Workflow.walk`.
-/
import MapReduce.Job.Basic

namespace MapReduce

/-- The jobs of a workflow and their dependencies. -/
structure Workflow where
  graph : Graph Job

/-- The order of a walk. -/
inductive WalkOrder where
  | dependency
  | reverse
deriving DecidableEq

instance : Inhabited WalkOrder := ⟨.dependency⟩

/-- The name of an order. -/
def WalkOrder.name : WalkOrder → String
  | .dependency => "dependency"
  | .reverse => "reverse"

namespace Workflow

/-- The workflow without jobs. -/
def empty : Workflow := ⟨Graph.empty⟩

/-- A job by its key. -/
def find? (w : Workflow) (k : Key) : Option Job := w.graph.label? k

/-- Adds a job without dependencies. -/
def add (w : Workflow) (j : Job) : Workflow × Except Failure Unit :=
  if w.graph.contains j.key then (w, .error (.construction (.duplicateJob j.key)))
  else (⟨w.graph.place j.key j⟩, .ok ())

/-- Makes `b` depend on `a`. -/
def connect (w : Workflow) (a b : Key) : Workflow × Except Failure Unit :=
  match w.graph.connect a b with
  | .ok g => (⟨g⟩, .ok ())
  | .error (.missing k) => (w, .error (.construction (.unknownJob k)))
  | .error .cycle => (w, .error (.construction (.jobCycle a b)))

/-- The order in which jobs are submitted. -/
def submissionOrder (w : Workflow) : Except Failure (List Key) :=
  let order := w.graph.topological
  if order.length ≠ w.graph.size then .error (.invariant "job plan contains a cycle") else .ok order

/-- The jobs that depend on `k`, directly or through others. -/
def dependents (w : Workflow) (k : Key) : List Key := w.graph.descendants k

/-- The keys in the order of a walk. -/
def walkKeys (w : Workflow) (order : WalkOrder) : Except Failure (List Key) :=
  w.submissionOrder.map (fun ks =>
    match order with
    | .dependency => ks
    | .reverse => ks.reverse)

/-- Shows jobs to a visitor until it fails. -/
def visitAll {σ : Type} (visit : σ → Job → σ × Except Failure Unit) :
    σ → List Job → σ × Except Failure Unit
  | s, [] => (s, .ok ())
  | s, j :: js =>
    match visit s j with
    | (s', .ok _) => visitAll visit s' js
    | (s', .error e) => (s', .error e)

/-- Shows every job to a visitor, in order, until it fails. -/
def walk {σ : Type} (w : Workflow) (order : WalkOrder)
    (visit : σ → Job → σ × Except Failure Unit) (s : σ) : σ × Except Failure Unit :=
  match w.walkKeys order with
  | .ok ks => visitAll visit s (ks.filterMap w.find?)
  | .error e => (s, .error e)

/-- The names of all jobs in submission order. -/
def explain (w : Workflow) : Except Failure String :=
  w.submissionOrder.map (fun ks =>
    String.intercalate "\n\n" ((ks.filterMap w.find?).map Job.name))

end Workflow

end MapReduce
