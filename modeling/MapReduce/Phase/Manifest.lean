/-
# Manifests of phase plans

A manifest lists the operators of a plan, producers first, and then its edges in
the same order of their sources. Plans with the same operators and edges have
the same manifest, however they were built.

Key definitions: `PhaseManifest`, `PhaseManifest.of`, `PhaseManifest.toJson`,
`PhaseManifest.ofJson?`.
-/
import MapReduce.Operator.Json
import MapReduce.Phase.Plan

namespace MapReduce

/-- The operators and edges of a plan. -/
structure PhaseManifest where
  operators : List Operator
  edges : List (Key × Key)
deriving DecidableEq

namespace PhaseManifest

/-- The manifest of a plan. -/
def of (p : PhasePlan) : PhaseManifest :=
  let order := p.graph.topological
  ⟨order.filterMap p.find?, order.flatMap (fun a => (p.graph.succs a).map (fun b => (a, b)))⟩

/-- An edge as the list of its ends. -/
def edgeToJson (e : Key × Key) : Json := .arr [e.1.toJson, e.2.toJson]

/-- Reads an edge. -/
def edgeOfJson? : Json → Option (Key × Key)
  | .arr [a, b] => do return (← Key.ofJson? a, ← Key.ofJson? b)
  | _ => none

/-- A manifest as a record. -/
def toJson (m : PhaseManifest) : Json :=
  .record [("operators", Json.ofList Operator.toJson m.operators),
    ("edges", Json.ofList edgeToJson m.edges)]

/-- Reads a manifest. -/
def ofJson? (j : Json) : Option PhaseManifest := do
  match ← j.fields? ["operators", "edges"] with
  | [operators, edges] =>
    return ⟨← Json.required? (Json.asList? Operator.ofJson?) operators,
      ← Json.required? (Json.asList? edgeOfJson?) edges⟩
  | _ => none

end PhaseManifest

end MapReduce
