/-
# Manifests of jobs

A manifest is what is handed over when a job is submitted: its key and name, its
annotations, the manifests of its phases, and a digest of the last two. The key
is not part of what is hashed, so jobs that do the same work share a digest.

Key definitions: `JobManifest`, `JobManifest.of`, `JobManifest.work`,
`JobManifest.document`, `JobManifest.read?`.
-/
import MapReduce.Digest.Basic
import MapReduce.Job.Basic
import MapReduce.Phase.Manifest

namespace MapReduce

/-- What is handed over when a job is submitted. -/
structure JobManifest where
  key : Key
  name : String
  engineVersion : String
  annotations : Annotations
  map : PhaseManifest
  combine : PhaseManifest
  reduce : PhaseManifest
  digest : Digest
deriving DecidableEq

namespace JobManifest

/-- The version that manifests are written for. -/
def currentVersion : String := "0.1.0"

/-- What the digest of a job covers. -/
def work (a : Annotations) (map combine reduce : PhaseManifest) : Json :=
  .record [("annotations", a.toJson), ("map", map.toJson), ("combine", combine.toJson),
    ("reduce", reduce.toJson)]

/-- The document whose compact form is hashed for a job. -/
def workOf (j : Job) : Json :=
  work j.annotations (.of j.mapPlan) (.of j.combinePlan) (.of j.reducePlan)

/-- The manifest of a job. -/
def of (j : Job) : JobManifest where
  key := j.key
  name := j.name
  engineVersion := currentVersion
  annotations := j.annotations
  map := .of j.mapPlan
  combine := .of j.combinePlan
  reduce := .of j.reducePlan
  digest := Digest.ofJson (workOf j)

/-- A manifest as a record. -/
def toJson (m : JobManifest) : Json :=
  .record [("key", m.key.toJson), ("name", Json.text m.name),
    ("engine_version", Json.text m.engineVersion), ("annotations", m.annotations.toJson),
    ("map", m.map.toJson), ("combine", m.combine.toJson), ("reduce", m.reduce.toJson),
    ("digest", m.digest.toJson)]

/-- Reads a manifest. -/
def ofJson? (j : Json) : Option JobManifest := do
  match ← j.fields? ["key", "name", "engine_version", "annotations", "map", "combine", "reduce",
      "digest"] with
  | [key, name, version, annotations, map, combine, reduce, digest] =>
    return ⟨← Json.required? Key.ofJson? key, ← Json.required? Json.asText? name,
      ← Json.required? Json.asText? version, ← Json.required? Annotations.ofJson? annotations,
      ← Json.required? PhaseManifest.ofJson? map, ← Json.required? PhaseManifest.ofJson? combine,
      ← Json.required? PhaseManifest.ofJson? reduce, ← Json.required? Digest.ofJson? digest⟩
  | _ => none

/-- The manifest as a file. -/
def document (m : JobManifest) : Bytes := m.toJson.pretty

/-- Reads a manifest from a file. -/
def read? (bs : Bytes) : Option JobManifest := (Json.parse bs).bind ofJson?

end JobManifest

end MapReduce
