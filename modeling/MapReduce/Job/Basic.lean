/-
# Jobs

A job is a key, the plans of its three phases and its annotations. Its name is
its key, its parallelism and user functions, and then the reduce plan and the
map plan, a level in.

Key definitions: `Job`, `Job.name`, `jobName`.
-/
import MapReduce.Job.Annotations
import MapReduce.Phase.Plan

namespace MapReduce

/-- A job that may be submitted. -/
structure Job where
  key : Key
  mapPlan : PhasePlan
  combinePlan : PhasePlan
  reducePlan : PhasePlan
  annotations : Annotations

/-- An explained plan a level in, or what stands for an empty one. -/
def shiftedExplain (p : PhasePlan) (placeholder : String) : String :=
  if p.isEmpty then placeholder
  else String.intercalate "\n" ((textLines p.explain).map (PhasePlan.indent ++ ·))

/-- The name of a job. -/
def jobName (key : Key) (a : Annotations) (mapPlan reducePlan : PhasePlan) : String :=
  let parallelism := (a.requestedParallelism.map (fun n => Nat.repr n.toNat)).getD "-1"
  "MapReduce(" ++ commaJoined (parallelism :: a.udfShortNames) ++ ") - " ++ key.display ++ ":\n" ++
    shiftedExplain reducePlan "Reduce Plan Empty" ++ "\n" ++
    shiftedExplain mapPlan "Map Plan Empty"

namespace Job

/-- The name of the job. -/
def name (j : Job) : String := jobName j.key j.annotations j.mapPlan j.reducePlan

/-- Whether the job has a combine phase. -/
def hasCombiner (j : Job) : Bool := !j.combinePlan.isEmpty

end Job

end MapReduce
