/-
# Drafts of jobs

A draft is a job under construction. Its phases are closed by two latches that
never open again: the map latch closes the map plan, the reduce latch the
combine and the reduce plan. Closing a phase can merge its leaves under a union,
whose key comes from a mint; a transition that fails leaves the draft as it was,
though the mint has moved on. A draft with both latches set is frozen into a job
if its plans and annotations pass their checks.

Key definitions: `Draft`, `Latch`, `Draft.edit`, `Draft.setMapDone`,
`Draft.close`, `Draft.closeMap`, `Draft.closeReduce`, `Draft.freeze`.
-/
import MapReduce.Job.Basic

namespace MapReduce

/-- A job under construction. -/
structure Draft where
  key : Key
  mapPlan : PhasePlan
  combinePlan : PhasePlan
  reducePlan : PhasePlan
  mapDone : Bool
  reduceDone : Bool
  annotations : Annotations

/-- The latches of a draft. -/
inductive Latch where
  | map
  | reduce
deriving DecidableEq

/-- The phase that ends when a latch is set. -/
def Latch.phase : Latch → Phase
  | .map => .map
  | .reduce => .reduce

/-- The latch that closes the plan of a phase. -/
def Phase.latch : Phase → Latch
  | .map => .map
  | .combine => .reduce
  | .reduce => .reduce

/-- When closing a phase merges its leaves under a union. -/
inductive Merging where
  | severalLeaves
  | anyLeaf
deriving DecidableEq

/-- The number of leaves from which on they are merged. -/
def Merging.threshold : Merging → Nat
  | .severalLeaves => 2
  | .anyLeaf => 1

namespace Draft

/-- A draft without operators. -/
def create (key : Key) : Draft :=
  ⟨key, PhasePlan.empty, PhasePlan.empty, PhasePlan.empty, false, false, default⟩

/-- The plan of a phase. -/
def plan (d : Draft) : Phase → PhasePlan
  | .map => d.mapPlan
  | .combine => d.combinePlan
  | .reduce => d.reducePlan

/-- Whether a latch is set. -/
def isSet (d : Draft) : Latch → Bool
  | .map => d.mapDone
  | .reduce => d.reduceDone

/-- The draft with another plan of a phase. -/
def withPlan (d : Draft) (phase : Phase) (p : PhasePlan) : Draft :=
  match phase with
  | .map => { d with mapPlan := p }
  | .combine => { d with combinePlan := p }
  | .reduce => { d with reducePlan := p }

/-- The draft with a latch set. -/
def set (d : Draft) : Latch → Draft
  | .map => { d with mapDone := true }
  | .reduce => { d with reduceDone := true }

/-- Applies a change to the plan of a phase that is not closed. -/
def edit {α : Type} (d : Draft) (phase : Phase) (f : PhasePlan → PhasePlan × α) :
    Draft × Except Failure α :=
  if d.isSet phase.latch then (d, .error (.construction (.sealedPlan d.key phase)))
  else
    let (p, a) := f (d.plan phase)
    (d.withPlan phase p, .ok a)

/-- A latch that is set stays set. -/
def checkLatch (d : Draft) (latch : Latch) (requested : Bool) : Except Failure Unit :=
  if d.isSet latch && !requested then .error (.construction (.reopened d.key latch.phase))
  else .ok ()

/-- Sets the map latch and leaves the plan alone. -/
def setMapDone (d : Draft) (done : Bool) : Draft × Except Failure Unit :=
  match d.checkLatch .map done with
  | .error e => (d, .error e)
  | .ok _ => ({ d with mapDone := done }, .ok ())

/-- Merges the leaves of the plan of a phase under a union, if there are
enough. -/
def mergeLeaves (d : Draft) (merging : Merging) (phase : Phase) (mint : KeyMint) :
    Draft × KeyMint × Except Failure Unit :=
  if merging.threshold ≤ (d.plan phase).leafCount then
    let (key, mint') := mint.nextKey d.key.scope
    let (p, r) := (d.plan phase).addAsLeaf ⟨key, .union⟩
    (d.withPlan phase p, mint', r)
  else (d, mint, .ok ())

/-- Ends the phase of a latch, if `done`. -/
def close (d : Draft) (latch : Latch) (merging : Merging) (done : Bool) (mint : KeyMint) :
    Draft × KeyMint × Except Failure Unit :=
  match d.checkLatch latch done with
  | .error e => (d, mint, .error e)
  | .ok _ =>
    if !done || d.isSet latch then (d, mint, .ok ())
    else
      match d.mergeLeaves merging latch.phase mint with
      | (d', mint', .ok _) => (d'.set latch, mint', .ok ())
      | (d', mint', .error e) => (d', mint', .error e)

/-- Closes the map phase, if `done`. -/
def closeMap (d : Draft) (merging : Merging) (done : Bool) (mint : KeyMint) :
    Draft × KeyMint × Except Failure Unit :=
  d.close .map merging done mint

/-- Closes the reduce phase, if `done`. -/
def closeReduce (d : Draft) (done : Bool) (mint : KeyMint) :
    Draft × KeyMint × Except Failure Unit :=
  d.close .reduce .severalLeaves done mint

/-- The draft with its annotations changed. -/
def annotate (d : Draft) (f : Annotations → Annotations) : Draft :=
  { d with annotations := f d.annotations }

/-- Sets the sort order; nothing given changes nothing. -/
def setSortOrder (d : Draft) (order : Option (List Bool)) : Draft :=
  d.annotate (fun a => { a with sortOrder := order <|> a.sortOrder })

/-- Sets the secondary sort order; nothing given changes nothing. -/
def setSecondarySortOrder (d : Draft) (order : Option (List Bool)) : Draft :=
  d.annotate (fun a => { a with secondarySortOrder := order <|> a.secondarySortOrder })

/-- Makes the job a fragment-replicate join. -/
def setFrJoin (d : Draft) (files : List (Option FileSpec)) (fragment : UInt64) : Draft :=
  d.annotate (fun a =>
    { a with frJoin := true, replicatedFiles := files, fragment := some fragment })

/-- Notes a user function, unless it is noted. -/
def addUdf (d : Draft) (name : String) : Draft :=
  d.annotate (fun a => { a with udfs := Annotations.addNew a.udfs name })

/-- The user functions of all operators. -/
def planUdfs (d : Draft) : List String :=
  [d.mapPlan, d.combinePlan, d.reducePlan].flatMap (fun p =>
    p.operators.flatMap (fun op => op.kind.udfs))

/-- Notes the user functions of all operators. -/
def collectUdfs (d : Draft) : Draft :=
  d.annotate (fun a => { a with udfs := d.planUdfs.foldl Annotations.addNew a.udfs })

/-- The name of the job. -/
def name (d : Draft) : String := jobName d.key d.annotations d.mapPlan d.reducePlan

/-- The checks on the plan of a phase; only a combine plan may have several
leaves. -/
def checkPlan (d : Draft) (phase : Phase) : Except Failure Unit :=
  let p := d.plan phase
  if phase ≠ .combine ∧ 1 < p.leafCount then
    .error (.validation (.manyLeaves d.key phase p.leafCount))
  else p.validate

/-- The job, if the draft is complete and passes all checks. -/
def freeze (d : Draft) : Except Failure Job := do
  if !d.mapDone || !d.reduceDone then
    throw (.validation (.unfinished d.key d.mapDone d.reduceDone))
  d.checkPlan .map
  d.checkPlan .combine
  d.checkPlan .reduce
  d.annotations.validate
  return ⟨d.key, d.mapPlan, d.combinePlan, d.reducePlan, d.annotations⟩

end Draft

end MapReduce
