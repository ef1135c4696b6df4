/-
# Group-by in three waves

A group-by over splits: every split goes through the first wave, is sorted by
key and goes through the second wave; the results are shuffled by the hash of
their keys, and each reducer applies the last wave to its rows. Beside it stands
the same group-by in one pass over all rows.

Key definitions: `atStage`, `overColumns`, `combineSplit`, `reduceBucket`,
`threeWaves`, `onePass`.
-/
import MapReduce.Shuffle.Basic
import MapReduce.Task

namespace MapReduce

/-- The calls, all at one stage. -/
def atStage (stage : Stage) (calls : List AggCall) : List AggCall :=
  calls.map (fun c => { c with stage := stage })

/-- The calls at one stage, where each reads the column at its own place. -/
def overColumns (stage : Stage) (calls : List AggCall) : List AggCall :=
  calls.mapIdx (fun i c => ⟨c.function, stage, UInt64.ofNat i⟩)

/-- Runs a new task on rows. -/
def runTask (registry : Registry) (calls : List AggCall) (chunk : Nat) (rows : List Row) :
    Except ExecError (List Row × Stats) := do
  let (result, task) := (← Task.create registry calls chunk).run rows
  return (← result, task.stats)

/-- The first two waves on a split. -/
def combineSplit (registry : Registry) (calls : List AggCall) (chunk : Nat) (rows : List Row) :
    Except ExecError (List Row) := do
  let (first, _) ← runTask registry (atStage .initial calls) chunk rows
  let (second, _) ← runTask registry (overColumns .intermediate calls) chunk
    (sortByKey Prod.fst first)
  return second

/-- Sends rows of one input until one fails. -/
def pushRows (p : Partitioner) (s : Shuffle) : List Row → Except ExecError Shuffle
  | [] => .ok s
  | (key, value) :: rest =>
    match s.push p ⟨key, 0, value⟩ with
    | (s', .ok _) => pushRows p s' rest
    | (_, .error e) => .error e

/-- The first two waves on each split, and the shuffle of their results. -/
def combineSplits (registry : Registry) (calls : List AggCall) (chunk : Nat) (p : Partitioner) :
    Shuffle → List (List Row) → Except ExecError (List (List Row) × Shuffle)
  | s, [] => .ok ([], s)
  | s, split :: rest => do
    let rows ← combineSplit registry calls chunk split
    let s' ← pushRows p s rows
    let (more, last) ← combineSplits registry calls chunk p s' rest
    return (rows :: more, last)

/-- The last wave on the rows of a reducer. -/
def reduceBucket (registry : Registry) (calls : List AggCall) (chunk : Nat)
    (bucket : Nat × List ShuffledRow) : Except ExecError (Nat × List Row) := do
  let rows := bucket.2.map (fun r => (r.key, r.value))
  let (out, _) ← runTask registry (overColumns .final calls) chunk rows
  return (bucket.1, out)

/-- What the three waves give: the rows of every split after the second wave,
and the rows of every reducer. -/
structure Waves where
  combined : List (List Row)
  reduced : List (Nat × List Row)

/-- The group-by in three waves. -/
def threeWaves (registry : Registry) (calls : List AggCall) (chunk parallelism : Nat)
    (splits : List (List Row)) : Except ExecError Waves := do
  let (combined, s) ← combineSplits registry calls chunk (.byHash parallelism) Shuffle.empty splits
  let reduced ← s.finish.mapM (reduceBucket registry calls chunk)
  return ⟨combined, reduced⟩

/-- The group-by in one pass. -/
def onePass (registry : Registry) (calls : List AggCall) (chunk : Nat) (splits : List (List Row)) :
    Except ExecError (List Row × Stats) :=
  runTask registry (atStage .whole calls) chunk (sortByKey Prod.fst splits.flatten)

end MapReduce
