/-
# Shuffles

A shuffle collects rows, sends each to the reducers its partitioner names, and
hands every reducer its rows sorted by key, then by input; rows that agree in
both stay in the order they came.

A row whose partitioner fails is not counted among the rows of its input. A row
sent to a reducer that does not exist is counted, but reaches no reducer.

Key definitions: `ShuffledRow`, `Shuffle`, `Shuffle.push`, `Shuffle.finish`.
-/
import MapReduce.Shuffle.Partitioner

namespace MapReduce

/-- A row as a reducer sees it. -/
structure ShuffledRow where
  key : Tuple
  input : Nat
  value : Tuple
deriving DecidableEq

/-- A finite map from numbers. -/
abbrev NatMap (α : Type) := OrderedMap Nat (Ord.compare : Nat → Nat → Ordering) α

/-- The rows collected so far. -/
structure Shuffle where
  /-- How many rows of each input were sent. -/
  sent : NatMap Nat
  /-- The rows of each reducer that has some, in the order they came. -/
  buckets : NatMap (List ShuffledRow)

namespace Shuffle

/-- A shuffle without rows. -/
def empty : Shuffle := ⟨OrderedMap.empty, OrderedMap.empty⟩

instance : Inhabited Shuffle := ⟨empty⟩

/-- The number of rows of an input that were sent. -/
def sentOf (s : Shuffle) (input : Nat) : Nat := (s.sent.find? input).getD 0

/-- Adds a row to the bucket of a reducer. -/
def deliver (row : ShuffledRow) (buckets : NatMap (List ShuffledRow)) (reducer : Nat) :
    NatMap (List ShuffledRow) :=
  buckets.upsert reducer (fun rows => rows.getD [] ++ [row])

/-- A reducer that does not exist. -/
def outOfRange (reducer parallelism : Nat) : ExecError :=
  routingError ("reducer " ++ Nat.repr reducer ++ " out of range for parallelism " ++
    Nat.repr parallelism)

/-- Sends a row to its reducers. -/
def push (p : Partitioner) (s : Shuffle) (row : ShuffledRow) : Shuffle × Except ExecError Unit :=
  match p.route row.input row.key (s.sentOf row.input) with
  | .error e => (s, .error e)
  | .ok targets =>
    let sent := s.sent.insert row.input (s.sentOf row.input + 1)
    match targets.find? (fun r => decide (p.parallelism ≤ r)) with
    | some r => (⟨sent, s.buckets⟩, .error (outOfRange r p.parallelism))
    | none => (⟨sent, targets.foldl (deliver row) s.buckets⟩, .ok ())

/-- The order in which a reducer sees its rows. -/
def rowOrder (a b : ShuffledRow) : Ordering :=
  (a.key.compare b.key).then (Ord.compare a.input b.input)

/-- The rows of each reducer that has some, sorted. -/
def finish (s : Shuffle) : List (Nat × List ShuffledRow) :=
  (s.buckets.mapValues (fun _ rows => rows.mergeSort (fun a b => (rowOrder a b).isLE))).entries

end Shuffle

end MapReduce
