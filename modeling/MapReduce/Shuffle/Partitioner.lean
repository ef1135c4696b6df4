/-
# Partitioners

A partitioner sends every row of a shuffle to reducers. It may look at the input
the row comes from, its key, and how many rows of that input came before it.
Rows go by the hash of their key, or as a skewed join needs, or by ranges of
keys, so that the reducers' outputs one after the other are sorted.

Key definitions: `Partitioner`, `Partitioner.byHash`, `Partitioner.bySkew`,
`Partitioner.byRange`, `Quantiles`, `bisect`, `partitionerFor`.
-/
import MapReduce.Job.Basic
import MapReduce.Skew.PartitionFile
import MapReduce.Skew.Router

namespace MapReduce

/-- How rows are sent to reducers. -/
structure Partitioner where
  parallelism : Nat
  /-- The reducers of a row, by its input, its key and the number of rows of the
  input before it. -/
  route : (input : Nat) → (key : Tuple) → (seq : Nat) → Except ExecError (List Nat)

/-- How many items of a list pass a test, if those that do stand before those that
do not: the item in the middle tells in which half to go on. -/
def bisect {α : Type} (p : α → Bool) (l : List α) : Nat :=
  match h : l.drop (l.length / 2) with
  | [] => 0
  | x :: rest =>
    if p x then l.length / 2 + 1 + bisect p rest else bisect p (l.take (l.length / 2))
termination_by l.length
decreasing_by
  all_goals
    have hlength := congrArg List.length h
    rw [List.length_drop, List.length_cons] at hlength
  · omega
  · rw [List.length_take]
    omega

/-- The bounds between the ranges of keys. -/
structure Quantiles where
  boundaries : List Tuple
deriving DecidableEq

namespace Quantiles

/-- Whether no bound is above the next one. -/
def ascending : List Tuple → Bool
  | a :: b :: rest => (a.compare b).isLE && ascending (b :: rest)
  | _ => true

/-- The number of the range that a key is in: how many bounds are below it. -/
def rangeOf (q : Quantiles) (key : Tuple) : Nat := bisect (fun b => b.before key) q.boundaries

/-- Quantiles as a record. -/
def toJson (q : Quantiles) : Json := .record [("boundaries", Json.ofList Tuple.toJson q.boundaries)]

/-- Reads quantiles. -/
def ofJson? (j : Json) : Option Quantiles := do
  match ← j.fields? ["boundaries"] with
  | [boundaries] => return ⟨← Json.required? (Json.asList? Tuple.ofJson?) boundaries⟩
  | _ => none

/-- Stores quantiles. -/
def write (q : Quantiles) (s : Storage) (path : String) : Storage × Except Failure Unit :=
  s.write path q.toJson.compact

/-- Reads stored quantiles, where `read` gives the contents of files. -/
def read (read : String → Except Failure Bytes) (path : String) : Except Failure Quantiles := do
  match (Json.parse (← read path)).bind ofJson? with
  | some q => return q
  | none => throw (.storage .document)

end Quantiles

namespace Partitioner

/-- Rows go by the hash of their key. There is at least one reducer. -/
def byHash (parallelism : Nat) : Partitioner :=
  let p := max 1 parallelism
  ⟨p, fun _ key _ => .ok [key.hash % p]⟩

/-- Rows go as a skewed join needs; its inputs are the skewed one and the other
one. -/
def bySkew (r : Router) : Partitioner :=
  ⟨r.parallelism, fun input key seq =>
    match input with
    | 0 => .ok (r.route .skewed key seq)
    | 1 => .ok (r.route .probe key seq)
    | n => .error (routingError ("skewed join has two inputs, got input index " ++ Nat.repr n))⟩

/-- Rows go by the range of their key; if the order descends, the first reducer
has the last range. -/
def byRange (q : Quantiles) (ascending : Bool) : Except ExecError Partitioner :=
  if Quantiles.ascending q.boundaries then
    let last := q.boundaries.length
    .ok ⟨last + 1, fun _ key _ =>
      .ok [if ascending then q.rangeOf key else last - q.rangeOf key]⟩
  else
    .error ⟨ExecError.routingCode, .input, "quantile boundaries are not sorted", none⟩

end Partitioner

/-- The number of reducers of a job. -/
def Job.parallelism (j : Job) (c : Settings) : Nat :=
  (j.annotations.requestedParallelism.map UInt32.toNat).getD c.parallelism

/-- The partitioner of a skewed join with a stored map. -/
def skewPartitioner (j : Job) (path : String) (requested : Nat) (m : PartitionMap) :
    Except Failure Partitioner := do
  if m.parallelism.toNat ≠ requested then
    throw (.validation (.otherParallelism j.key path m.parallelism.toNat requested))
  m.checkParallelism requested
  return .bySkew (← (Router.ofMap m).mapError .exec)

/-- The partitioner of a job, where `read` gives the contents of files. -/
def partitionerFor (j : Job) (read : String → Except Failure Bytes) (c : Settings) :
    Except Failure Partitioner := do
  match j.annotations.partitionFile with
  | some path => skewPartitioner j path (j.parallelism c) (← readPartitionMap read path)
  | none =>
    if j.annotations.globalSort then
      match j.annotations.quantileFile with
      | none => throw (.validation (.noQuantileFile j.key))
      | some path =>
        let ascending := (j.annotations.sortOrder.bind List.head?).getD true
        (Partitioner.byRange (← Quantiles.read read path) ascending).mapError .exec
    else return .byHash (j.parallelism c)

end MapReduce
