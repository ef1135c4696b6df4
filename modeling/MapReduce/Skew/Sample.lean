/-
# Sampling the keys of an input

A sampler sees every row of an input, so it knows the size of the input, and
records the key of every `stride`-th one, starting with the first. The number
of rows of a key in the whole input is then estimated from its share of the
sample, rounded up.

Key definitions: `KeySample`, `KeySample.merge`, `KeySample.estimate`,
`Sampler`, `Sampler.observe`.
-/
import MapReduce.Value.Tuple

namespace MapReduce

/-- How often each key occurs among the sampled rows of an input. -/
structure KeySample where
  counts : TupleMap Nat
  sampledRows : Nat
  sampledBytes : Nat
  totalRows : Nat
deriving DecidableEq

namespace KeySample

/-- The sample of no rows. -/
def empty : KeySample := ⟨OrderedMap.empty, 0, 0, 0⟩

instance : Inhabited KeySample := ⟨empty⟩

/-- The counts with `n` more rows of a key. -/
def addCount (counts : TupleMap Nat) (key : Tuple) (n : Nat) : TupleMap Nat :=
  counts.upsert key (fun old => old.getD 0 + n)

/-- Records a sampled row of `bytes` bytes. -/
def record (s : KeySample) (key : Tuple) (bytes : Nat) : KeySample :=
  ⟨addCount s.counts key 1, s.sampledRows + 1, s.sampledBytes + bytes, s.totalRows⟩

/-- The sample of both inputs together. -/
def merge (s t : KeySample) : KeySample :=
  ⟨t.counts.entries.foldl (fun c e => addCount c e.1 e.2) s.counts,
    s.sampledRows + t.sampledRows, s.sampledBytes + t.sampledBytes, s.totalRows + t.totalRows⟩

/-- Whether no row was sampled. -/
def isEmpty (s : KeySample) : Bool := s.sampledRows == 0

/-- The average size of a sampled row, at least one byte. -/
def averageBytes (s : KeySample) : Nat :=
  if s.sampledRows = 0 then 1 else max 1 (s.sampledBytes / s.sampledRows)

/-- The quotient, rounded up. -/
def ceilDiv (a b : Nat) : Nat := (a + (b - 1)) / b

/-- The number of rows in the input for which `sampled` rows of the sample
stand. -/
def scale (s : KeySample) (sampled : Nat) : Nat :=
  if s.sampledRows = 0 then 0 else ceilDiv (sampled * s.totalRows) s.sampledRows

/-- The estimated number of rows of a key in the input. -/
def estimate (s : KeySample) (key : Tuple) : Nat := ((s.counts.find? key).map s.scale).getD 0

end KeySample

/-- A sample under way. -/
structure Sampler where
  /-- Every how many rows one is recorded; zero stands for one. -/
  stride : Nat
  seen : Nat
  sample : KeySample

namespace Sampler

/-- A sampler that has seen no row. -/
def create (stride : Nat) : Sampler := ⟨max 1 stride, 0, KeySample.empty⟩

/-- Sees a row and its key. -/
def observe (s : Sampler) (key row : Tuple) : Sampler :=
  let sample := { s.sample with totalRows := s.sample.totalRows + 1 }
  ⟨s.stride, s.seen + 1,
    if s.seen % s.stride = 0 then sample.record key row.sizeEstimate else sample⟩

/-- Sees rows, each with its key, in order. -/
def observeAll (s : Sampler) (rows : List (Tuple × Tuple)) : Sampler :=
  rows.foldl (fun s r => s.observe r.1 r.2) s

end Sampler

end MapReduce
