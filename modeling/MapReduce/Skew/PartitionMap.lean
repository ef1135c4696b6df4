/-
# Partition maps

A partition map tells which keys of a join are spread over several reducers: an
entry names the number of consecutive reducers, counted around the end, and the
first of them. It is generated from a sample: a key that has more rows than one
reducer may receive is spread over as few reducers as hold them, and the keys
take their reducers one after the other, in key order.

Key definitions: `PartitionEntry`, `PartitionEntry.reducer`, `PartitionMap`,
`PartitionMap.generate`, `rowBudget`, `planSkewedJoin`.
-/
import MapReduce.Skew.Sample
import MapReduce.Skew.Settings
import MapReduce.Value.Json

namespace MapReduce

/-- How one key is spread. -/
structure PartitionEntry where
  key : Tuple
  /-- Over how many reducers the rows go. -/
  partitions : UInt32
  firstReducer : UInt32
deriving DecidableEq

namespace PartitionEntry

/-- The reducers beyond the one that every key has. -/
def extraPartitions (e : PartitionEntry) : Nat := e.partitions.toNat - 1

/-- The reducer of a slot, of `parallelism` reducers. -/
def reducer (e : PartitionEntry) (slot parallelism : Nat) : Nat :=
  (e.firstReducer.toNat + slot % max 1 e.partitions.toNat) % max 1 parallelism

/-- The reducers of all slots. -/
def reducers (e : PartitionEntry) (parallelism : Nat) : List Nat :=
  (List.range e.partitions.toNat).map (fun slot => e.reducer slot parallelism)

/-- Whether two entries spread the same key in the same way. -/
def same (a b : PartitionEntry) : Bool :=
  a.key.sameKey b.key && a.partitions == b.partitions && a.firstReducer == b.firstReducer

/-- An entry as a record. -/
def toJson (e : PartitionEntry) : Json :=
  .record [("key", e.key.toJson), ("partitions", Json.nat e.partitions.toNat),
    ("first_reducer", Json.nat e.firstReducer.toNat)]

/-- Reads an entry. -/
def ofJson? (j : Json) : Option PartitionEntry := do
  match ← j.fields? ["key", "partitions", "first_reducer"] with
  | [key, partitions, first] =>
    return ⟨← Json.required? Tuple.ofJson? key, ← Json.required? Json.asUInt32? partitions,
      ← Json.required? Json.asUInt32? first⟩
  | _ => none

end PartitionEntry

/-- The keys that are spread, and the number of reducers they are spread over. -/
structure PartitionMap where
  parallelism : UInt32
  spread : TupleMap PartitionEntry
deriving DecidableEq

namespace PartitionMap

/-- The map that spreads no key. -/
def empty (parallelism : UInt32) : PartitionMap := ⟨parallelism, OrderedMap.empty⟩

instance : Inhabited PartitionMap := ⟨empty 0⟩

/-- Spreads a key, in place of an entry it had. -/
def insert (m : PartitionMap) (e : PartitionEntry) : PartitionMap :=
  ⟨m.parallelism, m.spread.insert e.key e⟩

/-- The map with the given entries, of which a later one wins. -/
def ofEntries (parallelism : UInt32) (entries : List PartitionEntry) : PartitionMap :=
  entries.foldl insert (empty parallelism)

/-- The entries, in key order. -/
def entries (m : PartitionMap) : List PartitionEntry := m.spread.values

/-- How a key is spread. -/
def find? (m : PartitionMap) (key : Tuple) : Option PartitionEntry := m.spread.find? key

/-- The widest spread, one if no key is spread. -/
def maxPartitions (m : PartitionMap) : Nat :=
  (m.entries.map (fun e => e.partitions.toNat)).max?.getD 1

/-- Whether the entries of two lists are the same, one by one. -/
def sameEntries : List (Tuple × PartitionEntry) → List (Tuple × PartitionEntry) → Bool
  | [], [] => true
  | a :: as, b :: bs => a.1.sameKey b.1 && a.2.same b.2 && sameEntries as bs
  | _, _ => false

/-- Whether two maps spread the same keys in the same way. -/
def same (m n : PartitionMap) : Bool :=
  m.parallelism == n.parallelism && sameEntries m.spread.entries n.spread.entries

end PartitionMap

/-- The most rows of one key that a reducer may receive: the number the settings
name, or fewer if they would not fit in memory. -/
def rowBudget (s : KeySample) (c : Settings) : Nat :=
  max 1 (min (c.keyBytes / s.averageBytes) c.maxTuples)

/-- The number of reducers that hold `rows` rows. -/
def partitionsFor (budget rows : Nat) : UInt32 :=
  UInt32.ofNat (min (KeySample.ceilDiv rows budget) (Nat.pow 2 32 - 1))

/-- The entries of keys with their estimated rows, where `cursor` is the next
reducer to be used. A key that one reducer holds has none. -/
def spreadKeys (budget parallelism : Nat) : (cursor : Nat) → List (Tuple × Nat) →
    List PartitionEntry
  | _, [] => []
  | cursor, (key, rows) :: rest =>
    if KeySample.ceilDiv rows budget ≤ 1 then spreadKeys budget parallelism cursor rest
    else
      let partitions := partitionsFor budget rows
      ⟨key, partitions, UInt32.ofNat cursor⟩ ::
        spreadKeys budget parallelism ((cursor + partitions.toNat) % parallelism) rest

/-- The map for a sampled input. It is not checked against the number of
reducers. -/
def PartitionMap.generate (s : KeySample) (c : Settings) (parallelism : UInt32) :
    Except Failure PartitionMap := do
  c.validate
  if parallelism = 0 then throw (.validation .skewZeroParallelism)
  let estimates := s.counts.entries.map (fun e => (e.1, s.scale e.2))
  return .ofEntries parallelism (spreadKeys (rowBudget s c) parallelism.toNat 0 estimates)

/-- A skewed join has two inputs. -/
def checkJoinInputs (inputs : Nat) : Except Failure Unit :=
  if 2 < inputs then .error (.validation (.tooManyInputs inputs))
  else if inputs < 2 then .error (.validation (.tooFewInputs inputs))
  else .ok ()

/-- No key may be spread over more reducers than there are. -/
def PartitionMap.checkParallelism (m : PartitionMap) (requested : Nat) : Except Failure Unit :=
  match m.entries.find? (fun e => decide (requested < e.partitions.toNat)) with
  | some e => .error (.validation (.tooFewReducers e.key e.partitions.toNat requested))
  | none => .ok ()

/-- The checked map for a join. -/
def planSkewedJoin (s : KeySample) (c : Settings) (inputs : Nat) (parallelism : UInt32) :
    Except Failure PartitionMap := do
  checkJoinInputs inputs
  let m ← PartitionMap.generate s c parallelism
  m.checkParallelism parallelism.toNat
  return m

end MapReduce
