/-
# Settings of skewed joins

How many rows and bytes of one key a reducer may receive. Settings come from
properties, where a value that cannot be read or is out of range is an error, or
from the environment, where a value that cannot be read is ignored.

Key definitions: `Settings`, `Settings.ofProperties`, `Settings.ofEnvironment`,
`Settings.validate`, `Settings.keyBytes`.
-/
import MapReduce.Failure
import MapReduce.Text.Blank

namespace MapReduce

/-- The settings of skewed joins. -/
structure Settings where
  /-- The most rows of one key a reducer may receive. -/
  maxTuples : Nat
  /-- The part of a reducer's memory one key's rows may fill. -/
  memoryFraction : Float64Bits
  /-- The memory of a reducer. -/
  heapBytes : Nat
  /-- The number of reducers of a job that requests none. -/
  parallelism : Nat
deriving DecidableEq

/-- Values of settings as they stand in an environment. -/
structure Environment where
  maxTuples : Option String
  memoryFraction : Option String
  heapBytes : Option String
  parallelism : Option String

namespace Settings

/-- The settings where nothing is said: five million rows, three tenths of 512
MiB, one reducer. -/
def default : Settings := ⟨5000000, ⟨0x3fd3333333333333⟩, 536870912, 1⟩

instance : Inhabited Settings := ⟨default⟩

/-- The property with the most rows of one key. -/
def maxTuplesProperty : String := "pig.skewedjoin.reduce.maxtuple"

/-- The property with the memory fraction. -/
def memoryProperty : String := "pig.skewedjoin.reduce.memusage"

/-- Whether the settings can be planned with. -/
def validate (c : Settings) : Except Failure Unit :=
  if c.maxTuples = 0 then .error (.settings (.notPositive maxTuplesProperty))
  else if !((Ieee.zero false).below c.memoryFraction &&
      !(Ieee.ofNat 1).below c.memoryFraction) then
    .error (.settings (.notFraction memoryProperty c.memoryFraction))
  else if c.heapBytes = 0 then .error (.settings .zeroHeap)
  else .ok ()

/-- The bytes one key's rows may fill on a reducer. -/
def keyBytes (c : Settings) : Nat :=
  ((Ieee.ofNat c.heapBytes).mul c.memoryFraction).toNat (Nat.pow 2 64 - 1)

/-- Reads a property, if it is given. Blanks around the value are ignored. -/
def property {α : Type} (find : String → Option String) (name : String)
    (read : String → Except NumberFault α) (otherwise : α) : Except Failure α :=
  match find name with
  | none => .ok otherwise
  | some given =>
    match read (trimBlank given) with
    | .ok a => .ok a
    | .error e => .error (.settings (.unreadable name given e))

/-- The settings with the given properties, which must be valid. -/
def ofProperties (find : String → Option String) : Except Failure Settings := do
  let maxTuples ← property find maxTuplesProperty (readCount (Nat.pow 2 64)) default.maxTuples
  let fraction ← property find memoryProperty (readReal Format.double) default.memoryFraction
  let settings : Settings := ⟨maxTuples, fraction, default.heapBytes, default.parallelism⟩
  settings.validate
  return settings

/-- A value of the environment, if it is given and can be read. -/
def override {α : Type} (given : Option String) (read : String → Except NumberFault α)
    (otherwise : α) : α :=
  match given.map read with
  | some (.ok a) => a
  | _ => otherwise

/-- The settings with the given environment. -/
def ofEnvironment (e : Environment) : Settings where
  maxTuples := override e.maxTuples (readCount (Nat.pow 2 64)) default.maxTuples
  memoryFraction := override e.memoryFraction (readReal Format.double) default.memoryFraction
  heapBytes := override e.heapBytes (readCount (Nat.pow 2 64)) default.heapBytes
  parallelism := override e.parallelism (readCount (Nat.pow 2 32)) default.parallelism

/-- Settings as a record. -/
def toJson (c : Settings) : Json :=
  .record [("max_tuples_per_reducer", Json.nat c.maxTuples),
    ("max_memory_fraction", Json.ofReal c.memoryFraction),
    ("reducer_heap_bytes", Json.nat c.heapBytes),
    ("default_parallelism", Json.nat c.parallelism)]

/-- Reads settings. -/
def ofJson? (j : Json) : Option Settings := do
  match ← j.fields? ["max_tuples_per_reducer", "max_memory_fraction", "reducer_heap_bytes",
      "default_parallelism"] with
  | [maxTuples, fraction, heap, parallelism] =>
    return ⟨← Json.required? (Json.asWord? 64) maxTuples, ← Json.required? Json.asDouble? fraction,
      ← Json.required? (Json.asWord? 64) heap, ← Json.required? (Json.asWord? 32) parallelism⟩
  | _ => none

end Settings

end MapReduce
