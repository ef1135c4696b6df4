/-
# Annotations of a job

What the optimizer has decided about how a job runs: sorting, joins, limits,
parallelism, and the user functions it needs. `Annotations.validate` makes the
checks that can be made before anything runs.

Key definitions: `Annotations`, `Annotations.validate`,
`Annotations.udfShortNames`, `Annotations.toJson`, `Annotations.ofJson?`.
-/
import MapReduce.Failure
import MapReduce.Operator.Json
import MapReduce.Text.Lines
import MapReduce.Value.Json

namespace MapReduce

/-- How a job runs. -/
structure Annotations where
  /-- The type under which a missing map key enters the shuffle. -/
  mapKeyType : DataType := .unknown
  globalSort : Bool := false
  limitAfterSort : Bool := false
  limitOnly : Bool := false
  needsDistinctCombiner : Bool := false
  useSecondaryKey : Bool := false
  frJoin : Bool := false
  /-- Must agree with whether there is a partition file. -/
  skewedJoin : Bool := false
  /-- Whether the job ends at a split. -/
  splitter : Bool := false
  endOfAllInputInMap : Bool := false
  endOfAllInputInReduce : Bool := false
  sortOrder : Option (List Bool) := none
  secondarySortOrder : Option (List Bool) := none
  keyArity : Option UInt64 := none
  secondaryKeyArity : Option UInt64 := none
  quantileFile : Option String := none
  partitionFile : Option String := none
  /-- The replicated inputs of a fragment-replicate join; the slot of the
  streamed input is empty. -/
  replicatedFiles : List (Option FileSpec) := []
  fragment : Option UInt64 := none
  requestedParallelism : Option UInt32 := none
  limit : Option UInt64 := none
  /-- The user functions, in the order of their first mention. -/
  udfs : List String := []
deriving DecidableEq

namespace Annotations

instance : Inhabited Annotations := ⟨{}⟩

/-- A job is a skewed join if it has a partition file. -/
def isSkewedJoin (a : Annotations) : Bool := a.partitionFile.isSome

/-- The list with `x` at its end, unless it is in it. -/
def addNew (l : List String) (x : String) : List String := if l.contains x then l else l ++ [x]

/-- The user functions without their qualifiers, each once. -/
def udfShortNames (a : Annotations) : List String :=
  (a.udfs.map (afterLast '.')).foldl addNew []

/-- Whether an order has as many columns as the key, if both are known. -/
def arityAgrees (order : Option (List Bool)) (arity : Option UInt64) : Bool :=
  match order, arity with
  | some o, some n => o.length == n.toNat
  | _, _ => true

/-- The checks on a fragment-replicate join. -/
def validateFragment (a : Annotations) : Except ValidationFault Unit :=
  if a.frJoin then
    match a.fragment with
    | none => .error .noFragment
    | some i =>
      match a.replicatedFiles[i.toNat]? with
      | none => .error (.fragmentRange i.toNat a.replicatedFiles.length)
      | some (some file) => .error (.fragmentReplicated i.toNat file)
      | some none => .ok ()
  else .ok ()

/-- The first fault of the annotations, in the order of the checks. -/
def check (a : Annotations) : Except ValidationFault Unit := do
  if a.skewedJoin != a.isSkewedJoin then
    throw (.skewFlag a.skewedJoin a.isSkewedJoin)
  if a.globalSort && a.quantileFile.isNone then
    throw .sortWithoutQuantiles
  if !arityAgrees a.sortOrder a.keyArity then
    throw (.sortArity (a.sortOrder.getD []).length (a.keyArity.getD 0).toNat)
  if a.secondarySortOrder.isSome && !a.useSecondaryKey then
    throw .secondaryWithoutKey
  if !arityAgrees a.secondarySortOrder a.secondaryKeyArity then
    throw (.secondaryArity (a.secondarySortOrder.getD []).length (a.secondaryKeyArity.getD 0).toNat)
  a.validateFragment
  if a.requestedParallelism == some 0 then
    throw .zeroParallelism

/-- Whether a job with these annotations may run. -/
def validate (a : Annotations) : Except Failure Unit := a.check.mapError .validation

/-- The names of the fields in documents. -/
def fieldNames : List String :=
  ["map_key_type", "global_sort", "limit_after_sort", "limit_only", "needs_distinct_combiner",
    "use_secondary_key", "frjoin", "skewed_join", "splitter", "end_of_all_input_in_map",
    "end_of_all_input_in_reduce", "sort_order", "secondary_sort_order", "key_arity",
    "secondary_key_arity", "quant_file", "skewed_join_partition_file", "repl_files", "fragment",
    "requested_parallelism", "limit", "udfs"]

/-- The values of the fields in documents. -/
def fieldValues (a : Annotations) : List Json :=
  let order := Json.ofOption (Json.ofList Json.bool)
  let count := Json.ofOption (fun n : UInt64 => Json.nat n.toNat)
  [a.mapKeyType.toJson, .bool a.globalSort, .bool a.limitAfterSort, .bool a.limitOnly,
    .bool a.needsDistinctCombiner, .bool a.useSecondaryKey, .bool a.frJoin, .bool a.skewedJoin,
    .bool a.splitter, .bool a.endOfAllInputInMap, .bool a.endOfAllInputInReduce,
    order a.sortOrder, order a.secondarySortOrder, count a.keyArity,
    count a.secondaryKeyArity, Json.ofOption Json.text a.quantileFile,
    Json.ofOption Json.text a.partitionFile,
    Json.ofList (Json.ofOption FileSpec.toJson) a.replicatedFiles,
    count a.fragment,
    Json.ofOption (fun n : UInt32 => Json.nat n.toNat) a.requestedParallelism,
    count a.limit, Json.ofList Json.text a.udfs]

/-- Annotations as a record. -/
def toJson (a : Annotations) : Json := .record (fieldNames.zip a.fieldValues)

/-- Reads annotations. -/
def ofJson? (j : Json) : Option Annotations := do
  let flag := Json.required? Json.asBool?
  let order := Json.optional? (Json.asList? Json.asBool?)
  let count := Json.optional? Json.asUInt64?
  match ← j.fields? fieldNames with
  | [mapKeyType, globalSort, limitAfterSort, limitOnly, needsDistinctCombiner, useSecondaryKey,
      frJoin, skewedJoin, splitter, endInMap, endInReduce, sortOrder, secondarySortOrder, keyArity,
      secondaryKeyArity, quantileFile, partitionFile, replicatedFiles, fragment,
      requestedParallelism, limit, udfs] =>
    return ⟨← Json.required? DataType.ofJson? mapKeyType, ← flag globalSort, ← flag limitAfterSort,
      ← flag limitOnly, ← flag needsDistinctCombiner, ← flag useSecondaryKey, ← flag frJoin,
      ← flag skewedJoin, ← flag splitter, ← flag endInMap, ← flag endInReduce, ← order sortOrder,
      ← order secondarySortOrder, ← count keyArity, ← count secondaryKeyArity,
      ← Json.optional? Json.asText? quantileFile, ← Json.optional? Json.asText? partitionFile,
      ← Json.required? (Json.asList? (Json.asOption? FileSpec.ofJson?)) replicatedFiles,
      ← count fragment, ← Json.optional? Json.asUInt32? requestedParallelism, ← count limit,
      ← Json.required? (Json.asList? Json.asText?) udfs⟩
  | _ => none

end Annotations

end MapReduce
