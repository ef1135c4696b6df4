/-
# Operators in documents

How files, aggregate calls and operators stand in a document: records under
their field names, operators under the name of their kind.

Key definitions: `FileSpec.toJson`, `AggCall.toJson`, `OpKind.toJson`,
`OpKind.ofJson?`, `Operator.toJson`, `Operator.ofJson?`.
-/
import MapReduce.Operator.Basic

namespace MapReduce

namespace FileSpec

/-- A file as a record. -/
def toJson (f : FileSpec) : Json :=
  .record [("path", Json.text f.path), ("func", Json.text f.func)]

/-- Reads a file. -/
def ofJson? (j : Json) : Option FileSpec := do
  match ← j.fields? ["path", "func"] with
  | [path, func] =>
    return ⟨← Json.required? Json.asText? path, ← Json.required? Json.asText? func⟩
  | _ => none

end FileSpec

namespace Stage

/-- A stage as its name. -/
def toJson (s : Stage) : Json := Json.text s.name

/-- Reads a stage. -/
def ofJson? (j : Json) : Option Stage := do
  let (name, payload) ← j.variant?
  if Json.noPayload payload then
    [whole, initial, intermediate, final].find? (fun s => s.name == name)
  else none

end Stage

namespace AggCall

/-- A call as a record. -/
def toJson (c : AggCall) : Json :=
  .record [("function", Json.text c.function), ("stage", c.stage.toJson),
    ("column", Json.nat c.column.toNat)]

/-- Reads a call. -/
def ofJson? (j : Json) : Option AggCall := do
  match ← j.fields? ["function", "stage", "column"] with
  | [function, stage, column] =>
    return ⟨← Json.required? Json.asText? function, ← Json.required? Stage.ofJson? stage,
      ← Json.required? Json.asUInt64? column⟩
  | _ => none

end AggCall

namespace OpKind

/-- A list of texts. -/
def textList (l : List String) : Json := Json.ofList Json.text l

/-- A list of column numbers. -/
def columnList (l : List UInt64) : Json := Json.ofList (fun c => Json.nat c.toNat) l

/-- An operator's kind under its name. -/
def toJson : OpKind → Json
  | .load file => Json.alternative "Load" (.record [("file", file.toJson)])
  | .store file => Json.alternative "Store" (.record [("file", file.toJson)])
  | .filter p => Json.alternative "Filter" (.record [("predicate", Json.text p)])
  | .forEach projections aggregates udfs =>
    Json.alternative "ForEach" (.record [("projections", textList projections),
      ("aggregates", Json.ofList AggCall.toJson aggregates), ("udfs", textList udfs)])
  | .localRearrange columns index =>
    Json.alternative "LocalRearrange"
      (.record [("key_columns", columnList columns), ("index", Json.nat index.toNat)])
  | .partitionRearrange columns file =>
    Json.alternative "PartitionRearrange"
      (.record [("key_columns", columnList columns), ("partition_file", Json.text file)])
  | .globalRearrange => Json.text "GlobalRearrange"
  | .package inputs => Json.alternative "Package" (.record [("inputs", Json.nat inputs.toNat)])
  | .union => Json.text "Union"
  | .split file => Json.alternative "Split" (.record [("spill_file", file.toJson)])
  | .limit n => Json.alternative "Limit" (.record [("n", Json.nat n.toNat)])
  | .sort columns ascending =>
    Json.alternative "Sort"
      (.record [("columns", columnList columns), ("ascending", Json.ofList Json.bool ascending)])
  | .frJoin inputs fragment =>
    Json.alternative "FrJoin"
      (.record [("inputs", Json.nat inputs.toNat), ("fragment", Json.nat fragment.toNat)])

/-- Reads a list of texts. -/
def asTexts? : Json → Option (List String) := Json.asList? Json.asText?

/-- Reads a list of column numbers. -/
def asColumns? : Json → Option (List UInt64) := Json.asList? Json.asUInt64?

/-- Reads a record of one field. -/
def oneField? {α : Type} (name : String) (f : Json → Option α) (j : Json) : Option α := do
  match ← j.fields? [name] with
  | [a] => Json.required? f a
  | _ => none

/-- Reads a record of two fields. -/
def twoFields? {α β : Type} (name : String) (f : Json → Option α) (name' : String)
    (g : Json → Option β) (j : Json) : Option (α × β) := do
  match ← j.fields? [name, name'] with
  | [a, b] => return (← Json.required? f a, ← Json.required? g b)
  | _ => none

/-- Reads the three fields of a projection. -/
def forEach? (j : Json) : Option OpKind := do
  match ← j.fields? ["projections", "aggregates", "udfs"] with
  | [projections, aggregates, udfs] =>
    return .forEach (← Json.required? asTexts? projections)
      (← Json.required? (Json.asList? AggCall.ofJson?) aggregates)
      (← Json.required? asTexts? udfs)
  | _ => none

/-- Reads the payload of a kind. -/
def ofPayload? (name : String) (j : Json) : Option OpKind :=
  match name with
  | "Load" => (oneField? "file" FileSpec.ofJson? j).map .load
  | "Store" => (oneField? "file" FileSpec.ofJson? j).map .store
  | "Filter" => (oneField? "predicate" Json.asText? j).map .filter
  | "ForEach" => forEach? j
  | "LocalRearrange" =>
    (twoFields? "key_columns" asColumns? "index" Json.asUInt8? j).map
      (fun p => .localRearrange p.1 p.2)
  | "PartitionRearrange" =>
    (twoFields? "key_columns" asColumns? "partition_file" Json.asText? j).map
      (fun p => .partitionRearrange p.1 p.2)
  | "Package" => (oneField? "inputs" Json.asUInt64? j).map .package
  | "Split" => (oneField? "spill_file" FileSpec.ofJson? j).map .split
  | "Limit" => (oneField? "n" Json.asUInt64? j).map .limit
  | "Sort" =>
    (twoFields? "columns" asColumns? "ascending" (Json.asList? Json.asBool?) j).map
      (fun p => .sort p.1 p.2)
  | "FrJoin" =>
    (twoFields? "inputs" Json.asUInt64? "fragment" Json.asUInt64? j).map
      (fun p => .frJoin p.1 p.2)
  | _ => none

/-- Reads a kind. -/
def ofJson? (j : Json) : Option OpKind := do
  let (name, payload) ← j.variant?
  if name == "GlobalRearrange" then
    if Json.noPayload payload then some .globalRearrange else none
  else if name == "Union" then if Json.noPayload payload then some .union else none
  else payload.bind (ofPayload? name)

end OpKind

namespace Operator

/-- An operator as a record. -/
def toJson (op : Operator) : Json :=
  .record [("key", op.key.toJson), ("kind", op.kind.toJson)]

/-- Reads an operator. -/
def ofJson? (j : Json) : Option Operator := do
  match ← j.fields? ["key", "kind"] with
  | [key, kind] =>
    return ⟨← Json.required? Key.ofJson? key, ← Json.required? OpKind.ofJson? kind⟩
  | _ => none

end Operator

end MapReduce
