/-
# Values in documents

How types, scalars, tuples and bags stand in a document: a scalar under the
name of its alternative, a tuple or a bag as a bare list.

Key definitions: `Scalar.toJson`, `Scalar.ofJson?`, `Tuple.toJson`,
`Tuple.ofJson?`.
-/
import MapReduce.Json.Codec
import MapReduce.Value.Tuple

namespace MapReduce

namespace DataType

/-- The name of a type in documents. -/
def tag : DataType → String
  | .unknown => "Unknown"
  | .null => "Null"
  | .boolean => "Boolean"
  | .int32 => "Int32"
  | .int64 => "Int64"
  | .float32 => "Float32"
  | .float64 => "Float64"
  | .utf8 => "Utf8"
  | .binary => "Binary"
  | .tuple => "Tuple"
  | .bag => "Bag"

/-- All types. -/
def all : List DataType :=
  [.unknown, .null, .boolean, .int32, .int64, .float32, .float64, .utf8, .binary, .tuple, .bag]

/-- A type as its name. -/
def toJson (t : DataType) : Json := Json.text t.tag

/-- Reads a type. -/
def ofJson? (j : Json) : Option DataType := do
  let (name, payload) ← j.variant?
  if Json.noPayload payload then all.find? (fun t => t.tag == name) else none

end DataType

/-- The bounds of a signed integer of `n` bits, the upper one not included. -/
def signedBounds (n : Nat) : Int × Int :=
  (-((Nat.pow 2 (n - 1) : Nat) : Int), ((Nat.pow 2 (n - 1) : Nat) : Int))

namespace Scalar

/-- A scalar under the name of its alternative. -/
def toJson : Scalar → Json
  | .null => Json.text "Null"
  | .bool b => Json.alternative "Bool" (.bool b)
  | .int n => Json.alternative "I32" (.int n.toInt)
  | .long n => Json.alternative "I64" (.int n.toInt)
  | .float x => Json.alternative "F32" (Json.ofReal x)
  | .double x => Json.alternative "F64" (Json.ofReal x)
  | .text s => Json.alternative "Str" (Json.text s)
  | .bytes bs => Json.alternative "Bin" (Json.ofList (fun b => Json.nat b.toNat) bs)

/-- Reads the payload of a scalar. -/
def ofPayload? (name : String) (j : Json) : Option Scalar :=
  match name with
  | "Bool" => (Json.asBool? j).map .bool
  | "I32" => (Json.asInt? (signedBounds 32).1 (signedBounds 32).2 j).map
      (fun n => .int (Int32.ofInt n))
  | "I64" => (Json.asInt? (signedBounds 64).1 (signedBounds 64).2 j).map
      (fun n => .long (Int64.ofInt n))
  | "F32" => (Json.asSingle? j).map .float
  | "F64" => (Json.asDouble? j).map .double
  | "Str" => (Json.asText? j).map .text
  | "Bin" => (Json.asList? Json.asUInt8? j).map .bytes
  | _ => none

/-- Reads a scalar. -/
def ofJson? (j : Json) : Option Scalar := do
  let (name, payload) ← j.variant?
  if name == "Null" then if Json.noPayload payload then some .null else none
  else payload.bind (ofPayload? name)

end Scalar

namespace Tuple

/-- A tuple as the list of its fields. -/
def toJson (t : Tuple) : Json := Json.ofList Scalar.toJson t.fields

/-- Reads a tuple. -/
def ofJson? (j : Json) : Option Tuple := (Json.asList? Scalar.ofJson? j).map (fun fs => ⟨fs⟩)

end Tuple

namespace Bag

/-- A bag as the list of its tuples. -/
def toJson (b : Bag) : Json := Json.ofList Tuple.toJson b

/-- Reads a bag. -/
def ofJson? (j : Json) : Option Bag := Json.asList? Tuple.ofJson? j

end Bag

end MapReduce
