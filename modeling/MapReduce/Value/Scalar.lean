/-
# Scalars

The atomic values of a row. Integers have 32 or 64 bits and wrap, real numbers
are bit patterns, a binary value is a byte string. `Scalar.sizeEstimate` is the
number of bytes a value is counted with when the memory of a reducer is planned.

Key definitions: `DataType`, `Scalar`, `Scalar.dataType`, `Scalar.typeOrder`,
`Scalar.sizeEstimate`, `Scalar.shown`.
-/
import MapReduce.Number.Shortest
import MapReduce.Text.Bytes
import MapReduce.Text.Quoted

namespace MapReduce

/-- The type of a field. -/
inductive DataType where
  | unknown
  | null
  | boolean
  | int32
  | int64
  | float32
  | float64
  | utf8
  | binary
  | tuple
  | bag
deriving DecidableEq

instance : Inhabited DataType := ⟨.unknown⟩

/-- The name of a type in messages. -/
def DataType.name : DataType → String
  | .unknown => "unknown"
  | .null => "null"
  | .boolean => "boolean"
  | .int32 => "int"
  | .int64 => "long"
  | .float32 => "float"
  | .float64 => "double"
  | .utf8 => "chararray"
  | .binary => "bytearray"
  | .tuple => "tuple"
  | .bag => "bag"

/-- An atomic value. -/
inductive Scalar where
  | null
  | bool (b : Bool)
  | int (n : Int32)
  | long (n : Int64)
  | float (x : Float32Bits)
  | double (x : Float64Bits)
  | text (s : String)
  | bytes (bs : Bytes)
deriving DecidableEq

namespace Scalar

instance : Inhabited Scalar := ⟨.null⟩

/-- Whether the value is missing. -/
def isNull : Scalar → Bool
  | .null => true
  | _ => false

/-- The type of a value. -/
def dataType : Scalar → DataType
  | .null => .null
  | .bool _ => .boolean
  | .int _ => .int32
  | .long _ => .int64
  | .float _ => .float32
  | .double _ => .float64
  | .text _ => .utf8
  | .bytes _ => .binary

/-- The place of a value's type among all types. -/
def typeOrder : Scalar → Nat
  | .null => 0
  | .bool _ => 1
  | .int _ => 2
  | .long _ => 3
  | .float _ => 4
  | .double _ => 5
  | .text _ => 6
  | .bytes _ => 7

/-- The bytes a value is counted with. -/
def sizeEstimate : Scalar → Nat
  | .null => 1
  | .bool _ => 1
  | .int _ => 4
  | .long _ => 8
  | .float _ => 4
  | .double _ => 8
  | .text s => s.utf8ByteSize + 8
  | .bytes bs => bs.length + 8

/-- Equality of values: real numbers as numbers, so a NaN equals nothing and
the two zeros are equal. -/
def sameValue : Scalar → Scalar → Bool
  | .float x, .float y => x.sameNumber y
  | .double x, .double y => x.sameNumber y
  | a, b => a == b

/-- The value as it is shown in messages. -/
def shown : Scalar → String
  | .null => "Null"
  | .bool b => "Bool(" ++ (if b then "true" else "false") ++ ")"
  | .int n => "I32(" ++ Int.repr n.toInt ++ ")"
  | .long n => "I64(" ++ Int.repr n.toInt ++ ")"
  | .float x => "F32(" ++ x.render .shown ++ ")"
  | .double x => "F64(" ++ x.render .shown ++ ")"
  | .text s => "Str(" ++ quoted s ++ ")"
  | .bytes bs => "Bin(" ++ bracketed (bs.map (fun b => Nat.repr b.toNat)) ++ ")"

end Scalar

end MapReduce
