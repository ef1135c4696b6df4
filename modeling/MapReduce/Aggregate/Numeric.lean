/-
# Numbers that aggregates run over

Four kinds of numbers: integers of 32 and 64 bits, whose sums wrap, and real
numbers of 32 and 64 bits. A wider kind also takes the values of the narrower
one. `Numeric.rank` orders the values of a kind; a NaN is not ordered by it but
told apart by `Numeric.isNaN`.

Key definitions: `Numeric`, `Numeric.Value`, `Numeric.plus`, `Numeric.rank`,
`Numeric.ofScalar?`, `Numeric.toScalar`.
-/
import MapReduce.Value.Scalar

namespace MapReduce

/-- A kind of numbers. -/
inductive Numeric where
  | int
  | long
  | float
  | double
deriving DecidableEq

namespace Numeric

/-- The values of a kind. -/
def Value : Numeric → Type
  | .int => Int32
  | .long => Int64
  | .float => Float32Bits
  | .double => Float64Bits

/-- What function names begin with. -/
def tag : Numeric → String
  | .int => "Int"
  | .long => "Long"
  | .float => "Float"
  | .double => "Double"

/-- The plural in messages. -/
def plural : Numeric → String
  | .int => "ints"
  | .long => "longs"
  | .float => "floats"
  | .double => "doubles"

/-- The type of a kind's values. -/
def dataType : Numeric → DataType
  | .int => .int32
  | .long => .int64
  | .float => .float32
  | .double => .float64

/-- The value no other is below. -/
def lowest : (n : Numeric) → n.Value
  | .int => Int32.minValue
  | .long => Int64.minValue
  | .float => Ieee.infinity true
  | .double => Ieee.infinity true

/-- The value no other is above. -/
def highest : (n : Numeric) → n.Value
  | .int => Int32.maxValue
  | .long => Int64.maxValue
  | .float => Ieee.infinity false
  | .double => Ieee.infinity false

/-- Zero. -/
def zero : (n : Numeric) → n.Value
  | .int => Int32.ofInt 0
  | .long => Int64.ofInt 0
  | .float => Ieee.zero false
  | .double => Ieee.zero false

/-- The sum: integers wrap, real numbers are rounded in their own width. -/
def plus : (n : Numeric) → n.Value → n.Value → n.Value
  | .int => Int32.add
  | .long => Int64.add
  | .float => Ieee.add
  | .double => Ieee.add

/-- Whether a value is not a number. -/
def isNaN : (n : Numeric) → n.Value → Bool
  | .int => fun _ => false
  | .long => fun _ => false
  | .float => Ieee.isNaN
  | .double => Ieee.isNaN

/-- The place of a value among all values of its kind. -/
def rank : (n : Numeric) → n.Value → Int
  | .int => Int32.toInt
  | .long => Int64.toInt
  | .float => Ieee.rank
  | .double => Ieee.rank

/-- The value of a scalar, if its type is the kind's or a narrower one. -/
def ofScalar? : (n : Numeric) → Scalar → Option n.Value
  | .int, .int v => some v
  | .long, .long v => some v
  | .long, .int v => some v.toInt64
  | .float, .float v => some v
  | .double, .double v => some v
  | .double, .float v => some (v.convert Format.double)
  | _, _ => none

/-- A value as a scalar. -/
def toScalar : (n : Numeric) → n.Value → Scalar
  | .int => .int
  | .long => .long
  | .float => .float
  | .double => .double

end Numeric

end MapReduce
