/-
# Aggregate functions

An aggregate is a kind of numbers and a rule to combine them: the greatest, the
least or the sum. It skips nulls and has no value on a bag without numbers. Max
and min keep a NaN once they have seen one, and of equal values the first.

An aggregate is evaluated in one pass, or in three waves: `initial` on single
rows, `intermediate` on partial results as often as wanted, `finalValue` at the
end.

Key definitions: `Rule.combine`, `Aggregate`, `Aggregate.values`,
`Aggregate.reduce`, `Aggregate.initial`, `Aggregate.intermediate`,
`Aggregate.finalValue`.
-/
import MapReduce.Aggregate.Numeric
import MapReduce.Failure

namespace MapReduce

/-- How two numbers are combined. -/
inductive Rule where
  | max
  | min
  | sum
deriving DecidableEq

namespace Rule

/-- What function names end with. -/
def tag : Rule → String
  | .max => "Max"
  | .min => "Min"
  | .sum => "Sum"

/-- The rule in messages. -/
def verb : Rule → String
  | .max => "max"
  | .min => "min"
  | .sum => "sum"

/-- The value that a combination starts from. -/
def seed (n : Numeric) : Rule → n.Value
  | .max => n.lowest
  | .min => n.highest
  | .sum => n.zero

/-- The combination of what came before with the next value. -/
def combine (n : Numeric) : Rule → n.Value → n.Value → n.Value
  | .max, acc, next =>
    if n.isNaN acc then acc
    else if n.isNaN next || decide (n.rank acc < n.rank next) then next
    else acc
  | .min, acc, next =>
    if n.isNaN acc then acc
    else if n.isNaN next || decide (n.rank next < n.rank acc) then next
    else acc
  | .sum, acc, next => n.plus acc next

end Rule

/-- An aggregate function. -/
structure Aggregate where
  numeric : Numeric
  rule : Rule
deriving DecidableEq

namespace Aggregate

/-- The numbers an aggregate runs over. -/
abbrev Value (f : Aggregate) : Type := f.numeric.Value

/-- The name of the function. -/
def name (f : Aggregate) : String := f.numeric.tag ++ f.rule.tag

/-- The type of the result. -/
def outputType (f : Aggregate) : DataType := f.numeric.dataType

/-- What is computed, in messages. -/
def context (f : Aggregate) : String := f.rule.verb ++ " in " ++ f.name

/-- What is said of a value of the wrong type. -/
def typeMismatch (f : Aggregate) (s : Scalar) : String :=
  "expected " ++ f.numeric.dataType.name ++ " value, found " ++ s.dataType.name

/-- A row without a first field. -/
def fieldError (f : Aggregate) (e : FieldFault) : ExecError :=
  ExecError.classify f.context (.other e.message)

/-- A value in a bag has the wrong type. -/
def badValue (f : Aggregate) (s : Scalar) : ExecError :=
  ⟨ExecError.badValueCode, .bug,
    "Problem while computing " ++ f.rule.verb ++ " of " ++ f.numeric.plural ++ ".",
    some (f.typeMismatch s)⟩

/-- The number in the first field of a row; none for null. -/
def entry (f : Aggregate) (t : Tuple) : Except ExecError (Option f.Value) :=
  match t.field 0 with
  | .error e => .error (f.fieldError e)
  | .ok .null => .ok none
  | .ok s =>
    match f.numeric.ofScalar? s with
    | some x => .ok (some x)
    | none => .error (f.badValue s)

/-- The numbers in a bag, in order. -/
def values (f : Aggregate) : Bag → Except ExecError (List f.Value)
  | [] => .ok []
  | t :: ts => do
    match ← f.entry t with
    | none => f.values ts
    | some x => return x :: (← f.values ts)

/-- The combination of a list of numbers; none for the empty list. -/
def fold (f : Aggregate) (xs : List f.Value) : Option f.Value :=
  if xs.isEmpty then none
  else some (xs.foldl (f.rule.combine f.numeric) (f.rule.seed f.numeric))

/-- The combination of the numbers in a bag. -/
def reduce (f : Aggregate) (b : Bag) : Except ExecError (Option f.Value) :=
  (f.values b).map f.fold

/-- A number as a scalar, null if there is none. -/
def scalar (f : Aggregate) (x : Option f.Value) : Scalar :=
  (x.map f.numeric.toScalar).getD .null

/-- The first wave: the number of the first row. -/
def initial (f : Aggregate) : Bag → Except ExecError Tuple
  | [] => .ok ⟨[.null]⟩
  | t :: _ =>
    match t.field 0 with
    | .error e => .error (f.fieldError e)
    | .ok .null => .ok ⟨[.null]⟩
    | .ok s =>
      match f.numeric.ofScalar? s with
      | some x => .ok ⟨[f.numeric.toScalar x]⟩
      | none => .error (ExecError.classify f.context (.other (f.typeMismatch s)))

/-- A middle wave: the combination of partial results. -/
def intermediate (f : Aggregate) (b : Bag) : Except ExecError Tuple :=
  (f.reduce b).map (fun x => ⟨[f.scalar x]⟩)

/-- The last wave, and the value in one pass. -/
def finalValue (f : Aggregate) (b : Bag) : Except ExecError Scalar :=
  (f.reduce b).map f.scalar

end Aggregate

end MapReduce
