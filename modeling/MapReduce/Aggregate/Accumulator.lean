/-
# Accumulators and the registry

An accumulator takes a bag chunk by chunk and holds the combination of what it
has taken. A chunk that fails leaves it as it was. The registry names the
aggregates that a task may call.

Key definitions: `Accumulator`, `Accumulator.accumulate`, `Accumulator.call`,
`Registry`, `Registry.builtin`.
-/
import MapReduce.Aggregate.Basic
import MapReduce.OrderedMap

namespace MapReduce

/-- The state of an aggregate that takes its input in chunks. -/
structure Accumulator (f : Aggregate) where
  running : Option f.Value
  sawNonNull : Bool

namespace Accumulator

variable {f : Aggregate}

/-- An accumulator that has taken nothing. -/
def fresh : Accumulator f := ⟨none, false⟩

instance : Inhabited (Accumulator f) := ⟨fresh⟩

/-- Combines the value of a chunk into the running value. -/
def absorb (a : Accumulator f) (x : f.Value) : Accumulator f :=
  ⟨some (f.rule.combine f.numeric (a.running.getD (f.rule.seed f.numeric)) x), true⟩

/-- Takes a chunk; a chunk without numbers changes nothing. -/
def accumulate (a : Accumulator f) (chunk : Bag) : Except ExecError (Accumulator f) := do
  match ← f.reduce chunk with
  | none => return a
  | some x => return a.absorb x

/-- The combination of what was taken, null if there is none. -/
def value (a : Accumulator f) : Scalar := f.scalar a.running

/-- A call on an accumulator. -/
inductive Call where
  | accumulate (chunk : Bag)
  | value
  /-- Forgets all that was taken. -/
  | cleanup

/-- What a call is answered. -/
inductive Reply where
  | done
  | failed (e : ExecError)
  | value (s : Scalar)

/-- Answers a call. A chunk that fails changes nothing. -/
def call (a : Accumulator f) : Call → Accumulator f × Reply
  | .accumulate chunk =>
    match a.accumulate chunk with
    | .ok a' => (a', .done)
    | .error e => (a, .failed e)
  | .value => (a, .value a.value)
  | .cleanup => (fresh, .done)

end Accumulator

/-- The aggregates known by name. -/
structure Registry where
  functions : OrderedMap String (Ord.compare : String → String → Ordering) Aggregate

namespace Registry

/-- The registry that knows no function. -/
def empty : Registry := ⟨OrderedMap.empty⟩

/-- Makes a function known under a name, in place of a former one. -/
def register (r : Registry) (name : String) (f : Aggregate) : Registry :=
  ⟨r.functions.insert name f⟩

/-- The function known under a name. -/
def find? (r : Registry) (name : String) : Option Aggregate := r.functions.find? name

/-- The known names, in order. -/
def names (r : Registry) : List String := r.functions.keys

/-- The registry as it is shown. -/
def shown (r : Registry) : String := bracketed (r.names.map quoted)

/-- The functions that are known from the start. -/
def builtinFunctions : List Aggregate :=
  [⟨.int, .max⟩, ⟨.int, .min⟩, ⟨.long, .max⟩, ⟨.long, .min⟩, ⟨.long, .sum⟩, ⟨.float, .max⟩,
    ⟨.double, .max⟩, ⟨.double, .min⟩, ⟨.double, .sum⟩]

/-- The registry of the functions known from the start, each under its own
name. -/
def builtin : Registry := builtinFunctions.foldl (fun r f => r.register f.name f) empty

end Registry

/-- Every aggregate. -/
def Aggregate.all : List Aggregate :=
  [Numeric.int, .long, .float, .double].flatMap (fun n =>
    [Rule.max, .min, .sum].map (fun r => ⟨n, r⟩))

/-- The aggregate with a name. -/
def Aggregate.named? (name : String) : Option Aggregate := Aggregate.all.find? (fun f => f.name == name)

end MapReduce
