/-
# Physical operators

The closed catalogue of operators that a phase plan links: reading and writing
files, filters and projections, the rearrangements around a shuffle, unions,
splits, limits, sorts and joins. An operator's name is its label and its key; it
is the line that stands for it in an explained plan.

Key definitions: `FileSpec`, `Stage`, `AggCall`, `OpKind`, `Operator`,
`Operator.name`.
-/
import MapReduce.Key

namespace MapReduce

/-- A file and the function that reads or writes it. -/
structure FileSpec where
  path : String
  func : String
deriving DecidableEq

/-- The file as text. -/
def FileSpec.display (f : FileSpec) : String := f.path ++ ":" ++ f.func

/-- Which stage of an aggregate is evaluated: all of it in one pass, or one of
the three waves it is split into. -/
inductive Stage where
  | whole
  | initial
  | intermediate
  | final
deriving DecidableEq

namespace Stage

/-- The name of a stage. -/
def name : Stage → String
  | .whole => "Whole"
  | .initial => "Initial"
  | .intermediate => "Intermediate"
  | .final => "Final"

/-- What a label appends to a function's name. -/
def mark : Stage → String
  | .whole => ""
  | s => "$" ++ s.name

end Stage

/-- A call of an aggregate function on a column. -/
structure AggCall where
  function : String
  stage : Stage
  column : UInt64
deriving DecidableEq

/-- What an operator does. -/
inductive OpKind where
  | load (file : FileSpec)
  | store (file : FileSpec)
  | filter (predicate : String)
  | forEach (projections : List String) (aggregates : List AggCall) (udfs : List String)
  /-- Extracts the shuffle key on the map side; `index` tells the inputs of one
  reduce apart. -/
  | localRearrange (keyColumns : List UInt64) (index : UInt8)
  /-- Extracts the shuffle key of the skewed input of a join, whose rows are
  spread as the partition file says. -/
  | partitionRearrange (keyColumns : List UInt64) (partitionFile : String)
  | globalRearrange
  | package (inputs : UInt64)
  | union
  | split (spillFile : FileSpec)
  | limit (n : UInt64)
  | sort (columns : List UInt64) (ascending : List Bool)
  /-- A fragment-replicate join, whose input `fragment` is streamed. -/
  | frJoin (inputs fragment : UInt64)
deriving DecidableEq

/-- Texts joined by commas. -/
def commaJoined (items : List String) : String := String.intercalate "," items

/-- A column as it is written in labels. -/
def columnText (c : UInt64) : String := "$" ++ Nat.repr c.toNat

/-- The sort columns with their directions; a column without one ascends. -/
def sortTexts : List UInt64 → List Bool → List String
  | [], _ => []
  | c :: cs, [] => (columnText c ++ " ASC") :: sortTexts cs []
  | c :: cs, b :: bs => (columnText c ++ if b then " ASC" else " DESC") :: sortTexts cs bs

namespace OpKind

/-- The label of an operator. -/
def label : OpKind → String
  | .load file => "Load(" ++ file.display ++ ")"
  | .store file => "Store(" ++ file.display ++ ")"
  | .filter p => "Filter[" ++ p ++ "]"
  | .forEach projections aggregates _ =>
    "New For Each[" ++ commaJoined (projections ++ aggregates.map (fun a =>
      a.function ++ a.stage.mark ++ "(" ++ columnText a.column ++ ")")) ++ "]"
  | .localRearrange columns index =>
    "Local Rearrange[" ++ commaJoined (columns.map columnText) ++ "](" ++ Nat.repr index.toNat ++ ")"
  | .partitionRearrange columns file =>
    "Partition Rearrange[" ++ commaJoined (columns.map columnText) ++ "](" ++ file ++ ")"
  | .globalRearrange => "Global Rearrange"
  | .package inputs => "Package[" ++ Nat.repr inputs.toNat ++ "]"
  | .union => "Union"
  | .split file => "Split(" ++ file.display ++ ")"
  | .limit n => "Limit[" ++ Nat.repr n.toNat ++ "]"
  | .sort columns ascending => "Sort[" ++ commaJoined (sortTexts columns ascending) ++ "]"
  | .frJoin inputs fragment => "FRJoin[" ++ Nat.repr inputs.toNat ++ "](" ++ Nat.repr fragment.toNat ++ ")"

/-- The user functions an operator refers to. -/
def udfs : OpKind → List String
  | .forEach _ _ udfs => udfs
  | _ => []

/-- The aggregate calls an operator evaluates. -/
def aggregates : OpKind → List AggCall
  | .forEach _ aggregates _ => aggregates
  | _ => []

end OpKind

/-- An operator of a phase plan. -/
structure Operator where
  key : Key
  kind : OpKind
deriving DecidableEq

namespace Operator

/-- The line that stands for an operator. -/
def name (op : Operator) : String := op.kind.label ++ " - " ++ op.key.display

/-- Whether the operator is a union. -/
def isUnion (op : Operator) : Bool := op.kind == .union

end Operator

end MapReduce
