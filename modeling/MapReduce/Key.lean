/-
# Operator keys

An operator or a job is named by a scope and a number in it. Keys order by
scope, byte by byte, then by number. A `KeyMint` hands out numbers per scope,
from one upwards, and can be told to skip numbers that are taken.

Key definitions: `Key`, `Key.compare`, `Key.display`, `KeyMint`,
`KeyMint.nextId`, `KeyMint.nextKey`, `KeyMint.reserve`.
-/
import MapReduce.Json.Codec
import MapReduce.OrderedMap

namespace MapReduce

/-- The name of an operator or a job. -/
structure Key where
  scope : String
  id : UInt64
deriving DecidableEq

namespace Key

/-- The order of keys. -/
def compare : Key → Key → Ordering :=
  compareLex (compareOn Key.scope) (compareOn (fun k => k.id.toNat))

instance : Std.TransCmp compare :=
  inferInstanceAs (Std.TransCmp (compareLex (compareOn Key.scope) (compareOn (fun k => k.id.toNat))))

instance : Std.LawfulEqCmp compare where
  eq_of_compare {a b} h := by
    cases a
    cases b
    simp only [compare, compareLex, compareOn, Ordering.then_eq_eq, Std.LawfulEqOrd.compare_eq_iff_eq,
      UInt64.toNat_inj] at h
    rw [h.1, h.2]

/-- The key as text. -/
def display (k : Key) : String := k.scope ++ "-" ++ Nat.repr k.id.toNat

/-- A key as a record. -/
def toJson (k : Key) : Json := .record [("scope", Json.text k.scope), ("id", Json.nat k.id.toNat)]

/-- Reads a key. -/
def ofJson? (j : Json) : Option Key := do
  match ← j.fields? ["scope", "id"] with
  | [scope, id] =>
    return ⟨← Json.required? Json.asText? scope, ← Json.required? Json.asUInt64? id⟩
  | _ => none

end Key

/-- A finite map from keys. -/
abbrev KeyMap (α : Type) := OrderedMap Key Key.compare α

/-- A finite set of keys. -/
abbrev KeySet := OrderedSet Key Key.compare

/-- The next number of each scope that was used. -/
structure KeyMint where
  next : OrderedMap String (Ord.compare : String → String → Ordering) Nat

namespace KeyMint

/-- A mint that has not been used. -/
def empty : KeyMint := ⟨OrderedMap.empty⟩

/-- The number a scope hands out next. -/
def peek (m : KeyMint) (scope : String) : Nat := (m.next.find? scope).getD 1

/-- Hands out a number. -/
def nextId (m : KeyMint) (scope : String) : Nat × KeyMint :=
  let id := m.peek scope
  (id, ⟨m.next.insert scope (id + 1)⟩)

/-- Hands out a key. -/
def nextKey (m : KeyMint) (scope : String) : Key × KeyMint :=
  let (id, m') := m.nextId scope
  (⟨scope, UInt64.ofNat id⟩, m')

/-- Makes the scope skip every number up to `id`. -/
def reserve (m : KeyMint) (scope : String) (id : Nat) : KeyMint :=
  ⟨m.next.insert scope (max (m.peek scope) (id + 1))⟩

end KeyMint

end MapReduce
