/-
# Tuples and bags

A tuple is a list of scalars, a bag a list of tuples. Tuples compare field by
field, and a tuple that ends first is smaller; two tuples are the same key when
they compare equal, which does not see the sign of a zero or the payload of a
NaN. Sorting is stable, so of equal keys the first stays first.

Key definitions: `Tuple`, `Tuple.compare`, `Tuple.sameKey`, `Tuple.field`,
`TupleMap`, `Bag`, `sortByKey`.
-/
import MapReduce.OrderedMap
import MapReduce.Value.Order

namespace MapReduce

/-- A row or a key: a list of scalars. -/
structure Tuple where
  fields : List Scalar
deriving DecidableEq

/-- A list of tuples. -/
abbrev Bag := List Tuple

/-- A field that a tuple does not have. -/
structure FieldFault where
  index : Nat
  arity : Nat
deriving DecidableEq

/-- The wording of the fault. -/
def FieldFault.message (e : FieldFault) : String :=
  "field " ++ Nat.repr e.index ++ " out of range for tuple of arity " ++ Nat.repr e.arity

namespace Tuple

instance : Inhabited Tuple := ⟨⟨[]⟩⟩

/-- The number of fields. -/
def arity (t : Tuple) : Nat := t.fields.length

/-- A field of the tuple. -/
def field (t : Tuple) (i : Nat) : Except FieldFault Scalar :=
  match t.fields[i]? with
  | some s => .ok s
  | none => .error ⟨i, t.arity⟩

/-- The tuple with a field added at its end. -/
def push (t : Tuple) (s : Scalar) : Tuple := ⟨t.fields ++ [s]⟩

/-- The bytes a tuple is counted with. -/
def sizeEstimate (t : Tuple) : Nat := t.fields.foldl (fun n s => n + s.sizeEstimate) 16

/-- The order of tuples. -/
def compare (a b : Tuple) : Ordering := List.compareLex Scalar.compare a.fields b.fields

instance : Std.TransCmp compare where
  eq_swap := fun {a b} =>
    @Std.OrientedCmp.eq_swap _ (List.compareLex Scalar.compare) _ a.fields b.fields
  isLE_trans := fun {a b c} =>
    @Std.TransCmp.isLE_trans _ (List.compareLex Scalar.compare) _ a.fields b.fields c.fields

/-- Whether two tuples are the same key. -/
def sameKey (a b : Tuple) : Bool := compare a b == .eq

/-- Whether `a` comes before `b`. -/
def before (a b : Tuple) : Bool := compare a b == .lt

/-- The tuple as it is shown in messages. -/
def shown (t : Tuple) : String := "Tuple(" ++ bracketed (t.fields.map Scalar.shown) ++ ")"

end Tuple

/-- A finite map from tuples, which identifies tuples that are the same key. -/
abbrev TupleMap (α : Type) := OrderedMap Tuple Tuple.compare α

/-- The stable sort of a list by the tuple order of its items' keys. -/
def sortByKey {α : Type} (key : α → Tuple) (l : List α) : List α :=
  l.mergeSort (fun a b => (Tuple.compare (key a) (key b)).isLE)

namespace Bag

/-- The bag of one-field tuples with the given values. -/
def ofValues (values : List Scalar) : Bag := values.map (fun s => ⟨[s]⟩)

/-- Whether two bags hold the same keys in the same order. -/
def same : Bag → Bag → Bool
  | [], [] => true
  | a :: as, b :: bs => a.sameKey b && same as bs
  | _, _ => false

/-- The number of keys after equal neighbours are merged. -/
def distinct : Bag → Nat
  | [] => 0
  | [_] => 1
  | a :: b :: rest => (if a.sameKey b then 0 else 1) + distinct (b :: rest)

end Bag

end MapReduce
