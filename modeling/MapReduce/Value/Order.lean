/-
# The order of scalars

Values of one type compare by value, values of different types by the place of
their types, so null comes first. Texts and binary values compare byte by byte;
for texts that is the order of their code points. Among real numbers all NaNs
are equal and greatest, and the two zeros are equal. The result is a lawful
comparison, which every map keyed by tuples relies on.

Key definitions: `Scalar.compare`.
Key theorems: `Scalar.compare_swap`, `Scalar.compare_isLE_trans`.
-/
import MapReduce.Value.Scalar

namespace MapReduce

instance (f : Format) : Std.TransCmp (@Ieee.compare f) :=
  inferInstanceAs (Std.TransCmp (compareOn (@Ieee.rank f)))

/-- The order of byte strings. -/
def compareBytes : Bytes → Bytes → Ordering := List.compareLex (compareOn UInt8.toNat)

instance : Std.TransCmp compareBytes :=
  inferInstanceAs (Std.TransCmp (List.compareLex (compareOn UInt8.toNat)))

namespace Scalar

/-- The order of scalars. -/
def compare : Scalar → Scalar → Ordering
  | .null, .null => .eq
  | .bool a, .bool b => compareOn Bool.toNat a b
  | .int a, .int b => compareOn Int32.toInt a b
  | .long a, .long b => compareOn Int64.toInt a b
  | .float a, .float b => a.compare b
  | .double a, .double b => a.compare b
  | .text a, .text b => Ord.compare a b
  | .bytes a, .bytes b => compareBytes a b
  | a, b => compareOn typeOrder a b

/-- Values of different types compare by the place of their types. -/
theorem compare_of_typeOrder_ne {a b : Scalar} (h : a.typeOrder ≠ b.typeOrder) :
    compare a b = compareOn typeOrder a b := by
  cases a <;> cases b <;> first | rfl | exact absurd rfl h

/-- A comparison that is not greater never goes up in the place of types. -/
theorem typeOrder_le_of_isLE {a b : Scalar} (h : (compare a b).isLE) : a.typeOrder ≤ b.typeOrder := by
  by_cases e : a.typeOrder = b.typeOrder
  · omega
  · rw [compare_of_typeOrder_ne e] at h
    exact Nat.isLE_compare.mp h

/-- Exchanging the sides reverses the comparison. -/
theorem compare_swap (a b : Scalar) : compare a b = (compare b a).swap := by
  by_cases e : a.typeOrder = b.typeOrder
  · cases a <;> cases b <;> simp [typeOrder] at e
    case null.null => rfl
    case bool.bool a b => exact @Std.OrientedCmp.eq_swap _ (compareOn Bool.toNat) _ a b
    case int.int a b => exact @Std.OrientedCmp.eq_swap _ (compareOn Int32.toInt) _ a b
    case long.long a b => exact @Std.OrientedCmp.eq_swap _ (compareOn Int64.toInt) _ a b
    case float.float a b => exact @Std.OrientedCmp.eq_swap _ Ieee.compare _ a b
    case double.double a b => exact @Std.OrientedCmp.eq_swap _ Ieee.compare _ a b
    case text.text a b => exact @Std.OrientedCmp.eq_swap _ Ord.compare _ a b
    case bytes.bytes a b => exact @Std.OrientedCmp.eq_swap _ compareBytes _ a b
  · rw [compare_of_typeOrder_ne e, compare_of_typeOrder_ne (Ne.symm e)]
    exact Std.OrientedCmp.eq_swap

/-- Not greater is transitive. -/
theorem compare_isLE_trans {a b c : Scalar} (hab : (compare a b).isLE) (hbc : (compare b c).isLE) :
    (compare a c).isLE := by
  have h1 := typeOrder_le_of_isLE hab
  have h2 := typeOrder_le_of_isLE hbc
  by_cases e : a.typeOrder = c.typeOrder
  · have e' : b.typeOrder = c.typeOrder := by omega
    clear h1 h2
    cases a <;> cases c <;> simp [typeOrder] at e <;>
      cases b <;> simp [typeOrder] at e'
    case null.null.null => rfl
    case bool.bool.bool => exact @Std.TransCmp.isLE_trans _ (compareOn Bool.toNat) _ _ _ _ hab hbc
    case int.int.int => exact @Std.TransCmp.isLE_trans _ (compareOn Int32.toInt) _ _ _ _ hab hbc
    case long.long.long => exact @Std.TransCmp.isLE_trans _ (compareOn Int64.toInt) _ _ _ _ hab hbc
    case float.float.float => exact @Std.TransCmp.isLE_trans _ Ieee.compare _ _ _ _ hab hbc
    case double.double.double => exact @Std.TransCmp.isLE_trans _ Ieee.compare _ _ _ _ hab hbc
    case text.text.text => exact @Std.TransCmp.isLE_trans _ Ord.compare _ _ _ _ hab hbc
    case bytes.bytes.bytes => exact @Std.TransCmp.isLE_trans _ compareBytes _ _ _ _ hab hbc
  · rw [compare_of_typeOrder_ne e]
    exact Nat.isLE_compare.mpr (by omega)

instance : Std.TransCmp compare where
  eq_swap := compare_swap _ _
  isLE_trans := compare_isLE_trans

end Scalar

end MapReduce
