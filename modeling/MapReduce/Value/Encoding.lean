/-
# The key encoding

The bytes under which a tuple is hashed: for each field the place of its type
and then its payload, lowest byte first, a text or binary value after its
length. Real numbers go in by bit pattern, so the encoding tells apart keys
that compare equal: the two zeros, and NaNs of different payloads.

Key definitions: `Scalar.encode`, `Tuple.encode`, `Tuple.hash`.
-/
import MapReduce.Digest.Basic
import MapReduce.Value.Tuple

namespace MapReduce

/-- The bytes of a field. -/
def Scalar.encode (s : Scalar) : Bytes :=
  UInt8.ofNat s.typeOrder :: match s with
  | .null => []
  | .bool b => [if b then 1 else 0]
  | .int n => littleEndian 4 n.toBitVec.toNat
  | .long n => littleEndian 8 n.toBitVec.toNat
  | .float x => littleEndian 4 x.bits.toNat
  | .double x => littleEndian 8 x.bits.toNat
  | .text t => littleEndian 8 (utf8 t).length ++ utf8 t
  | .bytes bs => littleEndian 8 bs.length ++ bs

/-- The bytes of a tuple. -/
def Tuple.encode (t : Tuple) : Bytes := t.fields.flatMap Scalar.encode

/-- The 64-bit hash by which a key is routed. -/
def Tuple.hash (t : Tuple) : Nat := (Digest.of t.encode).low

end MapReduce
