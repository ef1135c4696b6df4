/-
# Digests

A digest is the 256-bit hash of a byte string. Routing uses its low 64 bits,
manifests and files its hexadecimal text. The digest of a document is that of
its compact form.

Key definitions: `Digest`, `Digest.of`, `Digest.ofJson`, `Digest.low`,
`Digest.hex`.
-/
import MapReduce.Digest.Blake3
import MapReduce.Json.Codec

namespace MapReduce

/-- A 256-bit digest, as its bytes. -/
structure Digest where
  bytes : Vector UInt8 32
deriving DecidableEq

namespace Digest

/-- The digest of a byte string. -/
def of (bs : Bytes) : Digest := ⟨Blake3.hash bs⟩

/-- The digest of a document. -/
def ofJson (j : Json) : Digest := of j.compact

/-- The first eight bytes as a number, lowest byte first. -/
def low (d : Digest) : Nat := ofLittleEndian (d.bytes.toList.take 8)

/-- The bytes as hexadecimal text. -/
def hex (d : Digest) : String := hexText d.bytes.toList

/-- A digest as a list of its bytes. -/
def toJson (d : Digest) : Json := Json.ofList (fun b => Json.nat b.toNat) d.bytes.toList

/-- Reads a digest: exactly 32 bytes. -/
def ofJson? (j : Json) : Option Digest := do
  let bs ← Json.asList? Json.asUInt8? j
  if h : bs.length = 32 then some ⟨⟨bs.toArray, by simp [h]⟩⟩ else none

end Digest

end MapReduce
