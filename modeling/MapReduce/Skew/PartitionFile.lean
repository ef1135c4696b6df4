/-
# Partition files

A partition map is stored as a document with a version, the number of reducers,
the entries and a digest of the entries. A document of another version, or whose
entries do not have the digest, is refused.

Key definitions: `PartitionFile`, `PartitionMap.toFile`, `PartitionFile.toMap`,
`writePartitionMap`, `readPartitionMap`.
-/
import MapReduce.Digest.Basic
import MapReduce.Skew.PartitionMap
import MapReduce.Storage.Basic

namespace MapReduce

/-- A stored partition map. -/
structure PartitionFile where
  version : UInt32
  parallelism : UInt32
  digest : String
  entries : List PartitionEntry

namespace PartitionFile

/-- The version that is written and read. -/
def currentVersion : UInt32 := 1

/-- The digest of entries. -/
def digestOf (entries : List PartitionEntry) : String :=
  (Digest.ofJson (Json.ofList PartitionEntry.toJson entries)).hex

/-- A file as a record. -/
def toJson (f : PartitionFile) : Json :=
  .record [("version", Json.nat f.version.toNat), ("parallelism", Json.nat f.parallelism.toNat),
    ("digest", Json.text f.digest), ("entries", Json.ofList PartitionEntry.toJson f.entries)]

/-- Reads a file. -/
def ofJson? (j : Json) : Option PartitionFile := do
  match ← j.fields? ["version", "parallelism", "digest", "entries"] with
  | [version, parallelism, digest, entries] =>
    return ⟨← Json.required? Json.asUInt32? version, ← Json.required? Json.asUInt32? parallelism,
      ← Json.required? Json.asText? digest,
      ← Json.required? (Json.asList? PartitionEntry.ofJson?) entries⟩
  | _ => none

/-- The file of a map. -/
def ofMap (m : PartitionMap) : PartitionFile :=
  ⟨currentVersion, m.parallelism, digestOf m.entries, m.entries⟩

/-- The map of a file that was read from a path. -/
def toMap (path : String) (f : PartitionFile) : Except StorageFault PartitionMap :=
  if f.version ≠ currentVersion then .error (.version path f.version.toNat)
  else if digestOf f.entries ≠ f.digest then .error (.digest path)
  else .ok (.ofEntries f.parallelism f.entries)

/-- Reads the content of a file as a map. -/
def decode (path : String) (content : Bytes) : Except StorageFault PartitionMap :=
  match (Json.parse content).bind ofJson? with
  | none => .error .document
  | some f => f.toMap path

end PartitionFile

/-- Stores a map; the result is the digest of its entries. -/
def writePartitionMap (s : Storage) (path : String) (m : PartitionMap) :
    Storage × Except Failure String :=
  let f := PartitionFile.ofMap m
  let r := s.write path f.toJson.pretty
  (r.1, r.2.map (fun _ => f.digest))

/-- Reads a stored map, where `read` gives the contents of files. -/
def readPartitionMap (read : String → Except Failure Bytes) (path : String) :
    Except Failure PartitionMap := do
  (PartitionFile.decode path (← read path)).mapError .storage

end MapReduce
