/-
# Storage

Where files are kept: in memory, where a path is only a name, or in a folder
tree.

Key definitions: `Storage`, `Storage.write`, `Storage.read`, `Storage.delete`.
-/
import MapReduce.Storage.Disk

namespace MapReduce

/-- Files in memory, by name. -/
abbrev FileTable := OrderedMap String (Ord.compare : String → String → Ordering) Bytes

/-- Where files are kept. -/
inductive Storage where
  | memory (files : FileTable)
  | disk (tree : Disk)

namespace Storage

/-- An empty storage in memory. -/
def inMemory : Storage := .memory OrderedMap.empty

/-- An empty folder. -/
def onDisk : Storage := .disk Disk.empty

/-- Writes a file. Even if that fails, folders may have been made. -/
def write (s : Storage) (path : String) (content : Bytes) : Storage × Except Failure Unit :=
  match s with
  | .memory files => (.memory (files.insert path content), .ok ())
  | .disk tree =>
    let r := tree.write path content
    (.disk r.1, r.2.mapError .storage)

/-- The content of a file. -/
def read (s : Storage) (path : String) : Except Failure Bytes :=
  match s with
  | .memory files =>
    match files.find? path with
    | some content => .ok content
    | none => .error (.storage (.notFound path))
  | .disk tree => (tree.read path).mapError .storage

/-- Whether there is a file. -/
def contains (s : Storage) (path : String) : Bool :=
  match s with
  | .memory files => files.contains path
  | .disk tree => tree.isFile path

/-- Deletes a file, if there is one. -/
def delete (s : Storage) (path : String) : Except Failure Storage :=
  match s with
  | .memory files => .ok (.memory (files.erase path))
  | .disk tree => ((tree.delete path).map .disk).mapError .storage

/-- The number of files in memory. -/
def memorySize : Storage → Nat
  | .memory files => files.size
  | .disk _ => 0

end Storage

end MapReduce
