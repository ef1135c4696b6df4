/-
# A folder tree

Files and folders around a working folder, and what paths with `.`, `..`,
repeated, leading and trailing slashes mean in it. A path is looked up step by
step from the working folder, or from the top folder if it starts with a slash,
and every step needs a folder to start from. The folders above the working
folder and the top folder are always there and are empty at first; the top
folder is its own parent.

A file is written by making the folders above it and then the file. A step that
fails leaves the folders that were made before it.

Key definitions: `Disk`, `Disk.resolve`, `Disk.makeFolders`, `Disk.create`.
-/
import MapReduce.Failure
import MapReduce.Storage.NameTree
import MapReduce.Text.Bytes
import MapReduce.Text.Lines

namespace MapReduce

/-- What a path can lead to. -/
inductive DiskEntry where
  | folder
  | file (content : Bytes)
deriving DecidableEq

/-- The names on the way from the working folder to an entry. Each `..` at the
front leads one folder up, and a slash at the front to the top folder. -/
abbrev Position := List String

namespace Position

/-- Whether a position is the working folder or one above it. -/
def isAbove (p : Position) : Bool := p.all (fun name => name == "..")

/-- The top folder. -/
def top : Position := ["/"]

/-- The folder that holds an entry. -/
def parent (p : Position) : Position :=
  if p.isAbove then ".." :: p else if p == top then top else p.dropLast

end Position

/-- Files and folders by position. The folders that are always there are not
listed. -/
structure Disk where
  entries : NameTree DiskEntry

namespace Disk

/-- The empty working folder. -/
def empty : Disk := ⟨NameTree.empty⟩

instance : Inhabited Disk := ⟨empty⟩

/-- What is at a position. -/
def entry? (d : Disk) (p : Position) : Option DiskEntry :=
  if p.isAbove || p == Position.top then some .folder else d.entries.find? p

/-- Puts an entry at a position, or takes it away. -/
def setEntry (d : Disk) (p : Position) (e : Option DiskEntry) : Disk := ⟨d.entries.set p e⟩

/-- The longest name, in bytes. -/
def longestName : Nat := 255

/-- Where a step leads, from a position that must be a folder. -/
def step (d : Disk) (here : Position) (name : String) : Except FileFault Position :=
  match d.entry? here with
  | none => .error .missing
  | some (.file _) => .error .notDirectory
  | some .folder =>
    if name == "" || name == "." then .ok here
    else if name == ".." then .ok here.parent
    else if name == "/" then .ok Position.top
    else if longestName < name.utf8ByteSize then .error .nameTooLong
    else .ok (here ++ [name])

/-- Where steps lead. The last one may lead to nothing. -/
def walk (d : Disk) (names : List String) : Except FileFault Position :=
  names.foldlM d.step []

/-- The longest path, in bytes. -/
def longestPath : Nat := 4095

/-- Refuses a path that cannot be looked up at all. -/
def checkPath (path : String) : Except FileFault Unit := do
  if path.toList.contains (Char.ofNat 0) then throw .zeroInName
  if longestPath < path.utf8ByteSize then throw .nameTooLong
  if path.isEmpty then throw .missing

/-- The steps of a path. A slash at the front is a step to the top folder. -/
def pathSteps (path : String) : List String :=
  match splitAt '/' path with
  | "" :: name :: names => "/" :: name :: names
  | names => names

/-- The entry that a path leads to. -/
def resolve (d : Disk) (path : String) : Except FileFault (Position × DiskEntry) := do
  checkPath path
  let here ← d.walk (pathSteps path)
  match d.entry? here with
  | some e => return (here, e)
  | none => throw .missing

/-- Goes down from a folder and makes each folder that is missing. A file in the
way of folders that are all there already is not a directory; one that is met
where a folder is to be made is there first. -/
def makeFolders (d : Disk) (here : Position) (made : Bool) :
    List String → Disk × Except FileFault Unit
  | [] => (d, .ok ())
  | name :: below =>
    match d.step here name with
    | .error e => (d, .error e)
    | .ok there =>
      match d.entry? there with
      | none => (d.setEntry there (some .folder)).makeFolders there true below
      | some .folder => d.makeFolders there made below
      | some (.file _) => (d, .error (if made || below.isEmpty then .occupied else .notDirectory))

/-- The last step of a path, what comes before it, and whether a slash follows
it. -/
def lastStep (path : String) : Option (List String × String × Bool) :=
  let steps := (pathSteps path).reverse
  match steps.dropWhile (fun p => p == "") with
  | [] => none
  | name :: above => some (above.reverse, name, steps.head? == some "")

/-- Makes a file, or replaces its content. A path that ends in a slash asks for a
folder, whatever the last name is. -/
def create (d : Disk) (path : String) (content : Bytes) : Except FileFault Disk := do
  checkPath path
  match lastStep path with
  | none => throw .missing
  | some (above, name, slash) =>
    let there ← d.step (← d.walk above) (if slash then "." else name)
    if name == "." || slash then throw .isDirectory
    match d.entry? there with
    | some .folder => throw .isDirectory
    | _ => return d.setEntry there (some (.file content))

/-- A path up to its last name, without slashes and dots at the end. -/
def parentPath (path : String) : String :=
  let isFiller (p : String) : Bool := p == "" || p == "."
  let above := ((splitAt '/' path).reverse.dropWhile isFiller).drop 1
  String.intercalate "/" (above.dropWhile isFiller).reverse

/-- Makes the folders above the last name of a path. -/
def makeParents (d : Disk) (path : String) : Disk × Except FileFault Unit :=
  let parent := parentPath path
  if parent.isEmpty then (d, .ok ())
  else match checkPath parent with
    | .error e => (d, .error e)
    | .ok _ => d.makeFolders [] false (pathSteps parent)

/-- Writes a file and makes the folders above it. -/
def write (d : Disk) (path : String) (content : Bytes) : Disk × Except StorageFault Unit :=
  match d.makeParents path with
  | (d', .error e) => (d', .error (.parent e))
  | (d', .ok _) =>
    match d'.create path content with
    | .ok d'' => (d'', .ok ())
    | .error e => (d', .error (.create e))

/-- The content of a file. -/
def read (d : Disk) (path : String) : Except StorageFault Bytes :=
  match d.resolve path with
  | .ok (_, .file content) => .ok content
  | .ok (_, .folder) => .error (.read path .isDirectory)
  | .error e => .error (.read path e)

/-- Whether a path leads to a file. -/
def isFile (d : Disk) (path : String) : Bool :=
  match d.resolve path with
  | .ok (_, .file _) => true
  | _ => false

/-- Deletes a file; a path that leads to nothing is left alone. -/
def delete (d : Disk) (path : String) : Except StorageFault Disk :=
  match d.resolve path with
  | .ok (here, .file _) => .ok (d.setEntry here none)
  | .ok (_, .folder) => .error (.delete .isDirectory)
  | .error _ => .ok d

end Disk

end MapReduce
