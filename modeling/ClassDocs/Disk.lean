import ClassDocs.Path

/-!
# Directory trees

The files and directories a run sees, as a finite value. A place in the tree is the list of names
that leads to it from the root; a path is followed name by name, so that `x/..` needs `x` to be a
directory.
-/

namespace ClassDocs

/-- What stands at a place of a directory tree. -/
inductive DiskNode where
  | directory
  /-- A file, with its text if its bytes are text. -/
  | file (text : Option String)

/-- A directory tree and the directory that relative paths start from. -/
structure Disk where
  workDir : List String := []
  nodes : List (List String × DiskNode) := []

/-- Why nothing can be read at a path. -/
inductive ReadError where
  /-- There is nothing. -/
  | missing
  /-- It is a directory, or not text, or the path leads through a file. -/
  | unreadable
  deriving DecidableEq

namespace Disk

/-- What stands at a place. The root is a directory. -/
def nodeAt (disk : Disk) (place : List String) : Option DiskNode :=
  if place.isEmpty then some .directory else disk.nodes.lookup place

/-- The parts of a path between its slashes. -/
def partsOf (path : String) : List String := (Text.splitOnChar '/' path.toList).map String.ofList

/-- The place that the parts of a path lead to. All but the last name have to be directories. -/
def follow (disk : Disk) : List String → List String → Except ReadError (List String)
  | place, [] => .ok place
  | place, part :: parts =>
    match disk.nodeAt place with
    | none => .error .missing
    | some (.file _) => .error .unreadable
    | some .directory =>
      if part == "" || part == "." then disk.follow place parts
      else if part == ".." then disk.follow place.dropLast parts
      else disk.follow (place ++ [part]) parts

/-- The place a path leads to. -/
def locate (disk : Disk) (path : String) : Except ReadError (List String) :=
  disk.follow (if Path.isAbsolute path then [] else disk.workDir) (partsOf path)

/-- What stands at a path. -/
def node? (disk : Disk) (path : String) : Option DiskNode :=
  match disk.locate path with
  | .ok place => disk.nodeAt place
  | .error _ => none

/-- Whether a file stands at a path. -/
def isFile (disk : Disk) (path : String) : Bool :=
  match disk.node? path with
  | some (.file _) => true
  | _ => false

/-- The text of the file at a path. -/
def read (disk : Disk) (path : String) : Except ReadError String :=
  match disk.locate path with
  | .error e => .error e
  | .ok place =>
    match disk.nodeAt place with
    | some (.file (some text)) => .ok text
    | some _ => .error .unreadable
    | none => .error .missing

/-- The names and nodes in a directory, in no particular order. -/
def children (disk : Disk) (place : List String) : List (String × DiskNode) :=
  disk.nodes.filterMap fun (other, node) =>
    if other.dropLast == place then other.getLast?.map (·, node) else none

/-- The tree with a node put at a place. -/
def put (disk : Disk) (place : List String) (node : DiskNode) : Disk :=
  { disk with nodes := disk.nodes.filter (fun n => n.1 != place) ++ [(place, node)] }

/-- The tree with directories made so that the parts of a path lead through directories only; none
if a file is in the way. -/
def makeDirs (disk : Disk) : List String → List String → Option (Disk × List String)
  | place, [] => some (disk, place)
  | place, part :: parts =>
    if part == "" || part == "." then disk.makeDirs place parts
    else if part == ".." then disk.makeDirs place.dropLast parts
    else
      let next := place ++ [part]
      match disk.nodeAt next with
      | some .directory => disk.makeDirs next parts
      | some (.file _) => none
      | none => (disk.put next .directory).makeDirs next parts

/-- The tree with a directory at a path, or none if a file is in the way. -/
def makeDir (disk : Disk) (path : String) : Option Disk :=
  (disk.makeDirs (if Path.isAbsolute path then [] else disk.workDir) (partsOf path)).map Prod.fst

/-- The tree with a file at a path, and the directories above it; none if the path leads through a
file or to a directory. -/
def write (disk : Disk) (path : String) (text : Option String) : Option Disk :=
  let parts := partsOf path
  match disk.makeDirs (if Path.isAbsolute path then [] else disk.workDir) parts.dropLast,
    parts.getLast? with
  | some (disk, place), some name =>
    if name == "" || name == "." || name == ".." then none
    else
      match disk.nodeAt (place ++ [name]) with
      | some .directory => none
      | _ => some (disk.put (place ++ [name]) (.file text))
  | _, _ => none

/-- The number of characters in all files. -/
def weight (disk : Disk) : Nat :=
  disk.nodes.foldl (fun n node => match node.2 with
    | .file (some text) => n + text.length
    | _ => n) 0

end Disk

end ClassDocs
