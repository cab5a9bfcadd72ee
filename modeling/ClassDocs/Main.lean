import ClassDocs.Command.Run

/-!
# The program

The outermost layer: it reads the files a run may look at into a tree, lets the command do its work
on that tree, and carries out what came of it.
-/

namespace ClassDocs

/-- The places above a directory and the directory itself, from the root. -/
def placesTo (place : List String) : List (List String) :=
  (List.range (place.length + 1)).map place.take

/-- The path of a place. -/
def pathOf (place : List String) : String := "/" ++ "/".intercalate place

/-- The text of a file, if it is text. -/
def readText (path : String) : IO (Option String) := do
  try
    return String.fromUTF8? (← IO.FS.readBinFile path)
  catch _ => return none

/-- The tree with a file of the disk, if it is there. -/
def addFile (disk : Disk) (path : String) : IO Disk := do
  try
    let kind := (← (← IO.FS.realPath path).metadata).type
    match kind with
    | .dir => return (disk.makeDir path).getD disk
    | _ => return (disk.write path (← readText path)).getD disk
  catch _ => return disk

/-- The tree with everything at or below a path of the disk. Links to directories are not
followed. -/
partial def addTree (disk : Disk) (path : String) : IO Disk := do
  try
    let entries ← (← IO.FS.realPath path).readDir
    let mut disk := (disk.makeDir path).getD disk
    for entry in entries do
      let below := Path.join path entry.fileName
      match (← entry.path.metadata).type with
      | .dir => disk ← addTree disk below
      | .file => disk := (disk.write below (← readText below)).getD disk
      | _ => disk := disk
    return disk
  catch _ => addFile disk path

/-- The tree with everything at or below a path of the disk, unless the path is there already. -/
def addUnseen (disk : Disk) (path : String) : IO Disk :=
  if (disk.node? path).isSome then return disk else addTree disk path

/-- The tree with the ignore files of a directory. -/
def addIgnoreFiles (disk : Disk) (place : List String) : IO Disk :=
  [".ignore", ".gitignore", ".git", ".git/info/exclude"].foldlM
    (fun disk name => addFile disk (Path.join (pathOf place) name)) disk

/-- The user's configuration file, if a home directory is known. -/
def userFile : IO (Option String) := do
  let home ← IO.getEnv "HOME"
  let directory := match ← IO.getEnv "XDG_CONFIG_HOME" with
    | some path => if Path.isAbsolute path then some path else home.map (Path.join · ".config")
    | none => home.map (Path.join · ".config")
  return directory.map (Path.join · "phpantom-docs/config.toml")

/-- The tree of what a run on a project may look at: the project, the directories of its sources
and mappings, the user's configuration and the ignore files above the sources. -/
def readDisk (a : Command.Arguments) (user : Option String) : IO Disk := do
  let workDir := (Disk.partsOf (← IO.currentDir).toString).filter (· != "")
  let root := a.project.getD "."
  let empty : Disk := { workDir }
  let disk := (empty.makeDir (pathOf workDir)).getD empty
  let disk ← match user with
    | some path => addFile disk path
    | none => pure disk
  let disk ← addTree disk root
  let sources : List String := match Config.load disk user root a.settings with
    | .ok c => c.sourceRoot :: c.mappings.map fun m => Path.join root m.base
    | .error _ => []
  let disk ← sources.foldlM addUnseen disk
  let places := sources.filterMap fun path => (disk.locate path).toOption
  (places.flatMap placesTo).eraseDups.foldlM addIgnoreFiles disk

/-- Write a file that a run has put into its tree. -/
def writeBack (disk : Disk) (path : String) : IO Unit := do
  match disk.read path with
  | .error _ => return ()
  | .ok text =>
    let directory := (Disk.partsOf path).dropLast
    if !directory.isEmpty then IO.FS.createDirAll ("/".intercalate directory ++ "/")
    IO.FS.writeFile path text

end ClassDocs

open ClassDocs in
/-- Run the command on the arguments given. -/
def main (arguments : List String) : IO UInt32 := do
  let user ← userFile
  let disk ← match Command.parse? arguments with
    | some (.run a) => readDisk a user
    | _ => pure {}
  let outcome := Command.run disk user arguments
  for path in outcome.written do
    writeBack outcome.disk path
  IO.print outcome.stdout
  for line in outcome.stderr do
    IO.eprintln line
  if outcome.exitCode == 2 then
    IO.eprintln "error: invalid arguments; try '--help'"
  return UInt32.ofNat outcome.exitCode
