import ClassDocs.Disk
import ClassDocs.Ignore.Rule
import ClassDocs.Text.Fold
import ClassDocs.TypeExpr.Printer

/-!
# Source files of a project

All files with the extension `php` below a directory, but for hidden ones and those that ignore
files rule out. Rules of `.ignore` files always apply, those of `.gitignore` files and of a
repository's exclude file only within a repository. Of several ignore files the nearest with a say
on a path decides, also those above the directory where the search starts.
-/

namespace ClassDocs

namespace Ignore

/-- The ignore files of one directory. -/
structure Level where
  place : List String
  rules : List Rule
  gitRules : List Rule
  excludeRules : List Rule
  /-- Whether a repository starts here. -/
  hasGit : Bool

/-- The rules of the file at a place. -/
def rulesAt (disk : Disk) (place : List String) : List Rule :=
  match disk.nodeAt place with
  | some (.file (some content)) => rulesOf content
  | _ => []

/-- The ignore files of a directory. -/
def levelAt (disk : Disk) (place : List String) : Level :=
  { place
    rules := rulesAt disk (place ++ [".ignore"])
    gitRules := rulesAt disk (place ++ [".gitignore"])
    excludeRules := rulesAt disk (place ++ [".git", "info", "exclude"])
    hasGit := (disk.nodeAt (place ++ [".git"])).isSome }

/-- The first verdict of some levels, nearest first, on an entry. -/
def firstVerdict? (rules : Level → List Rule) (entry : List String) (isDir : Bool) :
    List Level → Option Verdict
  | [] => none
  | level :: levels =>
    let path := TypeExpr.joinTexts "/" (entry.drop level.place.length)
    (verdict? (rules level) path isDir).or (firstVerdict? rules entry isDir levels)

/-- The levels of the repository that the nearest level belongs to. -/
def repositoryLevels : List Level → List Level
  | [] => []
  | level :: levels => level :: (if level.hasGit then [] else repositoryLevels levels)

/-- What all ignore files say about an entry. -/
def decide? (levels : List Level) (entry : List String) (isDir : Bool) : Option Verdict :=
  let git := if levels.any (·.hasGit) then repositoryLevels levels else []
  ((firstVerdict? (·.rules) entry isDir levels).or (firstVerdict? (·.gitRules) entry isDir git)).or
    (firstVerdict? (·.excludeRules) entry isDir git)

/-- Whether an entry is passed over. A hidden one is, unless a rule keeps it. -/
def isSkipped (levels : List Level) (entry : List String) (isDir : Bool) : Bool :=
  match decide? levels entry isDir with
  | some .ignored => true
  | some .kept => false
  | none => entry.getLast?.any fun name => name.toList.head? == some '.'

/-- The levels of a place and of all directories above it, nearest first. -/
def levelsTo (disk : Disk) (place : List String) : List Level :=
  ((List.range (place.length + 1)).map fun n => levelAt disk (place.take n)).reverse

end Ignore

namespace Disk

open Ignore

/-- The paths of all files in a directory that are not passed over. The first argument bounds the
depth. -/
def walk (disk : Disk) : Nat → List Level → List String → String → List String
  | 0, _, _, _ => []
  | depth + 1, levels, place, path =>
    (disk.children place).flatMap fun (name, node) =>
      let entry := place ++ [name]
      match node with
      | .file _ => if isSkipped levels entry false then [] else [Path.join path name]
      | .directory =>
        if isSkipped levels entry true then []
        else disk.walk depth (levelAt disk entry :: levels) entry (Path.join path name)

/-- The files at or below a path that are not passed over. -/
def filesAt (disk : Disk) (root : String) : List String :=
  match disk.locate root with
  | .error _ => []
  | .ok place =>
    match disk.nodeAt place with
    | none => []
    | some (.file _) => [root]
    | some .directory => disk.walk (disk.nodes.length + 1) (levelsTo disk place) place root

/-- Whether the extension of a path is `php`, in any letter case. -/
def isSource (path : String) : Bool := (Path.extension? path).any (Text.sameName · "php")

/-- The source files at or below a path, in order of paths. -/
def sourceFiles (disk : Disk) (root : String) : List String :=
  ((disk.filesAt root).filter isSource).mergeSort fun a b =>
    Path.le (Path.components a) (Path.components b)

end Disk

end ClassDocs
