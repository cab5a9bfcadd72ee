import ClassDocs.Disk
import ClassDocs.JsonValue.Reader
import ClassDocs.Name.Basic
import ClassDocs.Text.Fold
import ClassDocs.Text.Measure

/-!
# Autoload mappings

A project says in its `composer.json` in which directories the classes of which namespaces are
declared, one class a file. With the mapping from `App\` to `src/` the class `App\Models\Book` is
looked for in the file `src/Models/Book.php`. The mapping with the longest prefix comes first.
-/

namespace ClassDocs

/-- A directory for the classes whose names start with a prefix. -/
structure Mapping where
  /-- Empty, or without a backslash in front and with one at its end. -/
  spacePrefix : String
  /-- Relative to the project; empty, or with a slash at its end. -/
  base : String
  /-- For development only. -/
  isDev : Bool
  deriving DecidableEq, Repr

namespace Mapping

open ClassDocs.Text

/-- The namespace of a mapping. -/
def space (m : Mapping) : String := stripTextEnd (· == '\\') m.spacePrefix

/-- A prefix without backslashes in front and, unless it is empty, with one at its end. -/
def normalPrefix (written : String) : String :=
  let name := written.toList.dropWhile (· == '\\')
  .ofList (if name.isEmpty || name.getLast? == some '\\' then name else name ++ ['\\'])

/-- A directory written with slashes and, unless it is empty, with one at its end. -/
def normalBase (written : String) : String :=
  let path := written.toList.map fun c => if c == '\\' then '/' else c
  .ofList (if path.isEmpty || path.getLast? == some '/' then path else path ++ ['/'])

/-- The directories of an entry: one text, or the texts of a list. -/
def basesOf : JsonValue → List String
  | .text path => [path]
  | .list items => items.filterMap JsonValue.text?
  | _ => []

/-- The mappings of one section of a manifest. -/
def ofSection (manifest : JsonValue) (key : String) (isDev : Bool) : List Mapping :=
  let entries := ((manifest.field? key).bind (·.field? "psr-4")).bind JsonValue.entries?
  (entries.getD []).flatMap fun (written, bases) =>
    (basesOf bases).map fun base => ⟨normalPrefix written, normalBase base, isDev⟩

/-- The mappings of a manifest, longest prefix first, else as written. -/
def ofManifest (manifest : JsonValue) : List Mapping :=
  (ofSection manifest "autoload" false ++ ofSection manifest "autoload-dev" true).mergeSort
    fun a b => byteLength b.spacePrefix ≤ byteLength a.spacePrefix

/-- The mappings of a project; none if it has no readable manifest. -/
def ofProject (disk : Disk) (root : String) : List Mapping :=
  match disk.read (Path.join root "composer.json") with
  | .ok text => ((JsonValue.parse? text).map ofManifest).getD []
  | .error _ => []

/-- The mapping of the project's own code: the first with a namespace that is not for development
only, else the first with a namespace. -/
def primary? (mappings : List Mapping) : Option Mapping :=
  let named := mappings.filter (!·.spacePrefix.isEmpty)
  (named.find? (!·.isDev)).or named.head?

/-- The file a class is looked for in, if the mapping covers it. The name has no backslash in
front. -/
def candidate? (m : Mapping) (root name : String) : Option String :=
  (dropPrefix? m.spacePrefix.toList name.toList).map fun rest =>
    Path.join (Path.join root m.base)
      (.ofList (rest.map fun c => if c == '\\' then '/' else c) ++ ".php")

/-- Words that are types and never name a class file. -/
def typeWords : List String :=
  ["self", "static", "parent", "string", "int", "float", "bool", "array", "object", "mixed",
    "void", "never", "null", "true", "false", "callable", "iterable"]

end Mapping

/-- The file that declares a class by the mappings: the first candidate that exists. -/
def locateClass (mappings : List Mapping) (disk : Disk) (root className : String) :
    Option String :=
  let name := Name.unrooted className
  if Mapping.typeWords.contains (Text.lower name) then none
  else (mappings.filterMap (·.candidate? root name)).find? disk.isFile

end ClassDocs
