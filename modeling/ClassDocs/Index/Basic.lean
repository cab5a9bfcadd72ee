import ClassDocs.Autoload
import ClassDocs.Failure
import ClassDocs.Source.Declaration

/-!
# The class index

All declarations known so far, by name. Files are read with a parser and added one by one, and
adding a file again replaces what it contributed before. With a project at hand a class that is not
known yet is looked for through the project's autoload mappings, so that looking a class up may add
a file.

A lookup is a function on the index. The index also remembers finished answers: the flattened
classes, until the next file is added, and the names no file was found for.
-/

namespace ClassDocs

/-- A project that unknown classes are looked for in. -/
structure Project where
  root : String
  mappings : List Mapping
  disk : Disk

/-- The declarations known so far. -/
structure Index where
  /-- What files are read with. -/
  parser : Source.Parser := Source.reader
  /-- Declarations by name in lower case. -/
  classes : Table ClassDecl := {}
  /-- The names of the classes declared in each file. -/
  files : Table (List String) := {}
  /-- Classes with the members of their traits and ancestors, by name in lower case. -/
  flattened : Table ClassDecl := {}
  /-- Names in lower case for which the project has no file. -/
  missing : List String := []
  project : Option Project := none

/-- A question to the index. Its answer may leave the index with more classes and remembered
answers. -/
abbrev Lookup := StateM Index

namespace Index

instance : Inhabited Index := ⟨{}⟩

/-- The key of a class name: in lower case, without a leading backslash. -/
def key (className : String) : String := Text.lower (Name.unrooted className)

/-- The classes without those of some names. -/
def dropClasses (classes : Table ClassDecl) (names : List String) : Table ClassDecl :=
  names.foldl (fun t name => t.erase (key name)) classes

/-- The classes with some declarations put in; the last one of a name counts. -/
def putClasses (classes : Table ClassDecl) (decls : List ClassDecl) : Table ClassDecl :=
  decls.foldl (fun t c => t.insert (key c.name) c) classes

/-- The index with the declarations of a file in place of those it had before. -/
def addDecls (ix : Index) (file : String) (decls : List ClassDecl) : Index :=
  { ix with
    classes := putClasses (dropClasses ix.classes ((ix.files.find? file).getD [])) decls
    files := ix.files.insert file (decls.map (·.name))
    flattened := {}
    missing := [] }

/-- The index with a file of this content. -/
def add (ix : Index) (file content : String) : Index :=
  ix.addDecls file (ix.parser.classes file content)

@[simp]
theorem parser_add (ix : Index) (path text : String) : (ix.add path text).parser = ix.parser := rfl

@[simp]
theorem files_add (ix : Index) (path text : String) :
    (ix.add path text).files = ix.files.insert path ((ix.parser.classes path text).map (·.name)) :=
  rfl

@[simp]
theorem missing_add (ix : Index) (path text : String) : (ix.add path text).missing = [] := rfl

@[simp]
theorem project_add (ix : Index) (path text : String) : (ix.add path text).project = ix.project :=
  rfl

/-- The index with the file at a path of a tree, and the names of its classes. -/
def load (ix : Index) (disk : Disk) (path : String) : Except Failure (List String × Index) :=
  match disk.read path with
  | .ok content =>
    let decls := ix.parser.classes path content
    .ok (decls.map (·.name), ix.addDecls path decls)
  | .error _ => .error (.io path)

/-- The names of all classes, in order. -/
def classNames (ix : Index) : List String := (ix.classes.values.map (·.name)).mergeSort (· ≤ ·)

/-- The index after looking for the file of an unknown class in the project. -/
def autoload (ix : Index) (className : String) : Index :=
  match ix.project with
  | none => ix
  | some project =>
    if project.mappings.isEmpty || ix.missing.contains (key className) then ix
    else
      let absent := { ix with missing := key className :: ix.missing }
      match locateClass project.mappings project.disk project.root className with
      | none => absent
      | some path =>
        match ix.load project.disk path with
        | .ok (_, loaded) => loaded
        | .error _ => absent

/-- A class as declared, without members of traits and ancestors. -/
def own (className : String) : Lookup (Option ClassDecl) := fun ix =>
  match ix.classes.find? (key className) with
  | some c => (some c, ix)
  | none =>
    let ix := ix.autoload className
    (ix.classes.find? (key className), ix)

/-- More than the number of classes that can ever be known: those known now, and at most one for
each character of the project's files. -/
def bound (ix : Index) : Nat :=
  ix.classes.size + ((ix.project.map fun p => p.disk.weight).getD 0) + 1

end Index

end ClassDocs
