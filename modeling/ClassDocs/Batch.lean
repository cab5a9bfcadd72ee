import ClassDocs.Builder
import ClassDocs.JsonValue.Printer
import ClassDocs.View.Json

/-!
# Documenting many classes

A batch builds a view for each of a list of classes, each with a builder of its own on the shared
index. Its report says what came of each class, in order of names. A report is written as one page
for each view and an index page; the place of a page follows the class name below the
root namespace.
-/

namespace ClassDocs

/-- What came of a batch, by class name and in order of names. -/
structure Report where
  views : List (String × ClassView)
  failures : List (String × Failure)
  /-- The issues of the classes that have some. -/
  issues : List (String × List Issue)

/-- What came of one class. -/
abbrev Outcome := Except Failure (ClassView × List Issue)

/-- The classes that get a page: those of the root namespace that are not excluded. -/
def documentedClasses (ix : Index) (context : LinkContext) : List String :=
  ix.classNames.filter fun name => context.isLocal name && !context.isExcluded name

namespace Report

/-- Entries in order of names; of two with one name the last counts. -/
def inOrder {α : Type} (entries : List (String × α)) : List (String × α) :=
  (Table.ofList entries).sorted

/-- The report of some outcomes. -/
def ofOutcomes (outcomes : List (String × Outcome)) : Report :=
  { views := inOrder (outcomes.filterMap fun
      | (name, .ok (view, _)) => some (name, view)
      | (_, .error _) => none)
    failures := inOrder (outcomes.filterMap fun
      | (_, .ok _) => none
      | (name, .error failure) => some (name, failure))
    issues := inOrder (outcomes.filterMap fun
      | (name, .ok (_, issue :: more)) => some (name, issue :: more)
      | _ => none) }

/-- The outcome of one class, with its name. -/
def outcomeOf (context : LinkContext) (name : String) : Lookup (String × Outcome) := do
  return (name, ← Builder.buildOnce context name)

/-- The report on some classes, built one after another. -/
def run (context : LinkContext) (classes : List String) : Lookup Report := do
  return ofOutcomes (← classes.mapM (outcomeOf context))

/-- Whether no class failed. -/
def isSuccess (r : Report) : Bool := r.failures.isEmpty

/-- The short names of the classes by namespace, in order. The global namespace is the empty
text. -/
def spaces (r : Report) : List (String × List String) :=
  (r.views.foldl (fun (t : Table (List String)) (_, view) =>
    let space := view.space?.getD ""
    t.insert space ((t.find? space).getD [] ++ [view.shortName])) {}).sorted

/-- The file of a class, relative to the output directory. -/
def viewPath (className rootSpace : String) : String :=
  let root := Name.bare rootSpace
  let relative := if root.isEmpty then className else (Name.below? root className).getD className
  Path.withExtension ((Name.segments relative).foldl Path.join "") "json"

/-- The index page. -/
def indexPage (r : Report) : JsonValue :=
  .object [("namespaces", .object (r.spaces.map fun (space, names) => (space, .ofTexts names))),
    ("failures", .object (r.failures.map fun (name, failure) => (name, .text failure.message)))]

/-- All pages with their files: the views and then the index. -/
def pages (r : Report) (directory rootSpace : String) : List (String × JsonValue) :=
  r.views.map (fun (name, view) => (Path.join directory (viewPath name rootSpace), view.toJson)) ++
    [(Path.join directory "index.json", r.indexPage)]

end Report

/-- What came of writing pages. -/
structure Writing where
  /-- The files written, in order. -/
  written : List String
  /-- The failure that ended the writing, if any. -/
  failure? : Option Failure
  /-- The tree afterwards. -/
  disk : Disk

/-- The files written, or the failure to write one. -/
def Writing.result (w : Writing) : Except Failure (List String) :=
  match w.failure? with
  | some failure => .error failure
  | none => .ok w.written

/-- Pages written one after another, up to the first that cannot be. -/
def writePages (disk : Disk) : List (String × JsonValue) → Writing
  | [] => ⟨[], none, disk⟩
  | (path, page) :: pages =>
    match disk.write path (some page.render) with
    | none => ⟨[], some (.io path), disk⟩
    | some disk =>
      let rest := writePages disk pages
      { rest with written := path :: rest.written }

end ClassDocs
