import ClassDocs.Name.Scope
import ClassDocs.Source.Tree

/-!
# Imports

`use` statements: single, with commas, with aliases, in groups, and of functions and constants.
Only imports of classes matter for names of types; of several imports under one alias the last one
counts.
-/

namespace ClassDocs.Source

/-- Imports that are not of classes. -/
inductive ImportKind where
  | function
  | const
  deriving DecidableEq, Repr

/-- One imported name. -/
structure UseItem where
  kind : Option ImportKind := none
  name : String
  /-- The alias, if one is given. -/
  given : Option String := none

/-- A `use` statement. In a group the names are relative to `base`. -/
structure UseStatement where
  kind : Option ImportKind := none
  base : Option String := none
  items : List UseItem

/-- The full name of an imported name. -/
def UseItem.fullName (base : Option String) (item : UseItem) : String :=
  let name := Name.unrooted item.name
  match base with
  | some base => Name.bare base ++ "\\" ++ name
  | none => name

/-- The alias of an imported name and its full name. The alias is the last segment unless one is
given. -/
def UseItem.entry (base : Option String) (item : UseItem) : String × String :=
  let full := item.fullName base
  (Text.lower (item.given.getD (Name.short full)), full)

/-- The class imports of a statement. -/
def UseStatement.entries (use : UseStatement) : List (String × String) :=
  if use.kind.isSome then []
  else (use.items.filter (·.kind.isNone)).map (·.entry use.base)

/-- The table of the class imports of several statements. -/
def importTable (uses : List UseStatement) : Table String := .ofList (uses.flatMap (·.entries))

/-- The kind of import that a leading keyword gives, and what follows it. -/
def takeImportKind : List Tree → Option ImportKind × List Tree
  | t :: u :: rest =>
    if u.name?.isSome && t.isWord "function" then (some .function, u :: rest)
    else if u.name?.isSome && t.isWord "const" then (some .const, u :: rest)
    else (none, t :: u :: rest)
  | ts => (none, ts)

/-- One imported name, with its kind and alias. -/
def readUseItem? (ts : List Tree) : Option UseItem :=
  let (kind, ts) := takeImportKind ts
  match ts with
  | t :: rest => t.name?.map fun name =>
    let given := match rest with
      | as :: u :: _ => if as.isWord "as" then u.name? else none
      | _ => none
    ⟨kind, name, given⟩
  | [] => none

/-- A `use` statement, from what follows the word `use`. -/
def readUse (ts : List Tree) : UseStatement :=
  let (kind, ts) := takeImportKind ts
  let ts := ts.filter fun t => !(t.isSign ";" || t.isSign "?>")
  match ts with
  | [base, sep, group] =>
    if sep.isSign "\\" && group.isBlock then
      ⟨kind, base.name?, (splitCommas group.inner).filterMap readUseItem?⟩
    else ⟨kind, none, (splitCommas ts).filterMap readUseItem?⟩
  | _ => ⟨kind, none, (splitCommas ts).filterMap readUseItem?⟩

end ClassDocs.Source
