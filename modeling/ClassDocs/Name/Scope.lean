import ClassDocs.Name.Basic
import ClassDocs.Table

/-!
# Name scopes

A class name in source text means a class only together with the namespace and the imports in
force where it is written.
-/

namespace ClassDocs

/-- The namespace and the imports in force at a place of a source file. -/
structure Scope where
  /-- The enclosing namespace, if any. -/
  space : Option String := none
  /-- Full names by alias; aliases are in lower case. -/
  imports : Table String := {}

instance : Inhabited Scope := ⟨{}⟩

namespace Scope

/-- The first segment of a name, and the rest if there is more than one. -/
def splitFirst (name : String) : String × Option String :=
  let chars := name.toList
  match chars.dropWhile (· != '\\') with
  | _ :: rest => (.ofList (chars.takeWhile (· != '\\')), some (.ofList rest))
  | [] => (name, none)

/-- The full name of a class written in this scope. A leading backslash makes a name full; else
an import of its first segment replaces that segment; else the enclosing namespace goes in
front. -/
def resolve (scope : Scope) (written : String) : String :=
  match written.toList with
  | '\\' :: rest => .ofList rest
  | _ =>
    let (first, rest) := splitFirst written
    match scope.imports.find? (Text.lower first), rest with
    | some full, some rest => full ++ "\\" ++ rest
    | some full, none => full
    | none, _ =>
      match scope.space with
      | some space => space ++ "\\" ++ written
      | none => written

end Scope

end ClassDocs
