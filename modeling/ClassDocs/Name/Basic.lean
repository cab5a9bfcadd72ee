import ClassDocs.Text.Blank
import ClassDocs.Text.Fold

/-!
# Qualified names

A class name is a list of segments written with backslashes between them. Whether a class belongs
to a namespace is a question about segments, not about text: `App` holds `App\Foo` and not
`Application\Foo`, and a class is not in the namespace that has its own name.
-/

namespace ClassDocs.Name

open ClassDocs.Text

/-- The segments of a qualified name. -/
def segments (name : String) : List String := (splitOnChar '\\' name.toList).map String.ofList

/-- The last segment of a qualified name. -/
def short (name : String) : String := (segments name).getLast?.getD name

/-- The part of a qualified name before its last backslash. -/
def space? (name : String) : Option String :=
  match (splitOnChar '\\' name.toList).dropLast with
  | [] => none
  | parts => some (.ofList (['\\'].intercalate parts))

/-- The name without one leading backslash. -/
def unrooted (name : String) : String :=
  match name.toList with
  | '\\' :: rest => .ofList rest
  | _ => name

/-- The name without leading and trailing backslashes. -/
def bare (name : String) : String := stripText (· == '\\') name

/-- The name without any leading backslashes. -/
def withoutRoot (name : String) : String := .ofList (name.toList.dropWhile (· == '\\'))

/-- What is left of a list of characters after a leading part, compared without regard to letter
case. -/
def dropFolded? : List Char → List Char → Option (List Char)
  | [], cs => some cs
  | _ :: _, [] => none
  | p :: ps, c :: cs => if p.toLower == c.toLower then dropFolded? ps cs else none

/-- The part of a name below a namespace: what follows the namespace and a backslash. -/
def below? (space name : String) : Option String :=
  match dropFolded? space.toList name.toList with
  | some ('\\' :: rest) => some (.ofList rest)
  | _ => none

/-- Whether a class lives in a namespace or in a namespace below it. The empty namespace holds
all. -/
def inSpace (name space : String) : Bool :=
  let space := bare space
  space.isEmpty || (below? space name).isSome

end ClassDocs.Name
