import ClassDocs.Source.Tree
import ClassDocs.TypeExpr.Reader

/-!
# Native types

A native type is read from the code and written out without blanks and comments. Since the native
notation of types is a part of the one in doc comments, that text is read as a type expression; a
name that is no name in a doc comment leaves the declaration without a type.
-/

namespace ClassDocs.Source

/-- A native type as written. -/
inductive Hint where
  | named (text : String)
  | nullable (inner : Hint)
  | union (left right : Hint)
  | inter (left right : Hint)
  | parens (inner : Hint)
  deriving DecidableEq, Repr

namespace Hint

/-- The text of a native type. -/
def render : Hint → String
  | .named text => text
  | .nullable inner => "?" ++ inner.render
  | .union left right => left.render ++ "|" ++ right.render
  | .inter left right => left.render ++ "&" ++ right.render
  | .parens inner => "(" ++ inner.render ++ ")"

/-- The type expression of a native type. -/
def type? (hint : Hint) : Option TypeExpr := (TypeExpr.parse hint.render).toOption

/-- Whether an `&` in front of these trees joins two types; else it marks a parameter passed by
reference. -/
def joins : List Tree → Bool
  | t :: _ => t.name?.isSome || t.isGroup "("
  | [] => false

mutual

/-- The native type at the start of a list of trees, and what follows it. The first argument bounds
the nesting; twice the number of tokens is enough. -/
def read? : Nat → List Tree → Option (Hint × List Tree)
  | 0, _ => none
  | depth + 1, ts =>
    match readOne? depth ts with
    | none => none
    | some (left, t :: rest) =>
      if t.isSign "|" then (read? depth rest).map fun (right, rest) => (.union left right, rest)
      else if t.isSign "&" && joins rest then
        (read? depth rest).map fun (right, rest) => (.inter left right, rest)
      else some (left, t :: rest)
    | some (left, []) => some (left, [])

/-- A native type that is not a union or intersection at its top. -/
def readOne? : Nat → List Tree → Option (Hint × List Tree)
  | 0, _ => none
  | _, [] => none
  | depth + 1, t :: rest =>
    if t.isSign "?" then (readOne? depth rest).map fun (inner, rest) => (.nullable inner, rest)
    else if t.isGroup "(" then
      match read? depth t.inner with
      | some (inner, _) => some (.parens inner, rest)
      | none => none
    else t.name?.map fun text => (.named text, rest)

end

/-- The native type at the start of a list of trees, if there is one, and what follows it. -/
def take (ts : List Tree) : Option Hint × List Tree :=
  match read? (2 * weightAll ts + 2) ts with
  | some (hint, rest) => (some hint, rest)
  | none => (none, ts)

end Hint

end ClassDocs.Source
