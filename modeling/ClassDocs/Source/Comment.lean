import ClassDocs.Source.Token

/-!
# Comments and initializers of a declaration

The doc comment of a declaration is the nearest one before it, with nothing but white space and
other comments in between. Initial values are kept as source text.
-/

namespace ClassDocs.Source

open ClassDocs.Text

/-- The nearest doc comment in a list of comments, last first. Only white space may stand between a
comment and the offset reached so far; a comment that is not a doc comment is stepped over. -/
def nearestDoc (content : List Char) : Nat → List Comment → Option String
  | _, [] => none
  | reached, c :: cs =>
    if (slice c.stop reached content).all isAsciiBlank then
      if c.isDoc then some c.text else nearestDoc content c.start cs
    else none

/-- The doc comment of the declaration that starts at byte offset `start`. -/
def docblockFor (content : List Char) (comments : List Comment) (start : Nat) : Option String :=
  nearestDoc content start (comments.filter (·.start < start)).reverse

/-- The text after the first equals sign. -/
def afterEquals : List Char → Option (List Char)
  | [] => none
  | c :: cs => if c == '=' then some cs else afterEquals cs

/-- The initializer in the text of a declaration such as `NAME = 42`: what follows the first equals
sign, without white space around it and without semicolons at its end. -/
def initializer (text : List Char) : Option String :=
  match afterEquals text with
  | none => none
  | some value =>
    match trimEnd (dropEndWhile (· == ';') (trim value)) with
    | [] => none
    | value => some (.ofList value)

/-- The default value in the text of a parameter from its equals sign on. -/
def defaultValue (text : List Char) : Option String :=
  match trim ((trimStart text).dropWhile (· == '=')) with
  | [] => none
  | value => some (.ofList value)

end ClassDocs.Source
