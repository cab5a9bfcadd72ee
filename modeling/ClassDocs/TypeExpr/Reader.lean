import ClassDocs.Text.Fold
import ClassDocs.TypeExpr.Basic
import ClassDocs.TypeExpr.Lexer

/-!
# Reading a type

A recursive descent over a text: a union of intersections of types with `[]` after them. A reader
looks one or two tokens ahead, at the key of a field three, always with a copy of its lexer. It
takes a token with `bump`, which also notes where the token ends, so that a type ends behind the
last token that was taken.

Every reader carries a bound on the depth of its calls. Between two calls of the reader of unions
at the same place there are at most seven others, so eight times the number of characters is always
enough.
-/

namespace ClassDocs.TypeExpr

open ClassDocs.Text

/-- A reader of types at some place of a text. -/
structure Parser where
  lexer : Lexer
  /-- The byte offset behind the last token that was taken. -/
  consumed : Nat

/-- A step of reading, which takes tokens or fails. -/
abbrev Parsing := StateT Parser (Except TypeError)

/-- The type a number token stands for. -/
def numberLiteral (text : String) : TypeExpr :=
  if text.toList.contains '.' then .literal (.float text) else .literal (.int text)

/-- The tokens a key may be. -/
def Token.isKey : Token → Bool
  | .ident _ | .quoted _ | .number _ => true
  | _ => false

/-- The key that a token spells. Quotes are dropped at both ends. -/
def Token.key : Token → String
  | .quoted text => stripText (fun c => c == '\'' || c == '"') text
  | token => token.text

namespace Parser

/-! ## Looking ahead -/

/-- The next token. -/
def peek (p : Parser) : Option Token := p.lexer.next?.map (·.1.token)

/-- The token after the next one. -/
def peekSecond (p : Parser) : Option Token := do
  let (_, ahead) ← p.lexer.next?
  let (second, _) ← ahead.next?
  return second.token

/-- The error that the next token is not the one wanted. -/
def unexpected (p : Parser) : TypeError :=
  match p.lexer.next? with
  | some (found, _) => .unexpected found.token.text found.start
  | none => .unexpectedEnd

/-- Whether the next token is the name `word` in any letter case. -/
def atWord (word : String) (p : Parser) : Bool :=
  match p.peek with
  | some (.ident text) => sameName text word
  | _ => false

/-- Whether an `&` that is next joins two types. Before a variable, before `...` and at the end it
is the mark of a parameter passed by reference. -/
def atIntersection (p : Parser) : Bool :=
  p.peek == some (.punct '&') &&
    match p.peekSecond with
    | some (.variable _) | some .ellipsis | none => false
    | some _ => true

/-- Whether `[]` is next. -/
def atBrackets (p : Parser) : Bool :=
  p.peek == some (.punct '[') && p.peekSecond == some (.punct ']')

/-- Whether the subject of a conditional type is next: a variable with `is` after it. -/
def atSubject (p : Parser) : Bool :=
  match p.peek, p.peekSecond with
  | some (.variable _), some (.ident text) => sameName text "is"
  | _, _ => false

/-- Whether a `covariant` or `contravariant` that is next stands in front of a type parameter, and
is not the parameter itself. -/
def atVariance (p : Parser) : Bool :=
  match p.peek with
  | some (.ident text) => (text == "covariant" || text == "contravariant") &&
      !(p.peekSecond == some (.punct ',') || p.peekSecond == some (.punct '>'))
  | _ => false

/-- Whether `:` comes behind the next token, with one token between them at most. A probe goes on
from the lexer. -/
def probe (p : Parser) : Option Bool := do
  let (_, probe) ← p.lexer.next?
  let (mark, probe) ← probe.next?
  if mark.token == Token.punct ':' then return true
  let (third, _) ← probe.next?
  return third.token == Token.punct ':'

/-- Whether the key of a shape field is next. -/
def atKey (p : Parser) : Bool :=
  p.peek.any Token.isKey &&
    (p.peekSecond == some (.punct ':') || p.peekSecond == some (.punct '?')) &&
      p.probe == some true

/-! ## Taking tokens -/

/-- Fail at the next token. -/
def fail {α : Type} : Parsing α := do throw (← get).unexpected

/-- Take the next token. -/
def bump : Parsing Token := fun p =>
  match p.lexer.next? with
  | some (taken, lexer) => .ok (taken.token, { lexer, consumed := taken.stop })
  | none => .error .unexpectedEnd

/-- Take the next token if the condition holds before it. -/
def skipIf (cond : Parser → Bool) : Parsing Unit := do
  if cond (← get) then
    let _ ← bump

/-- Take the character `c` if it is next, and say whether it was. -/
def eat (c : Char) : Parsing Bool := do
  if (← get).peek == some (.punct c) then
    let _ ← bump
    return true
  else return false

/-- Take the character `c`, which has to be next. -/
def expect (c : Char) : Parsing Unit := do
  if ← eat c then return ()
  else fail

/-- Put an array type around `t` for each `[]` that follows. -/
def brackets : Nat → TypeExpr → Parsing TypeExpr
  | 0, _ => fail
  | depth + 1, t => do
    if (← get).atBrackets then
      let _ ← bump
      let _ ← bump
      brackets depth (.array t)
    else return t

/-- Whether a variable is next. -/
def atVariable (p : Parser) : Bool := p.peek matches some (.variable _)

/-- Skip what may follow the type of a callable's parameter: `&`, `...`, the variable and `=`. -/
def parameterMarks : Parsing Unit := do
  let _ ← eat '&'
  skipIf (·.peek == some .ellipsis)
  skipIf atVariable
  let _ ← eat '='

mutual

/-- A union, or the one intersection it consists of. -/
def union : Nat → Parsing TypeExpr
  | 0 => fail
  | depth + 1 => do
    let first ← intersection depth
    if (← get).peek == some (.punct '|') then
      let more ← alternatives depth
      return .union (first :: more)
    else return first

/-- The members of a union after the first, each behind a `|`. -/
def alternatives : Nat → Parsing (List TypeExpr)
  | 0 => fail
  | depth + 1 => do
    if ← eat '|' then
      let member ← intersection depth
      let more ← alternatives depth
      return member :: more
    else return []

/-- An intersection, or the one type it consists of. -/
def intersection : Nat → Parsing TypeExpr
  | 0 => fail
  | depth + 1 => do
    let first ← suffixed depth
    let more ← conjuncts depth
    return if more.isEmpty then first else .inter (first :: more)

/-- The members of an intersection after the first, each behind an `&`. -/
def conjuncts : Nat → Parsing (List TypeExpr)
  | 0 => fail
  | depth + 1 => do
    if (← get).atIntersection then
      let _ ← bump
      let member ← suffixed depth
      let more ← conjuncts depth
      return member :: more
    else return []

/-- A type with any number of `[]` after it. -/
def suffixed : Nat → Parsing TypeExpr
  | 0 => fail
  | depth + 1 => do
    let t ← atom depth
    brackets depth t

/-- A type that is not built with `|`, `&` or `[]` at its top. `*` stands for `mixed`. -/
def atom : Nat → Parsing TypeExpr
  | 0 => fail
  | depth + 1 => do
    match (← get).peek with
    | some (.punct '?') =>
      let _ ← bump
      let inner ← suffixed depth
      return .nullable inner
    | some (.punct '(') =>
      let _ ← bump
      parenthesized depth
    | some (.quoted text) =>
      let _ ← bump
      return .literal (.text text)
    | some (.number text) =>
      let _ ← bump
      return numberLiteral text
    | some (.variable "$this") =>
      let _ ← bump
      return .name "$this"
    | some (.punct '*') =>
      let _ ← bump
      return .name "mixed"
    | some (.ident text) =>
      let _ ← bump
      named depth text
    | some _ => fail
    | none => throw .unexpectedEnd

/-- What follows a name: type parameters, the fields of a shape, a callable signature or
nothing. -/
def named : Nat → String → Parsing TypeExpr
  | 0, _ => fail
  | depth + 1, base => do
    if (← get).peek == some (.punct '<') then
      let _ ← bump
      let params ← genericParams depth
      return .generic base params
    else if (← get).peek == some (.punct '\x7b') && shapeBases.contains (lower base) then
      let _ ← bump
      let fields ← shapeFields depth
      return .shape base fields
    else if (← get).peek == some (.punct '(') && callableBases.contains (lower base) then
      let _ ← bump
      let params ← callableParams depth
      if ← eat ':' then
        let result ← suffixed depth
        return .callable base params (some result)
      else return .callable base params none
    else return .name base

/-- What follows an opening parenthesis: a conditional type or a type and `)`. -/
def parenthesized : Nat → Parsing TypeExpr
  | 0 => fail
  | depth + 1 => do
    if (← get).atSubject then
      let _ ← bump
      conditionalTail depth
    else
      let inner ← union depth
      if (← get).atWord "is" then conditionalTail depth
      else
        expect ')'
        return inner

/-- A conditional type from its `is` on: `is [not] T ? A : B)`. -/
def conditionalTail : Nat → Parsing TypeExpr
  | 0 => fail
  | depth + 1 => do
    let _ ← bump
    skipIf (·.atWord "not")
    let _ ← union depth
    expect '?'
    let yes ← union depth
    expect ':'
    let no ← union depth
    expect ')'
    return .conditional yes no

/-- Type parameters up to and with `>`; a comma may stand before it. -/
def genericParams : Nat → Parsing (List TypeExpr)
  | 0 => fail
  | depth + 1 => do
    if ← eat '>' then return []
    else
      skipIf atVariance
      let param ← union depth
      if ← eat ',' then
        let more ← genericParams depth
        return param :: more
      else
        expect '>'
        return [param]

/-- The fields of a shape up to and with the closing brace. `...` in front of it says that further
fields may be there. -/
def shapeFields : Nat → Parsing (List ShapeField)
  | 0 => fail
  | depth + 1 => do
    if ← eat '\x7d' then return []
    else if (← get).peek == some .ellipsis then
      let _ ← bump
      expect '\x7d'
      return []
    else
      let field ← shapeField depth
      if ← eat ',' then
        let more ← shapeFields depth
        return field :: more
      else
        expect '\x7d'
        return [field]

/-- One field of a shape, with its key if it has one. -/
def shapeField : Nat → Parsing ShapeField
  | 0 => fail
  | depth + 1 => do
    if (← get).atKey then
      let token ← bump
      let optional ← eat '?'
      expect ':'
      let value ← union depth
      return .mk (some token.key) optional value
    else
      let value ← union depth
      return .mk none false value

/-- The parameters of a callable up to and with `)`. -/
def callableParams : Nat → Parsing (List TypeExpr)
  | 0 => fail
  | depth + 1 => do
    if ← eat ')' then return []
    else
      let param ← union depth
      parameterMarks
      if ← eat ',' then
        let more ← callableParams depth
        return param :: more
      else
        expect ')'
        return [param]

end

/-- A call depth that no reading of this many characters reaches. -/
def depthFor (length : Nat) : Nat := 8 * length + 8

/-- A reader at the start of a text. -/
def ofText (input : List Char) : Parser := { lexer := .ofText input, consumed := 0 }

end Parser

/-- The longest type at the start of a text, with the byte offset after its last token. -/
def prefixOf (input : List Char) : Except TypeError (TypeExpr × Nat) := do
  let (t, p) ← (Parser.union (Parser.depthFor input.length)).run (.ofText input)
  return (t, p.consumed)

/-- The type a whole text denotes. Only white space may follow it. -/
def wholeOf (input : List Char) : Except TypeError TypeExpr := do
  let (t, stop) ← prefixOf input
  match trim (dropBytes stop input) with
  | [] => return t
  | rest => throw (.trailing (.ofList rest))

/-- The type a text denotes. -/
def parse (text : String) : Except TypeError TypeExpr := wholeOf text.toList

/-- The longest type at the start of a text, with the byte offset after its last token. -/
def parsePrefix (text : String) : Except TypeError (TypeExpr × Nat) := prefixOf text.toList

end ClassDocs.TypeExpr
