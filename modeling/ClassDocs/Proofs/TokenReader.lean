import ClassDocs.TypeExpr.Reader

/-!
# Reading a type from its tokens

The readers of types with the list of all tokens in place of an offset into the text. Every
character that is not white space belongs to exactly one token, and a token's text is the stretch
of input it came from, so the offset of a token and what is left after it follow from the list
alone. Each reader takes a type off the front of the list and hands back the tokens it left,
so where a type ends is the number of tokens it used up.

That a text is read alike in both ways is `prefixOf_eq_readPrefix`. The bound on the depth of calls
is from the number of tokens here (`readingDepth`), and eight calls for each of them are enough.
-/

namespace ClassDocs.TypeExpr

open ClassDocs.Text

/-- The tokens of an input that starts at byte offset `pos`. The first argument bounds the number
of steps; the length of the input is enough, since every step takes at least one character. -/
def scan : Nat → Nat → List Char → List Lexeme
  | 0, _, _ => []
  | _ + 1, _, [] => []
  | steps + 1, pos, c :: cs =>
    if isBlank c then scan steps (pos + c.utf8Size) cs
    else
      let token := tokenAt c cs
      let text := token.text.toList
      let stop := pos + bytes text
      ⟨token, pos, stop⟩ :: scan steps stop ((c :: cs).drop text.length)

/-- The tokens of a text. -/
def lexemes (input : List Char) : List Lexeme := scan input.length 0 input

/-- The next token. -/
def peek (ts : List Lexeme) : Option Token := ts.head?.map Lexeme.token

/-- The token after the next one. -/
def peekSecond (ts : List Lexeme) : Option Token := peek ts.tail

/-- The token after the next two. -/
def peekThird (ts : List Lexeme) : Option Token := peek ts.tail.tail

/-- The error that the next token is not the one wanted. -/
def unexpected : List Lexeme → TypeError
  | [] => .unexpectedEnd
  | t :: _ => .unexpected t.token.text t.start

/-- Whether the next token is the character `c`. -/
def at? (c : Char) (ts : List Lexeme) : Bool := peek ts == some (.punct c)

/-- The tokens after the character `c`, which has to be next. -/
def expect (c : Char) (ts : List Lexeme) : Except TypeError (List Lexeme) :=
  if at? c ts then .ok ts.tail else .error (unexpected ts)

/-- Drop the character `c` if it is next. -/
def dropPunct (c : Char) (ts : List Lexeme) : List Lexeme := if at? c ts then ts.tail else ts

/-- Whether the next token is the name `word` in any letter case. -/
def atWord (word : String) (ts : List Lexeme) : Bool :=
  match peek ts with
  | some (.ident text) => sameName text word
  | _ => false

/-- Whether an `&` that is next joins two types. Before a variable, before `...` and at the end it
is the mark of a parameter passed by reference. -/
def atIntersection (ts : List Lexeme) : Bool :=
  at? '&' ts &&
    match peekSecond ts with
    | some (.variable _) | some .ellipsis | none => false
    | some _ => true

/-- Put an array type around `t` for each `[]` that follows. -/
def readBrackets : TypeExpr → List Lexeme → TypeExpr × List Lexeme
  | t, ⟨.punct '[', _, _⟩ :: ⟨.punct ']', _, _⟩ :: ts => readBrackets (.array t) ts
  | t, ts => (t, ts)

/-- Skip a `covariant` or `contravariant` in front of a type parameter, unless it is the
parameter. -/
def dropVariance (ts : List Lexeme) : List Lexeme :=
  match peek ts, peekSecond ts with
  | some (.ident "covariant"), some (.punct ',') | some (.ident "covariant"), some (.punct '>')
  | some (.ident "contravariant"), some (.punct ',')
  | some (.ident "contravariant"), some (.punct '>') => ts
  | some (.ident "covariant"), _ | some (.ident "contravariant"), _ => ts.tail
  | _, _ => ts

/-- The key of a shape field that is next, if `:` or `?:` follows a name, a quoted text or a
number. Quotes are dropped at both ends. -/
def fieldKey? (ts : List Lexeme) : Option String :=
  let marked := peekSecond ts == some (.punct ':')
    || (peekSecond ts == some (.punct '?') && peekThird ts == some (.punct ':'))
  match peek ts with
  | some (.ident text) | some (.number text) => if marked then some text else none
  | some (.quoted text) =>
    if marked then some (stripText (fun c => c == '\'' || c == '"') text) else none
  | _ => none

/-- Skip what may follow the type of a callable's parameter: `&`, `...`, the variable and `=`. -/
def dropParameterMarks (ts : List Lexeme) : List Lexeme :=
  let ts := dropPunct '&' ts
  let ts := if peek ts == some .ellipsis then ts.tail else ts
  let ts := match peek ts with
    | some (.variable _) => ts.tail
    | _ => ts
  dropPunct '=' ts

mutual

/-- A union, or the one intersection it consists of. -/
def readUnion : Nat → List Lexeme → Except TypeError (TypeExpr × List Lexeme)
  | 0, ts => .error (unexpected ts)
  | depth + 1, ts => do
    let (first, ts) ← readIntersection depth ts
    if at? '|' ts then
      let (more, ts) ← readAlternatives depth ts
      return (.union (first :: more), ts)
    else return (first, ts)

/-- The members of a union after the first, each behind a `|`. -/
def readAlternatives : Nat → List Lexeme → Except TypeError (List TypeExpr × List Lexeme)
  | 0, ts => .error (unexpected ts)
  | depth + 1, ts =>
    if at? '|' ts then do
      let (member, ts) ← readIntersection depth ts.tail
      let (more, ts) ← readAlternatives depth ts
      return (member :: more, ts)
    else return ([], ts)

/-- An intersection, or the one type it consists of. -/
def readIntersection : Nat → List Lexeme → Except TypeError (TypeExpr × List Lexeme)
  | 0, ts => .error (unexpected ts)
  | depth + 1, ts => do
    let (first, ts) ← readPostfix depth ts
    let (more, ts) ← readConjuncts depth ts
    return (if more.isEmpty then first else .inter (first :: more), ts)

/-- The members of an intersection after the first, each behind an `&`. -/
def readConjuncts : Nat → List Lexeme → Except TypeError (List TypeExpr × List Lexeme)
  | 0, ts => .error (unexpected ts)
  | depth + 1, ts =>
    if atIntersection ts then do
      let (member, ts) ← readPostfix depth ts.tail
      let (more, ts) ← readConjuncts depth ts
      return (member :: more, ts)
    else return ([], ts)

/-- A type with any number of `[]` after it. -/
def readPostfix : Nat → List Lexeme → Except TypeError (TypeExpr × List Lexeme)
  | 0, ts => .error (unexpected ts)
  | depth + 1, ts => do
    let (t, ts) ← readAtom depth ts
    return readBrackets t ts

/-- A type that is not built with `|`, `&` or `[]` at its top. `*` stands for `mixed`. -/
def readAtom : Nat → List Lexeme → Except TypeError (TypeExpr × List Lexeme)
  | 0, ts => .error (unexpected ts)
  | depth + 1, ts =>
    match peek ts with
    | some (.punct '?') => do
      let (inner, ts) ← readPostfix depth ts.tail
      return (.nullable inner, ts)
    | some (.punct '(') => readParenthesized depth ts.tail
    | some (.quoted text) => .ok (.literal (.text text), ts.tail)
    | some (.number text) => .ok (numberLiteral text, ts.tail)
    | some (.variable "$this") => .ok (.name "$this", ts.tail)
    | some (.punct '*') => .ok (.name "mixed", ts.tail)
    | some (.ident text) => readNamed depth text ts.tail
    | _ => .error (unexpected ts)

/-- What follows a name: type parameters, the fields of a shape, a callable signature or
nothing. -/
def readNamed : Nat → String → List Lexeme → Except TypeError (TypeExpr × List Lexeme)
  | 0, _, ts => .error (unexpected ts)
  | depth + 1, base, ts =>
    if at? '<' ts then do
      let (params, ts) ← readParams depth ts.tail
      return (.generic base params, ts)
    else if at? '\x7b' ts && shapeBases.contains (lower base) then do
      let (fields, ts) ← readFields depth ts.tail
      return (.shape base fields, ts)
    else if at? '(' ts && callableBases.contains (lower base) then do
      let (params, ts) ← readCallableParams depth ts.tail
      if at? ':' ts then
        let (result, ts) ← readPostfix depth ts.tail
        return (.callable base params (some result), ts)
      else return (.callable base params none, ts)
    else .ok (.name base, ts)

/-- What follows an opening parenthesis: a conditional type or a type and `)`. -/
def readParenthesized : Nat → List Lexeme → Except TypeError (TypeExpr × List Lexeme)
  | 0, ts => .error (unexpected ts)
  | depth + 1, ts =>
    match peek ts, atWord "is" ts.tail with
    | some (.variable _), true => readConditional depth ts.tail
    | _, _ => do
      let (inner, ts) ← readUnion depth ts
      if atWord "is" ts then readConditional depth ts
      else
        let ts ← expect ')' ts
        return (inner, ts)

/-- A conditional type from its `is` on: `is [not] T ? A : B)`. -/
def readConditional : Nat → List Lexeme → Except TypeError (TypeExpr × List Lexeme)
  | 0, ts => .error (unexpected ts)
  | depth + 1, ts => do
    let ts := ts.tail
    let ts := if atWord "not" ts then ts.tail else ts
    let (_, ts) ← readUnion depth ts
    let ts ← expect '?' ts
    let (yes, ts) ← readUnion depth ts
    let ts ← expect ':' ts
    let (no, ts) ← readUnion depth ts
    let ts ← expect ')' ts
    return (.conditional yes no, ts)

/-- Type parameters up to and with `>`; a comma may stand before it. -/
def readParams : Nat → List Lexeme → Except TypeError (List TypeExpr × List Lexeme)
  | 0, ts => .error (unexpected ts)
  | depth + 1, ts =>
    if at? '>' ts then .ok ([], ts.tail)
    else do
      let (param, ts) ← readUnion depth (dropVariance ts)
      if at? ',' ts then
        let (more, ts) ← readParams depth ts.tail
        return (param :: more, ts)
      else
        let ts ← expect '>' ts
        return ([param], ts)

/-- The fields of a shape up to and with the closing brace. `...` in front of it says that further
fields may be there. -/
def readFields : Nat → List Lexeme → Except TypeError (List ShapeField × List Lexeme)
  | 0, ts => .error (unexpected ts)
  | depth + 1, ts =>
    if at? '\x7d' ts then .ok ([], ts.tail)
    else if peek ts == some .ellipsis then do
      let ts ← expect '\x7d' ts.tail
      return ([], ts)
    else do
      let (field, ts) ← readField depth ts
      if at? ',' ts then
        let (more, ts) ← readFields depth ts.tail
        return (field :: more, ts)
      else
        let ts ← expect '\x7d' ts
        return ([field], ts)

/-- One field of a shape, with its key if it has one. -/
def readField : Nat → List Lexeme → Except TypeError (ShapeField × List Lexeme)
  | 0, ts => .error (unexpected ts)
  | depth + 1, ts =>
    match fieldKey? ts with
    | none => do
      let (value, ts) ← readUnion depth ts
      return (.mk none false value, ts)
    | some key => do
      let optional := at? '?' ts.tail
      let ts ← expect ':' (dropPunct '?' ts.tail)
      let (value, ts) ← readUnion depth ts
      return (.mk (some key) optional value, ts)

/-- The parameters of a callable up to and with `)`. -/
def readCallableParams : Nat → List Lexeme → Except TypeError (List TypeExpr × List Lexeme)
  | 0, ts => .error (unexpected ts)
  | depth + 1, ts =>
    if at? ')' ts then .ok ([], ts.tail)
    else do
      let (param, ts) ← readUnion depth ts
      let ts := dropParameterMarks ts
      if at? ',' ts then
        let (more, ts) ← readCallableParams depth ts.tail
        return (param :: more, ts)
      else
        let ts ← expect ')' ts
        return ([param], ts)

end

/-- A call depth that no reading of these tokens reaches. -/
def readingDepth (ts : List Lexeme) : Nat := 8 * ts.length + 8

/-- The byte offset after the tokens used up, given all tokens and those left. -/
def consumed (all left : List Lexeme) : Nat :=
  match (all.take (all.length - left.length)).getLast? with
  | some t => t.stop
  | none => 0

/-- The longest type at the start of a text, with the byte offset after its last token. -/
def readPrefix (input : List Char) : Except TypeError (TypeExpr × Nat) := do
  let ts := lexemes input
  let (t, left) ← readUnion (readingDepth ts) ts
  return (t, consumed ts left)

/-- The type a whole text denotes. Only white space may follow it. -/
def read (input : List Char) : Except TypeError TypeExpr := do
  let (t, stop) ← readPrefix input
  match trim (dropBytes stop input) with
  | [] => return t
  | rest => throw (.trailing (.ofList rest))

end ClassDocs.TypeExpr
