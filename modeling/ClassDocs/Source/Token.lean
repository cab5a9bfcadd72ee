import ClassDocs.Text.Blank
import ClassDocs.Text.Measure

/-!
# Tokens of a PHP file

A file is text with stretches of code between `<?php` (or `<?=`) and `?>`. The code is cut into
tokens and comments, each with the byte offsets of its start and end; what lies between two of them
is white space or text outside the code.

Declarations are all that is read from a file, so a token keeps only what tells declarations apart:
names, variables and single signs. A string with its interpolated expressions is one token,
whatever braces, quotes and comments stand inside it.
-/

namespace ClassDocs.Source

open ClassDocs.Text

/-- The kinds of tokens. -/
inductive TokenKind where
  /-- A keyword or a name, possibly qualified: `class`, `Foo\Bar`, `\Foo`. -/
  | name
  | variable
  /-- A number or a string. -/
  | literal
  /-- Any other sign. -/
  | sign
  deriving DecidableEq, Repr

/-- A token with the byte offsets of its start and end. -/
structure Token where
  kind : TokenKind
  text : String
  start : Nat
  stop : Nat

/-- A comment with the byte offsets of its start and end. -/
structure Comment where
  isDoc : Bool
  text : String
  start : Nat
  stop : Nat

/-- A token or a comment. -/
inductive Piece where
  | token (t : Token)
  | comment (c : Comment)

/-- What the code starts with. -/
inductive PieceKind where
  | blank
  | comment (isDoc : Bool)
  | token (kind : TokenKind)
  /-- The end of the code, `?>`. -/
  | closeTag
  /-- The word after which nothing belongs to the program. -/
  | halt

/-- The characters a name may start with. -/
def isNameStart (c : Char) : Bool := c.isAlpha || c == '_' || 128 ≤ c.toNat

theorem not_nameStart_backslash {c : Char} (h : isNameStart c = true) : c ≠ '\\' := by
  rintro rfl
  exact absurd h (by decide)

/-- The characters a name may go on with. -/
def isNameChar (c : Char) : Bool := isNameStart c || c.isDigit

/-- The rest of a qualified name. A backslash belongs to it if a name follows. -/
def nameTail : List Char → List Char
  | [] => []
  | '\\' :: c :: cs => if isNameStart c then '\\' :: c :: nameTail cs else []
  | c :: cs => if isNameChar c then c :: nameTail cs else []

/-- A line comment: up to the end of the line or of the code. -/
def lineComment : List Char → List Char
  | [] => []
  | '\n' :: _ => []
  | '\r' :: _ => []
  | '?' :: '>' :: _ => []
  | c :: cs => c :: lineComment cs

/-- The rest of a block comment, with its end. -/
def blockComment : List Char → List Char
  | [] => []
  | '*' :: '/' :: _ => ['*', '/']
  | c :: cs => c :: blockComment cs

/-- The rest of a single-quoted string, with its end. -/
def plainString : List Char → List Char
  | [] => []
  | '\\' :: c :: cs => '\\' :: c :: plainString cs
  | '\'' :: _ => ['\'']
  | c :: cs => c :: plainString cs

/-- What follows `<<<` on its line: blanks, the label with or without quotes, the line end. Gives
these characters, the label and whether expressions in the text count. -/
def heredocHead? (cs : List Char) : Option (List Char × List Char × Bool) :=
  let blanks := cs.takeWhile fun c => c == ' ' || c == '\t'
  let rest := cs.drop blanks.length
  let quote := (rest.takeWhile fun c => c == '\'' || c == '"').take 1
  let rest := rest.drop quote.length
  let label := rest.takeWhile isNameChar
  let rest := rest.drop label.length
  let closed := quote.isPrefixOf rest
  let rest := rest.drop quote.length
  let lineEnd := if ['\r', '\n'].isPrefixOf rest then ['\r', '\n'] else rest.take 1
  if label.head?.any isNameStart && closed && lineEnd.getLast?.any
    (fun c => c == '\n' || c == '\r') then
    some (blanks ++ quote ++ label ++ quote ++ lineEnd, label, quote != ['\''])
  else none

/-- The closing label of a heredoc with the blanks before it, if the line starts with it. -/
def heredocEnd? (label cs : List Char) : Option (List Char) :=
  let blanks := cs.takeWhile fun c => c == ' ' || c == '\t'
  let rest := cs.drop blanks.length
  if label.isPrefixOf rest && !(rest.drop label.length).head?.any isNameChar then
    some (blanks ++ label)
  else none

mutual

/-- The rest of a string in which expressions count, with its closing quote. The first argument
bounds the number of steps, here and below; the number of characters is enough. -/
def templateString : Nat → Char → List Char → List Char
  | 0, _, _ => []
  | _, _, [] => []
  | steps + 1, quote, '\\' :: c :: cs => '\\' :: c :: templateString steps quote cs
  | steps + 1, quote, c :: cs =>
    if c == quote then [c]
    else
      let inner := embedded steps c cs
      c :: inner ++ templateString steps quote (cs.drop inner.length)

/-- The text of a heredoc from the start of a line, with its closing label. -/
def heredocLine : Nat → List Char → Bool → List Char → List Char
  | 0, _, _, _ => []
  | steps + 1, label, live, cs =>
    match heredocEnd? label cs with
    | some ending => ending
    | none => heredocRest steps label live cs

/-- The text of a heredoc from the middle of a line, with its closing label. -/
def heredocRest : Nat → List Char → Bool → List Char → List Char
  | 0, _, _, _ => []
  | _, _, _, [] => []
  | steps + 1, label, live, c :: cs =>
    if c == '\n' || c == '\r' then c :: heredocLine steps label live cs
    else if live && c == '\\' && !cs.head?.any (fun d => d == '\n' || d == '\r') then
      c :: cs.take 1 ++ heredocRest steps label live (cs.drop 1)
    else
      let inner := if live then embedded steps c cs else []
      c :: inner ++ heredocRest steps label live (cs.drop inner.length)

/-- The expression in braces that starts in a string with the character `c`, without that
character. -/
def embedded : Nat → Char → List Char → List Char
  | 0, _, _ => []
  | steps + 1, '\x7b', '$' :: cs => '$' :: code steps cs
  | steps + 1, '$', '\x7b' :: cs => '\x7b' :: code steps cs
  | _, _, _ => []

/-- Code up to and with the closing brace that belongs to it. -/
def code : Nat → List Char → List Char
  | 0, _ => []
  | _, [] => []
  | _ + 1, '\x7d' :: _ => ['\x7d']
  | steps + 1, c :: cs =>
    let inner :=
      if c == '\x7b' then code steps cs
      else if c == '\'' then plainString cs
      else if c == '"' || c == '`' then templateString steps c cs
      else if c == '#' || (c == '/' && cs.head? == some '/') then lineComment cs
      else if c == '/' && cs.head? == some '*' then '*' :: blockComment (cs.drop 1)
      else if c == '<' && ['<', '<'].isPrefixOf cs then
        match heredocHead? (cs.drop 2) with
        | some (head, label, live) =>
          '<' :: '<' :: head ++ heredocLine steps label live (cs.drop (2 + head.length))
        | none => []
      else []
    c :: inner ++ code steps (cs.drop inner.length)

end

/-- The signs of more than one character that matter to declarations. -/
def longSigns : List (List Char) :=
  ["?->".toList, "...".toList, "::".toList, "->".toList, "=>".toList, "#[".toList]

/-- Whether a comment that starts with `/*` documents a declaration: it starts with two asterisks
and is longer than `/**/`. -/
def isDocComment (cs : List Char) : Bool := "/**".toList.isPrefixOf cs && 4 < cs.length

/-- The first piece of code, with its characters. -/
def pieceAt (c : Char) (cs : List Char) : PieceKind × List Char :=
  if isAsciiBlank c || c == '\x0b' then (.blank, [c])
  else if c == '?' && cs.head? == some '>' then (.closeTag, ['?', '>'])
  else if (c == '#' && cs.head? != some '[') || (c == '/' && cs.head? == some '/') then
    (.comment false, c :: lineComment cs)
  else if c == '/' && cs.head? == some '*' then
    let taken := '/' :: '*' :: blockComment (cs.drop 1)
    (.comment (isDocComment taken), taken)
  else if isNameStart c || (c == '\\' && cs.head?.any isNameStart) then
    let taken := c :: nameTail cs
    if taken.map Char.toLower == "__halt_compiler".toList then (.halt, taken) else
      (.token .name, taken)
  else if c == '$' && cs.head?.any isNameStart then
    (.token .variable, c :: cs.takeWhile isNameChar)
  else if c.isDigit then (.token .literal, c :: cs.takeWhile isNameChar)
  else if c == '\'' then (.token .literal, c :: plainString cs)
  else if c == '"' || c == '`' then (.token .literal, c :: templateString cs.length c cs)
  else
    let heredoc := if c == '<' && ['<', '<'].isPrefixOf cs then heredocHead? (cs.drop 2) else none
    match heredoc with
    | some (head, label, live) =>
      (.token .literal, '<' :: '<' :: '<' :: head ++
        heredocLine cs.length label live (cs.drop (2 + head.length)))
    | none =>
      match longSigns.find? (·.isPrefixOf (c :: cs)) with
      | some taken => (.token .sign, taken)
      | none => (.token .sign, [c])

/-- The opening of code at the start of a text, and whether it prints an expression. -/
def openTag? (cs : List Char) : Option (List Char × Bool) :=
  if (cs.take 5).map Char.toLower == "<?php".toList then some (cs.take 5, false)
  else if cs.take 3 == "<?=".toList then some (cs.take 3, true)
  else none

/-- The pieces of a text that starts at byte offset `pos`, inside code or not. The first argument
bounds the number of steps; the number of characters is enough, since every step takes at least
one. -/
def scan : Nat → Bool → Nat → List Char → List Piece
  | 0, _, _, _ => []
  | _, _, _, [] => []
  | steps + 1, false, pos, c :: cs =>
    match openTag? (c :: cs) with
    | some (tag, prints) =>
      let stop := pos + bytes tag
      let rest := scan steps true stop ((c :: cs).drop tag.length)
      if prints then .token ⟨.sign, .ofList tag, pos, stop⟩ :: rest else rest
    | none => scan steps false (pos + c.utf8Size) cs
  | steps + 1, true, pos, c :: cs =>
    let (kind, taken) := pieceAt c cs
    let stop := pos + bytes taken
    let rest := (c :: cs).drop taken.length
    match kind with
    | .blank => scan steps true stop rest
    | .comment isDoc => .comment ⟨isDoc, .ofList taken, pos, stop⟩ :: scan steps true stop rest
    | .token kind => .token ⟨kind, .ofList taken, pos, stop⟩ :: scan steps true stop rest
    | .closeTag => .token ⟨.sign, "?>", pos, stop⟩ :: scan steps false stop rest
    | .halt => []

/-- The first line of a file that names its interpreter, without the line end. -/
def shebang (cs : List Char) : List Char :=
  if ['#', '!'].isPrefixOf cs then cs.takeWhile (· != '\n') else []

/-- The pieces of a file. -/
def pieces (content : List Char) : List Piece :=
  let first := shebang content
  scan content.length false (bytes first) (content.drop first.length)

/-- The tokens among the pieces of a file. -/
def tokensOf (ps : List Piece) : List Token :=
  ps.filterMap fun
    | .token t => some t
    | .comment _ => none

/-- The comments among the pieces of a file. -/
def commentsOf (ps : List Piece) : List Comment :=
  ps.filterMap fun
    | .token _ => none
    | .comment c => some c

end ClassDocs.Source
