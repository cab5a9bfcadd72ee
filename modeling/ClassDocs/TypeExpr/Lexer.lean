import ClassDocs.TypeExpr.Token

/-!
# Taking tokens off a text

A lexer is a byte offset into a text, and taking a token moves it behind that token. Nothing else
is kept, so a copy of a lexer goes ahead without moving the lexer itself; that is how a reader
looks at tokens it has not taken yet.

The offset falls between two characters. It starts there, and white space and tokens are stretches
of the text, so a lexer carries the proof and no character is ever cut in two.
-/

namespace ClassDocs.TypeExpr

open ClassDocs.Text

/-- A token with the byte offsets of its start and end. -/
structure Lexeme where
  token : Token
  start : Nat
  stop : Nat
  deriving DecidableEq, Repr

/-- A place in a text, between two of its characters or at an end. -/
structure Lexer where
  src : List Char
  pos : Nat
  isCut : IsCut src pos

namespace Lexer

/-- The start of a text. -/
def ofText (src : List Char) : Lexer := ⟨src, 0, isCut_bytes [] src⟩

/-- What stands behind the place. -/
def rest (lexer : Lexer) : List Char := dropBytes lexer.pos lexer.src

/-- The place behind a stretch of the text. -/
def advance (lexer : Lexer) (taken : List Char) (h : taken <+: lexer.rest) : Lexer :=
  ⟨lexer.src, lexer.pos + bytes taken, lexer.isCut.add h⟩

/-- The place behind white space. -/
def skipBlanks (lexer : Lexer) : Lexer :=
  lexer.advance (lexer.rest.takeWhile isBlank) (List.takeWhile_prefix isBlank)

/-- The next token and the place behind it. -/
def next? (lexer : Lexer) : Option (Lexeme × Lexer) :=
  let start := lexer.skipBlanks
  match h : start.rest with
  | [] => none
  | c :: cs =>
    let token := tokenAt c cs
    let after := start.advance token.text.toList (h ▸ isPrefix_text_tokenAt c cs)
    some (⟨token, start.pos, after.pos⟩, after)

end Lexer

end ClassDocs.TypeExpr
