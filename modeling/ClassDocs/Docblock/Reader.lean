import ClassDocs.Docblock.Basic
import ClassDocs.Text.Fold
import ClassDocs.Text.Letter
import ClassDocs.Text.Measure
import ClassDocs.TypeExpr.Reader

/-!
# Reading a doc comment

The comment is taken line by line. Lines up to the first one that starts with `@` are free text;
every line that starts with `@` opens a tag, and the lines after it up to the next such line belong
to that tag. Tags are therefore read independently of each other and of the free text.
-/

namespace ClassDocs.Docblock

open ClassDocs.Text

/-- A line of a comment without the leading asterisk, one blank after it and white space at
the end. -/
def cleanLine (line : List Char) : List Char :=
  let line := trim line
  let line := (dropPrefix? ['*'] line).getD line
  trimEnd ((dropPrefix? [' '] line).getD line)

/-- The lines of a comment without its delimiters. -/
def commentLines (raw : List Char) : List (List Char) :=
  let inner := trim raw
  let inner := (dropPrefix? "/**".toList inner).getD inner
  let inner := (dropSuffix? "*/".toList inner).getD inner
  (lines inner).map cleanLine

/-- Lines put together again. -/
def joinLines (ls : List (List Char)) : List Char := ['\n'].intercalate ls

/-- The lines before the first tag, and the text of each tag with its continuation lines. -/
def sections : List (List Char) → List (List Char) × List (List Char)
  | [] => ([], [])
  | line :: rest =>
    let (text, chunks) := sections rest
    if line.head? == some '@' then ([], joinLines (line :: text) :: chunks)
    else (line :: text, chunks)

/-- Whether the summary ends with this line: it is blank or ends in a full stop. -/
def endsSummary (line : List Char) : Bool :=
  match (trimEnd line).getLast? with
  | none => true
  | some c => c == '.'

/-- The lines of the summary and those after it. -/
def summaryLines : List (List Char) → List (List Char) × List (List Char)
  | [] => ([], [])
  | line :: rest =>
    if endsSummary line then ([line], rest)
    else
      let (summary, description) := summaryLines rest
      (line :: summary, description)

/-- The summary and the description of a free text. -/
def splitSummary (text : List Char) : List Char × List Char :=
  let (summary, description) := summaryLines (splitOnChar '\n' text)
  (trim (joinLines summary), trim (joinLines description))

/-- How an inline marker starts, in lower case. -/
def markerStart : List Char := "\x7b@inheritdoc".toList

/-- Whether an inline marker starts here. -/
def atMarker (cs : List Char) : Bool :=
  markerStart == (cs.take markerStart.length).map Char.toLower

/-- The text before the first inline marker, and the text from the marker on. -/
def findMarker : List Char → Option (List Char × List Char)
  | [] => none
  | c :: cs =>
    if atMarker (c :: cs) then some ([], c :: cs)
    else (findMarker cs).map fun (before, rest) => (c :: before, rest)

/-- The text up to and with the first closing brace, or all of it. -/
def throughBrace : List Char → List Char
  | [] => []
  | c :: cs => if c == '\x7d' then [c] else c :: throughBrace cs

/-- A span of text, unless it is empty. -/
def textSpan (cs : List Char) : List Span := if cs.isEmpty then [] else [.text (.ofList cs)]

/-- A text cut at its inline markers. The first argument bounds the number of markers. -/
def cutMarkers : Nat → List Char → List Span
  | 0, cs => textSpan cs
  | count + 1, cs =>
    match findMarker cs with
    | none => textSpan cs
    | some (before, rest) =>
      let marker := throughBrace rest
      textSpan before ++ .marker (.ofList marker) :: cutMarkers count (rest.drop marker.length)

/-- The spans of a free text. -/
def spansOf (text : List Char) : List Span := cutMarkers text.length text

/-- The first word of a text. -/
def firstWord (cs : List Char) : List Char := (trimStart cs).takeWhile (!isBlank ·)

/-- The kinds of tags whose text starts with a type. -/
def typedKind? (name : String) : Option TagKind :=
  match name with
  | "param" => some .param
  | "return" | "returns" => some .result
  | "var" => some .var
  | "throws" | "throw" => some .throws
  | "extends" | "template-extends" => some .extends
  | "implements" | "template-implements" => some .implements
  | _ => none

/-- The marks of a parameter passed by reference or variadic. -/
def isParameterMark (c : Char) : Bool := c == '&' || c == '.'

/-- The type at the start of a tag's text and what follows it. A text that starts with a variable
has no type. Of a text that starts with no type the first word is kept. -/
def readTagType (body : List Char) : TagValue × List Char :=
  if body.isEmpty || (body.dropWhile isParameterMark).head? == some '$' then (.untyped, body)
  else match TypeExpr.prefixOf body with
    | .ok (t, stop) => (.typed t, dropBytes stop body)
    | .error cause =>
      let raw := firstWord body
      (.malformed (.ofList raw) cause, body.drop raw.length)

/-- The variable at the start of a text, without its dollar sign, and what follows it. -/
def readVariable? (cs : List Char) : Option (List Char × List Char) :=
  match cs.dropWhile isParameterMark with
  | '$' :: rest =>
    let isVariableChar := fun c => isAlphanumeric c || c == '_'
    some (rest.takeWhile isVariableChar, rest.dropWhile isVariableChar)
  | _ => none

/-- A tag whose text starts with a type. -/
def readTypedTag (kind : TagKind) (forAnalyser : Bool) (body : List Char) : Tag :=
  let (value, rest) := readTagType body
  let rest := trimStart rest
  let named := if kind == .param || kind == .var then readVariable? rest else none
  match named with
  | some (name, text) => ⟨kind, forAnalyser, value, some (.ofList name), .ofList (trim text)⟩
  | none => ⟨kind, forAnalyser, value, none, .ofList (trim rest)⟩

/-- A `@template` tag: the name of the parameter, then text. -/
def readTemplateTag (forAnalyser : Bool) (body : List Char) : Tag :=
  let name := body.takeWhile (!isBlank ·)
  let text := trim ((body.dropWhile (!isBlank ·)).drop 1)
  ⟨.template, forAnalyser, .untyped,
    if name.isEmpty then none else some (.ofList name), .ofList text⟩

/-- The characters that end the name of a tag. -/
def endsTagName (c : Char) : Bool := isBlank c || c == '\x7b' || c == '('

/-- The name of a tag without the name of an analyser in front of it, and whether one was there. -/
def plainName (name : List Char) : Bool × String :=
  match (dropPrefix? "phpstan-".toList name).or (dropPrefix? "psalm-".toList name) with
  | some rest => (true, .ofList rest)
  | none => (false, .ofList name)

/-- One tag, from its `@` on. -/
def readTag (chunk : List Char) : Tag :=
  let body := chunk.drop 1
  let written := body.takeWhile (!endsTagName ·)
  let rest := trimStart (body.dropWhile (!endsTagName ·))
  let (forAnalyser, name) := plainName (written.map Char.toLower)
  let untyped := fun kind => Tag.mk kind forAnalyser .untyped none (.ofList rest)
  match typedKind? name with
  | some kind => readTypedTag kind forAnalyser rest
  | none =>
    match name with
    | "see" => untyped .see
    | "deprecated" => untyped .deprecated
    | "inheritdoc" => untyped .inheritDoc
    | "template" | "template-covariant" | "template-contravariant" =>
      readTemplateTag forAnalyser rest
    | _ => untyped (.other (.ofList written))

/-- The marker a tag puts at the end of the description: the tag's first word, if it asks for the
ancestor's text. -/
def tagMarker? (chunk : List Char) : Option Span :=
  if (readTag (trimEnd chunk)).kind == .inheritDoc then some (.marker (.ofList (firstWord chunk)))
  else none

/-- A doc comment from its characters. -/
def read (raw : List Char) : Docblock :=
  let (text, chunks) := sections (commentLines raw)
  let (summary, description) := splitSummary (trim (joinLines text))
  { summary := spansOf summary
    description := spansOf description ++ chunks.filterMap tagMarker?
    tags := chunks.map fun chunk => readTag (trimEnd chunk) }

/-- A doc comment from its text. -/
def parse (raw : String) : Docblock := read raw.toList

end ClassDocs.Docblock
