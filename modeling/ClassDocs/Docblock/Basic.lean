import ClassDocs.Text.Blank
import ClassDocs.TypeExpr.Basic

/-!
# Doc comments

A doc comment is a summary, a description and a list of tags. Summary and description are kept as
spans, so that the place where the text of an ancestor goes stays known until that text is found: a
marker is replaced as a span, never searched for in finished text.
-/

namespace ClassDocs

/-- A piece of the free text of a doc comment. -/
inductive Span where
  | text (written : String)
  /-- The place of the ancestor's text, with the marker as written. -/
  | marker (written : String)
  deriving DecidableEq, Repr

/-- The text a span was read from. -/
def Span.written : Span → String
  | .text w | .marker w => w

/-- Whether the span stands for an ancestor's text. -/
def Span.isMarker : Span → Bool
  | .text _ => false
  | .marker _ => true

/-- What a tag is about. -/
inductive TagKind where
  | param
  | result
  | var
  | throws
  | extends
  | implements
  | see
  | template
  | deprecated
  | inheritDoc
  /-- Any other tag, with its name as written. -/
  | other (name : String)
  deriving DecidableEq, Repr

/-- The type a tag carries. -/
inductive TagValue where
  | typed (type : TypeExpr)
  /-- A type should stand here, but the word `raw` does not start one. -/
  | malformed (raw : String) (cause : TypeError)
  | untyped

/-- One tag of a doc comment. -/
structure Tag where
  kind : TagKind
  /-- Written for a static analyser (`@phpstan-…`, `@psalm-…`); such a tag wins over the plain
  one. -/
  forAnalyser : Bool
  value : TagValue
  /-- The variable without its dollar sign, or the name of a template. -/
  subject : Option String
  text : String

/-- The type of a tag, if one could be read. -/
def Tag.type? (tag : Tag) : Option TypeExpr :=
  match tag.value with
  | .typed t => some t
  | _ => none

/-- A doc comment. -/
structure Docblock where
  summary : List Span
  description : List Span
  tags : List Tag

namespace Docblock

/-- Whether the text asks for an ancestor's text. -/
def hasMarker (doc : Docblock) : Bool := (doc.summary ++ doc.description).any Span.isMarker

/-- The tags of a kind, those for analysers first. -/
def tagsOf (doc : Docblock) (kind : TagKind) : List Tag :=
  let tags := doc.tags.filter (·.kind == kind)
  tags.filter (·.forAnalyser) ++ tags.filter (!·.forAnalyser)

/-- The tag of a kind that counts. -/
def firstTag (doc : Docblock) (kind : TagKind) : Option Tag := (doc.tagsOf kind).head?

/-- The tag of a parameter, given without its dollar sign. -/
def paramTag (doc : Docblock) (name : String) : Option Tag :=
  (doc.tagsOf .param).find? (·.subject == some name)

/-- Whether a `@deprecated` tag is there. -/
def isDeprecated (doc : Docblock) : Bool := doc.tags.any (·.kind == .deprecated)

/-- The names of the template parameters. -/
def templateNames (doc : Docblock) : List String :=
  (doc.tags.filter (·.kind == .template)).filterMap (·.subject)

end Docblock

/-- The characters of a text so far, followed by one more span. The ancestor's text starts a new
paragraph unless white space or nothing precedes it; without an ancestor the marker stays as
written. -/
def Span.appendTo (out : List Char) (inherited : Option String) : Span → List Char
  | .text w => out ++ w.toList
  | .marker w =>
    match inherited with
    | none => out ++ w.toList
    | some found =>
      if out.isEmpty || out.getLast?.any Text.isBlank then out ++ found.toList
      else out ++ '\n' :: '\n' :: found.toList

/-- The text of spans, with `inherited` in the place of each marker. -/
def renderSpans (spans : List Span) (inherited : Option String) : String :=
  .ofList (Text.trim (spans.foldl (fun out span => span.appendTo out inherited) []))

end ClassDocs
