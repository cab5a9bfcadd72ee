import ClassDocs.Docblock.Reader
import ClassDocs.Index.Flatten
import ClassDocs.Issue

/-!
# Inherited documentation

A doc comment may ask for the text of an ancestor by an inherit marker. The text comes from the
nearest ancestor that documents the same class or member: first the parent, then each interface in
order. An ancestor that has the member without a comment is searched through in turn; one whose
comment has a marker itself is resolved first. The first text found is taken, and texts of several
ancestors are never mixed.

Comments are read by a parser that may have a state of its own, so a search runs in any monad `μ`
that can ask the index, and takes the parser as an argument.
-/

namespace ClassDocs

/-- What a doc comment is about: a class or one of its members. -/
inductive Subject where
  | wholeClass
  | member (name : String) (kind : MemberKind)

/-- The subject as reports name it. -/
def Subject.label (className : String) : Subject → String
  | .wholeClass => className
  | .member name .property => className ++ "::$" ++ name
  | .member name .method => className ++ "::" ++ name ++ "()"
  | .member name .constant => className ++ "::" ++ name

/-- A doc comment with its text settled. -/
structure DocText where
  /-- The comment itself, if there is one. -/
  doc : Option Docblock := none
  summary : String := ""
  description : String := ""

/-- The documentation of a class or member. -/
structure ResolvedDoc extends DocText where
  /-- The documentation of the ancestor whose text was taken, then of the one that took it from,
  and so on. -/
  inherited : List DocText := []

instance : Inhabited ResolvedDoc := ⟨{}⟩

namespace ResolvedDoc

/-- This documentation and all that it inherits from, nearest first. -/
def chain (r : ResolvedDoc) : List DocText := r.toDocText :: r.inherited

/-- The first text that is not empty of the tags that `pick` finds along the chain. -/
def firstTagText (r : ResolvedDoc) (pick : Docblock → Option Tag) : Option String :=
  (r.chain.filterMap fun d => (d.doc.bind pick).map (·.text)).find? (!·.isEmpty)

/-- The description of a parameter. -/
def paramDescription (r : ResolvedDoc) (name : String) : Option String :=
  r.firstTagText (·.paramTag name)

/-- The description of the result. -/
def resultDescription (r : ResolvedDoc) : Option String := r.firstTagText (·.firstTag .result)

/-- Whether the comment itself says that its subject is deprecated. -/
def isDeprecated (r : ResolvedDoc) : Bool := r.doc.any (·.isDeprecated)

end ResolvedDoc

namespace Inherit

/-- What a search has met so far. -/
structure Search where
  /-- Ancestors that were looked at, in lower case. -/
  visited : List String
  issues : List Issue := []

/-- A search through the ancestors. -/
abbrev SearchT (μ : Type → Type) := StateT Search μ

/-- A search that asks the index only. -/
abbrev SearchM := SearchT Lookup

variable {μ : Type → Type} [Monad μ]

/-- How many steps above the class a marker is still resolved. -/
def maxDepth : Nat := 20

/-- A comment whose markers stay as written. -/
def literal (doc : Docblock) : ResolvedDoc :=
  { doc := some doc
    summary := renderSpans doc.summary none
    description := renderSpans doc.description none }

/-- Whether nothing but markers and white space is in the summary. -/
def isMarkerOnly (summary : List Span) : Bool :=
  summary.all fun
    | .marker _ => true
    | .text written => (Text.trim written.toList).isEmpty

/-- A comment with an ancestor's texts in the place of its markers. An empty summary is replaced as
a whole; so is an empty description, unless the summary has text of its own. -/
def filled (doc : Docblock) (ancestor : ResolvedDoc) : ResolvedDoc :=
  { doc := some doc
    summary :=
      if doc.summary.isEmpty then ancestor.summary else
        renderSpans doc.summary (some ancestor.summary)
    description :=
      if doc.description.isEmpty && isMarkerOnly doc.summary then ancestor.description
      else renderSpans doc.description (some ancestor.description)
    inherited := ancestor.chain }

/-- The documentation in a comment of a class, with `find` to search the ancestors of the class.
`depth` counts the steps that led to this class. -/
def resolveWith (find : Nat → String → SearchT μ (Option ResolvedDoc)) (depth : Nat)
    (className : String) (subject : Subject) (doc : Docblock) : SearchT μ ResolvedDoc := do
  if !doc.hasMarker then return literal doc
  else
    let ancestor ← if depth < maxDepth then find depth className else pure none
    match ancestor with
    | some found => return filled doc found
    | none =>
      modify fun s =>
        { s with issues := s.issues ++ [.unresolvedInherit (subject.label className)] }
      return literal doc

/-- The class that declares the subject as seen on an ancestor, and the comment it has there. -/
def commentOn (ancestor : ClassDecl) : Subject → Option (String × Option String)
  | .wholeClass => some (ancestor.name, ancestor.comment)
  | .member name kind =>
    (ancestor.findMember name kind).map fun m => (m.info.declaringClass, m.info.comment)

/-- Whether an ancestor was looked at already; if not, it is noted as looked at. -/
def visit (name : String) : SearchT μ Bool := fun s =>
  if s.visited.contains (Text.lower name) then return (true, s)
  else return (false, { s with visited := Text.lower name :: s.visited })

/-- The documentation of the subject on one ancestor or above it. -/
def tryAncestor [MonadLiftT Lookup μ] (parse : String → μ Docblock)
    (find : Nat → String → SearchT μ (Option ResolvedDoc)) (depth : Nat) (subject : Subject)
    (name : String) : SearchT μ (Option ResolvedDoc) := do
  if ← visit name then return none
  else
    match ← (Index.describe? name : Lookup _) with
    | none => return none
    | some ancestor =>
      match commentOn ancestor subject with
      | none => return none
      | some (declaring, some raw) =>
        let doc ← (parse raw : μ _)
        return some (← resolveWith find (depth + 1) declaring subject doc)
      | some (_, none) => find (depth + 1) ancestor.name

/-- The first answer that one of several ancestors gives. -/
def firstOf (tryOne : String → SearchT μ (Option ResolvedDoc)) :
    List String → SearchT μ (Option ResolvedDoc)
  | [] => return none
  | name :: names => do
    match ← tryOne name with
    | some found => return some found
    | none => firstOf tryOne names

/-- The documentation of the subject on the nearest ancestor of a class that has some. The first
argument bounds the length of the way up. -/
def findAbove [MonadLiftT Lookup μ] (parse : String → μ Docblock) (subject : Subject) :
    Nat → Nat → String → SearchT μ (Option ResolvedDoc)
  | 0, _, _ => return none
  | bound + 1, depth, className => do
    match ← (Index.describe? className : Lookup _) with
    | none => return none
    | some c =>
      firstOf (tryAncestor parse (findAbove parse subject bound) depth subject)
        (c.ancestors.map Prod.fst)

/-- The documentation of a subject from the comment it has in a class, with the issues met. -/
def resolveBy [MonadLiftT Lookup μ] (parse : String → μ Docblock) (className : String)
    (subject : Subject) (comment : Option String) : μ (ResolvedDoc × List Issue) := do
  match comment with
  | none => return ({}, [])
  | some raw =>
    let bound := 2 * (← (get : Lookup Index)).bound
    let doc ← parse raw
    let (resolved, s) ← (resolveWith (findAbove parse subject bound) 0 className subject doc).run
      { visited := [Text.lower className] }
    return (resolved, s.issues)

/-- Every comment parsed when it is asked for. -/
def parseAfresh (raw : String) : Lookup Docblock := return Docblock.parse raw

/-- The documentation of a subject, all comments parsed afresh. -/
def resolve (className : String) (subject : Subject) (comment : Option String) :
    Lookup (ResolvedDoc × List Issue) :=
  resolveBy parseAfresh className subject comment

theorem resolve_some (className : String) (subject : Subject) (raw : String) :
    resolve className subject (some raw) = do
      let bound := 2 * (← get).bound
      let (resolved, s) ←
        (resolveWith (findAbove parseAfresh subject bound) 0 className subject
          (Docblock.parse raw)).run { visited := [Text.lower className] }
      return (resolved, s.issues) := by
  simp only [resolve, resolveBy, parseAfresh, pure_bind]
  rfl

end Inherit

end ClassDocs
