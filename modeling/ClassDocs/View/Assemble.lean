import ClassDocs.Inherit
import ClassDocs.Link
import ClassDocs.TypeRef.Unify
import ClassDocs.View.Basic
import ClassDocs.View.Inclusion

/-!
# Assembling a view

The view of one flattened class: each member that is shown has its comment resolved, its types
unified and its links attached. Types in comments are read with the class under documentation as
`self`, wherever the member was written. As for inherited documentation, the parser of comments may
have a state of its own.
-/

namespace ClassDocs

/-- Work on a view: it notes issues. -/
abbrev DraftT (μ : Type → Type) := StateT (List Issue) μ

/-- Work on a view that asks the index only. -/
abbrev Draft := DraftT Lookup

namespace Draft

variable {μ : Type → Type} [Monad μ]

/-- Note some issues. -/
def note (issues : List Issue) : DraftT μ Unit := modify (· ++ issues)

/-- A result whose issues are noted. -/
def noting {α : Type} (result : α × List Issue) : DraftT μ α := do
  note result.2
  return result.1

mutual

/-- A type with its link. The types inside come first. -/
def typeView (ctx : LinkContext) : TypeRef → Lookup TypeView
  | type@⟨kind, name, nullable, className?, isCollection, keys, values, description⟩ => do
    let keyTypes ← typeViews ctx keys
    let valueTypes ← typeViews ctx values
    let link ← linkOfType ctx type
    return {
      name := if kind == .object then Name.short name else name
      kind
      className := className?
      nullable, isCollection, keyTypes, valueTypes, description, link }

/-- Several types with their links. -/
def typeViews (ctx : LinkContext) : List TypeRef → Lookup (List TypeView)
  | [] => return []
  | t :: ts => do
    let view ← typeView ctx t
    let views ← typeViews ctx ts
    return view :: views

end

variable [MonadLiftT Lookup μ]

/-- A unified type with its links. -/
def typeList (ctx : LinkContext) (unified : UnifiedType) : DraftT μ TypeList := do
  return ⟨← (typeViews ctx unified.types : Lookup _), unified.separator⟩

/-- The class being documented. -/
structure Site where
  context : LinkContext
  decl : ClassDecl
  /-- The template parameters of the class. -/
  templates : List String

namespace Site

/-- What names in the types of a member mean. -/
def typeContext (site : Site) (scope : Scope) (owner : String) : TypeContext :=
  { scope, root := site.decl.name, parent := site.decl.parent, templates := site.templates, owner }

/-- The documentation of a member. -/
def memberDoc (parse : String → μ Docblock) (m : Member) (kind : MemberKind) :
    DraftT μ ResolvedDoc := do
  noting (← (Inherit.resolveBy parse m.declaringClass (.member m.name kind) m.comment : μ _))

end Site

/-- The texts of the `@see` tags. -/
def seeTexts (doc : Option Docblock) : List String :=
  ((doc.map fun d => (d.tagsOf .see).map (·.text)).getD []).filter (!·.isEmpty)

/-- The text of the first tag of a kind. -/
def tagText (doc : Option Docblock) (kind : TagKind) : String :=
  ((doc.bind (·.firstTag kind)).map (·.text)).getD ""

/-- The texts of a member with this summary. -/
def docView (resolved : ResolvedDoc) (summary : String) : DocView :=
  { summary, description := resolved.description, deprecated := resolved.isDeprecated,
    see := seeTexts resolved.doc }

/-- The first of two texts, or the second if the first is empty. -/
def orElse (first second : String) : String := if first.isEmpty then second else first

/-- The trait a member comes from. -/
def traitOf (m : Member) : Option String :=
  match m.origin with
  | .trait name => some name
  | .own | .inherited => none

/-- The view of a constant. -/
def constantView (parse : String → μ Docblock) (site : Site) (c : Constant) :
    DraftT μ ConstantView := do
  let resolved ← Site.memberDoc parse c.toMember .constant
  let types := site.typeContext c.scope (Subject.label site.decl.name (.member c.name .constant))
  let unified ← noting (types.unify (resolved.doc.bind (·.firstTag .var)) c.type)
  let type ← typeList site.context unified
  return {
    name := c.name
    visibility := c.modifiers.visibility
    isFinal := c.modifiers.isFinal
    isCase := c.isCase
    type
    value := c.value
    doc := docView resolved (orElse resolved.summary (tagText resolved.doc .var)) }

/-- The tag that types a property: its own `@var`, or else, for a promoted one, the `@param` of the
constructor. -/
def propertyTag (p : Property) (doc constructorDoc : Option Docblock) : Option Tag :=
  match doc.bind (·.firstTag .var) with
  | some tag => some tag
  | none => if p.isPromoted then constructorDoc.bind (·.paramTag p.name) else none

/-- The view of a property. A promoted one is described by the constructor if it has no text
itself. -/
def propertyView (parse : String → μ Docblock) (site : Site) (constructorDoc : Option ResolvedDoc)
    (p : Property) : DraftT μ PropertyView := do
  let resolved ← Site.memberDoc parse p.toMember .property
  let types := site.typeContext p.scope (Subject.label site.decl.name (.member p.name .property))
  let tag := propertyTag p resolved.doc (constructorDoc.bind (·.doc))
  let unified ← noting (types.unify tag p.type)
  let promoted :=
    if p.isPromoted then (constructorDoc.bind (·.paramDescription p.name)).getD "" else ""
  let type ← typeList site.context unified
  return {
    name := p.name
    visibility := p.modifiers.visibility
    isStatic := p.modifiers.isStatic
    isReadonly := p.modifiers.isReadonly
    isPromoted := p.isPromoted
    type
    initial := p.initial
    doc := docView resolved (orElse (orElse resolved.summary (tagText resolved.doc .var)) promoted)
    accessors := site.decl.accessorsFor p.name
    fromTrait := traitOf p.toMember }

/-- The view of a parameter. -/
def parameterView (context : LinkContext) (types : TypeContext) (resolved : ResolvedDoc)
    (p : Parameter) :
    DraftT μ ParameterView := do
  let unified ← noting (types.unify (resolved.doc.bind (·.paramTag p.name)) p.type)
  let type ← typeList context unified
  return {
    name := p.name
    type
    description := (resolved.paramDescription p.name).getD ""
    initial := p.initial
    isOptional := p.isOptional
    isVariadic := p.isVariadic
    isReference := p.isReference }

/-- The views of the classes thrown, each once: of two tags with the same types, in any letter
case, the first counts. `seen` holds the types met so far. -/
def thrownViews (context : LinkContext) (types : TypeContext) :
    List (List String) → List Tag → DraftT μ (List ThrownView)
  | _, [] => return []
  | seen, tag :: tags => do
    match tag.value with
    | .untyped => thrownViews context types seen tags
    | .malformed raw cause =>
      note [.malformedType types.owner raw cause]
      thrownViews context types seen tags
    | .typed type =>
      let unified ← noting (types.unifyAnnotated type)
      let names := unified.types.map fun t => Text.lower t.render
      if seen.contains names then thrownViews context types seen tags
      else
        let views ← (typeViews context unified.types : Lookup _)
        let rest ← thrownViews context types (names :: seen) tags
        return { types := views, description := tag.text } :: rest

/-- The view of a method with its documentation. -/
def methodView (site : Site) (m : Method) (resolved : ResolvedDoc) : DraftT μ MethodView := do
  let atClass := site.typeContext m.scope (Subject.label site.decl.name (.member m.name .method))
  let types := { atClass with
    templates := atClass.templates ++ (resolved.doc.map (·.templateNames)).getD [] }
  let parameters ← m.parameters.mapM (parameterView site.context types resolved)
  let result ← noting (types.unify (resolved.doc.bind (·.firstTag .result)) m.result)
  let throws ← thrownViews site.context types [] ((resolved.doc.map (·.tagsOf .throws)).getD [])
  let result ← typeList site.context result
  return {
    name := m.name
    visibility := m.modifiers.visibility
    isStatic := m.modifiers.isStatic
    isAbstract := m.modifiers.isAbstract
    isFinal := m.modifiers.isFinal
    parameters
    result
    resultDescription := resolved.resultDescription.getD ""
    throws
    doc := docView resolved resolved.summary
    fromTrait := traitOf m.toMember }

/-- The view of a method. -/
def listedMethodView (parse : String → μ Docblock) (site : Site) (m : Method) :
    DraftT μ MethodView := do
  methodView site m (← Site.memberDoc parse m.toMember .method)

/-- The types of the values of an enum. -/
def backingViews (site : Site) : Option TypeExpr → DraftT μ (List TypeView)
  | none => return []
  | some type => do
    let unified ← noting ((site.typeContext site.decl.scope site.decl.name).unify none (some type))
    return (← typeList site.context unified).types

/-- The documentation of the constructor, if the class has one of its own. -/
def constructorDoc (parse : String → μ Docblock) : Option Method → DraftT μ (Option ResolvedDoc)
  | none => return none
  | some m => return some (← Site.memberDoc parse m.toMember .method)

/-- The view of the constructor. -/
def constructorView (site : Site) :
    Option Method → Option ResolvedDoc → DraftT μ (Option MethodView)
  | some m, some resolved => return some (← methodView site m resolved)
  | _, _ => return none

/-- The view of a flattened class, given the view of its parent. -/
def classViewBy (parse : String → μ Docblock) (context : LinkContext) (c : ClassDecl)
    (parent : Option ClassView) : DraftT μ ClassView := do
  let resolved ← noting (← (Inherit.resolveBy parse c.name .wholeClass c.comment : μ _))
  let site : Site := ⟨context, c, (resolved.doc.map (·.templateNames)).getD []⟩
  let interfaces ← (typeViews context (c.interfaces.map TypeRef.object) : Lookup _)
  let traits ← (typeViews context (c.traits.map TypeRef.object) : Lookup _)
  let backing ← backingViews site c.backing
  let constants ← (c.constants.filter fun m => c.isIncluded (.constant m)).mapM
    (constantView parse site)
  let constructor? := c.constructor?.filter (·.origin != .inherited)
  let constructorDoc ← constructorDoc parse constructor?
  let properties ← (c.properties.filter fun m => c.isIncluded (.property m)).mapM
    (propertyView parse site constructorDoc)
  let constructor? ← constructorView site constructor? constructorDoc
  let methods ← c.listedMethods.mapM (listedMethodView parse site)
  let link ← (linkOf context c.name : Lookup _)
  return {
    name := c.name
    kind := c.kind
    isAbstract := c.isAbstract
    isFinal := c.isFinal
    link
    doc := docView resolved resolved.summary
    parent, interfaces, traits, backing, constants, properties, constructor?, methods }

/-- The view of a flattened class, all comments parsed afresh. -/
def classView (context : LinkContext) (c : ClassDecl) (parent : Option ClassView) :
    Draft ClassView :=
  classViewBy Inherit.parseAfresh context c parent

end Draft

end ClassDocs
