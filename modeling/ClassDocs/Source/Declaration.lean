import ClassDocs.Decl
import ClassDocs.Source.Comment
import ClassDocs.Source.ReaderNames

/-!
# Class declarations from source

The declarations of a file with their names resolved, their doc comments found and their native
types read. A constructor parameter with a modifier also declares a property.
-/

namespace ClassDocs.Source

/-- A file as declarations are read from it. -/
structure File where
  /-- The path, as it is noted in every declaration. -/
  path : String
  content : List Char
  comments : List Comment

/-- The doc comment of a declaration that starts at a byte offset. -/
def File.docblockFor (f : File) (start : Nat) : Option String :=
  Source.docblockFor f.content f.comments start

/-- The source text of a stretch. -/
def File.text (f : File) (s : Stretch) : List Char := Text.slice s.start s.stop f.content

/-- The modifiers of a member from its modifier words. The first visibility counts; the visibility
of assignments does not. -/
def modifiersOf (words : List Modifier) : Modifiers :=
  { visibility := ((words.filterMap fun
      | .pub => some Visibility.pub
      | .prot => some Visibility.prot
      | .priv => some Visibility.priv
      | _ => none).head?).getD .pub
    isStatic := words.contains .static
    isAbstract := words.contains .abstract
    isFinal := words.contains .final
    isReadonly := words.contains .readonly }

/-- A parameter of a method. -/
def parameterOf (f : File) (p : ParameterNode) : Parameter :=
  { name := p.name
    type := p.hint.bind Hint.type?
    initial := p.initial.bind fun s => defaultValue (f.text s)
    isVariadic := p.isVariadic
    isReference := p.isReference }

/-- Whether a constructor parameter also declares a property. -/
def ParameterNode.isPromoted (p : ParameterNode) : Bool := !p.modifiers.isEmpty || p.hasHooks

/-- The members read from a class body so far. -/
structure Members where
  constants : List Constant := []
  properties : List Property := []
  methods : List Method := []
  traits : List String := []

/-- Where members are declared. -/
structure Owner where
  className : String
  file : File
  scope : Scope

/-- What all kinds of members have. -/
def Owner.member (o : Owner) (name : String) (modifiers : Modifiers) (comment : Option String) :
    Member :=
  { name, declaringClass := o.className, file := o.file.path, modifiers, comment, origin := .own,
    scope := o.scope }

/-- The properties that the parameters of a constructor declare. Of parameters with one name the
first gives the initial value. -/
def Owner.promoted (o : Owner) (nodes : List ParameterNode) : List Property :=
  let parameters := nodes.map (parameterOf o.file)
  (nodes.filter (·.isPromoted)).map fun p =>
    { o.member p.name (modifiersOf p.modifiers) (o.file.docblockFor p.start) with
      type := p.hint.bind Hint.type?
      initial := (parameters.find? (·.name == p.name)).bind (·.initial)
      isPromoted := true }

/-- A name added at the end of a list unless it is there already. -/
def addName (names : List String) (name : String) : List String :=
  if names.contains name then names else names ++ [name]

/-- The members of a class with one more member read. Methods of interfaces are abstract. -/
def Owner.addMember (o : Owner) (inInterface : Bool) (ms : Members) : MemberNode → Members
  | .constants start words hint items =>
    let comment := o.file.docblockFor start
    { ms with constants := ms.constants ++ items.map fun item =>
        { o.member item.name (modifiersOf words) comment with
          type := hint.bind Hint.type?
          value := initializer (o.file.text item.stretch)
          isCase := false } }
  | .properties start words hint items =>
    let comment := o.file.docblockFor start
    { ms with properties := ms.properties ++ items.map fun item =>
        { o.member item.name (modifiersOf words) comment with
          type := hint.bind Hint.type?
          initial := initializer (o.file.text item.stretch)
          isPromoted := false } }
  | .method start words name parameters result =>
    let modifiers := modifiersOf words
    let modifiers := { modifiers with isAbstract := modifiers.isAbstract || inInterface }
    let promoted := if Text.sameName name "__construct" then o.promoted parameters else []
    { ms with
      properties := ms.properties ++ promoted
      methods := ms.methods ++ [{ o.member name modifiers (o.file.docblockFor start) with
        parameters := parameters.map (parameterOf o.file)
        result := result.bind Hint.type? }] }
  | .enumCase item =>
    let member := o.member item.name ({} : Modifiers) (o.file.docblockFor item.stretch.start)
    { ms with constants := ms.constants ++ [{ member with
        type := none
        value := initializer (o.file.text item.stretch)
        isCase := true }] }
  | .traitUse names => { ms with traits := (names.map o.scope.resolve).foldl addName ms.traits }

/-- The full name of a declaration in a scope. -/
def qualify (scope : Scope) (name : String) : String :=
  match scope.space with
  | some space => space ++ "\\" ++ name
  | none => name

/-- The kind of a class-like declaration. A class is an attribute if one of its attributes is
the class `Attribute`. -/
def kindOf (scope : Scope) (node : ClassNode) : ClassKind :=
  match node.word with
  | .ordinary =>
    if node.attributes.any (scope.resolve · == "Attribute") then .attribute else .ordinary
  | .interface => .interface
  | .trait => .trait
  | .enum => .enum

/-- The declaration of a class. The interfaces that an interface extends are its interfaces. -/
def classOf (file : File) (scope : Scope) (node : ClassNode) : ClassDecl :=
  let name := qualify scope node.name
  let owner : Owner := ⟨name, file, scope⟩
  let ms := node.members.foldl (owner.addMember (node.word == .interface)) {}
  { name
    kind := kindOf scope node
    file := file.path
    parent := if node.word == .ordinary then node.parents.head?.map scope.resolve else none
    interfaces := match node.word with
      | .ordinary | .enum => node.interfaces.map scope.resolve
      | .interface => node.parents.map scope.resolve
      | .trait => []
    traits := ms.traits
    isAbstract := node.word == .ordinary && node.modifiers.contains .abstract
    isFinal := node.word == .enum || (node.word == .ordinary && node.modifiers.contains .final)
    backing := if node.word == .enum then node.backing.bind Hint.type? else none
    comment := file.docblockFor node.start
    constants := ms.constants
    properties := ms.properties
    methods := ms.methods
    scope }

/-- The scope of some declarations: their namespace and all their imports, wherever they stand. -/
def scopeOf (space : Option String) (nodes : List TopNode) : Scope :=
  { space
    imports := importTable (nodes.filterMap fun
      | .use statement => some statement
      | .decl _ => none) }

/-- The classes among some declarations. -/
def classesOf (file : File) (scope : Scope) (nodes : List TopNode) : List ClassDecl :=
  nodes.filterMap fun
    | .use _ => none
    | .decl node => some (classOf file scope node)

/-- The name of a namespace without backslashes around it, if any is left. -/
def spaceName (name : Option String) : Option String :=
  (name.map Name.bare).filter (!·.isEmpty)

/-- The classes that a parser finds in a file, in order. -/
def Parser.classes (parser : Parser) (path content : String) : List ClassDecl :=
  let parsed := parser.parse content.toList
  let file : File := ⟨path, content.toList, parsed.comments⟩
  let tops := parsed.nodes.filterMap fun
    | .top node => some node
    | .space _ => none
  let topScope := scopeOf none tops
  parsed.nodes.flatMap fun
    | .top node => classesOf file topScope [node]
    | .space node => classesOf file (scopeOf (spaceName node.name) node.body) node.body

/-- The classes declared in a file, in order. -/
def classes (path content : String) : List ClassDecl := reader.classes path content

end ClassDocs.Source
