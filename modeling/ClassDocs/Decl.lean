import ClassDocs.Name.Scope
import ClassDocs.TypeExpr.Basic

/-!
# Class declarations

Classes, interfaces, traits and enums with their members. A declaration read from a source file
holds the members written in its body; the symbol index adds those of traits and ancestors and
marks each with the way it came in. Declarations refer to each other by full name only, so a class
graph may be cyclic.
-/

namespace ClassDocs

/-- Who may use a member. -/
inductive Visibility where
  | pub
  | prot
  | priv
  deriving DecidableEq, Repr

/-- The keyword of a visibility. -/
def Visibility.text : Visibility → String
  | .pub => "public"
  | .prot => "protected"
  | .priv => "private"

/-- The kind of a class-like declaration. -/
inductive ClassKind where
  | ordinary
  | interface
  | trait
  | enum
  /-- A class that is marked as an attribute. -/
  | attribute
  deriving DecidableEq, Repr

/-- The word for a kind of class. -/
def ClassKind.text : ClassKind → String
  | .ordinary => "class"
  | .interface => "interface"
  | .trait => "trait"
  | .enum => "enum"
  | .attribute => "attribute"

/-- The kinds of class members. -/
inductive MemberKind where
  | constant
  | property
  | method
  deriving DecidableEq, Repr

/-- The word for a kind of member. -/
def MemberKind.text : MemberKind → String
  | .constant => "constant"
  | .property => "property"
  | .method => "method"

/-- How a member came into the class it is seen in. -/
inductive Origin where
  /-- Written in the body of the class. -/
  | own
  /-- Reached through the parent or an interface. -/
  | inherited
  /-- Copied in by the use of this trait. -/
  | trait (name : String)
  deriving DecidableEq, Repr

/-- The modifiers of a member. -/
structure Modifiers where
  visibility : Visibility := .pub
  isStatic : Bool := false
  isAbstract : Bool := false
  isFinal : Bool := false
  isReadonly : Bool := false
  deriving DecidableEq, Repr

/-- What all kinds of members have. -/
structure Member where
  name : String
  /-- The class said to declare the member; for a trait's member the class that uses the trait. -/
  declaringClass : String
  /-- The file the member is written in. -/
  file : String
  modifiers : Modifiers
  comment : Option String
  origin : Origin
  /-- The scope of the names in the member's type and comment. -/
  scope : Scope

/-- A class constant or an enum case. -/
structure Constant extends Member where
  type : Option TypeExpr
  /-- The initializer as written. -/
  value : Option String
  isCase : Bool

/-- A property. -/
structure Property extends Member where
  type : Option TypeExpr
  /-- The initial value as written. -/
  initial : Option String
  /-- Declared by a constructor parameter. -/
  isPromoted : Bool

/-- A parameter of a method. -/
structure Parameter where
  /-- The name without its dollar sign. -/
  name : String
  type : Option TypeExpr
  /-- The default value as written. -/
  initial : Option String
  isVariadic : Bool
  isReference : Bool

/-- Whether a call may leave the parameter out. -/
def Parameter.isOptional (p : Parameter) : Bool := p.initial.isSome || p.isVariadic

/-- A method. -/
structure Method extends Member where
  parameters : List Parameter
  result : Option TypeExpr

/-- Whether a method is the constructor. -/
def Method.isConstructor (m : Method) : Bool := Text.sameName m.name "__construct"

/-- A class, interface, trait or enum. -/
structure ClassDecl where
  /-- The full name without a leading backslash. -/
  name : String
  kind : ClassKind
  file : String
  parent : Option String
  /-- The interfaces implemented, or extended by an interface, in order. -/
  interfaces : List String
  traits : List String
  isAbstract : Bool
  isFinal : Bool
  /-- The type of the values of an enum. -/
  backing : Option TypeExpr
  comment : Option String
  constants : List Constant
  properties : List Property
  methods : List Method
  scope : Scope

/-- A member of any kind. -/
inductive AnyMember where
  | constant (c : Constant)
  | property (p : Property)
  | method (m : Method)

/-- What all kinds of members have, of any member. -/
def AnyMember.info : AnyMember → Member
  | .constant c => c.toMember
  | .property p => p.toMember
  | .method m => m.toMember

/-- The kind of any member. -/
def AnyMember.kind : AnyMember → MemberKind
  | .constant _ => .constant
  | .property _ => .property
  | .method _ => .method

namespace ClassDecl

/-- The first method of a name, in any letter case. -/
def findMethod (c : ClassDecl) (name : String) : Option Method :=
  c.methods.find? (Text.sameName ·.name name)

/-- The first property of exactly this name. -/
def findProperty (c : ClassDecl) (name : String) : Option Property :=
  c.properties.find? (·.name == name)

/-- The first constant of exactly this name. -/
def findConstant (c : ClassDecl) (name : String) : Option Constant :=
  c.constants.find? (·.name == name)

/-- The first member of a kind and name. -/
def findMember (c : ClassDecl) (name : String) : MemberKind → Option AnyMember
  | .constant => (c.findConstant name).map .constant
  | .property => (c.findProperty name).map .property
  | .method => (c.findMethod name).map .method

/-- The constructor. -/
def constructor? (c : ClassDecl) : Option Method := c.methods.find? (·.isConstructor)

end ClassDecl

end ClassDocs
