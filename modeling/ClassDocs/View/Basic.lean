import ClassDocs.Decl
import ClassDocs.TypeRef.Basic

/-!
# Views

What a page shows: names, texts, types and links, all settled. The view of a class holds the view
of its parent, so a view is finite whatever the class graph looks like.
-/

namespace ClassDocs

/-- A type with its link. -/
structure TypeView where
  /-- The keyword of a builtin, or the last segment of a class name. -/
  name : String
  kind : TypeKind
  /-- The full name of a class. -/
  className : Option String
  nullable : Bool
  isCollection : Bool
  keyTypes : List TypeView
  valueTypes : List TypeView
  description : Option String
  link : Option String

/-- A list of types and how they are joined. -/
structure TypeList where
  types : List TypeView
  separator : Separator

/-- A class that a method throws. -/
structure ThrownView where
  types : List TypeView
  description : String

/-- The texts that every kind of member has. -/
structure DocView where
  summary : String
  description : String
  deprecated : Bool
  see : List String

/-- A constant or enum case. -/
structure ConstantView where
  name : String
  visibility : Visibility
  isFinal : Bool
  isCase : Bool
  type : TypeList
  value : Option String
  doc : DocView

/-- A property. -/
structure PropertyView where
  name : String
  visibility : Visibility
  isStatic : Bool
  isReadonly : Bool
  isPromoted : Bool
  type : TypeList
  initial : Option String
  doc : DocView
  /-- The names of the accessors. -/
  accessors : List String
  /-- The trait the property comes from. -/
  fromTrait : Option String

/-- A parameter. -/
structure ParameterView where
  name : String
  type : TypeList
  description : String
  initial : Option String
  isOptional : Bool
  isVariadic : Bool
  isReference : Bool

/-- A method. -/
structure MethodView where
  name : String
  visibility : Visibility
  isStatic : Bool
  isAbstract : Bool
  isFinal : Bool
  parameters : List ParameterView
  result : TypeList
  resultDescription : String
  throws : List ThrownView
  doc : DocView
  /-- The trait the method comes from. -/
  fromTrait : Option String

/-- A class. -/
structure ClassView where
  /-- The full name. -/
  name : String
  kind : ClassKind
  isAbstract : Bool
  isFinal : Bool
  link : Option String
  doc : DocView
  parent : Option ClassView
  interfaces : List TypeView
  traits : List TypeView
  /-- The type of the values of an enum. -/
  backing : List TypeView
  constants : List ConstantView
  properties : List PropertyView
  constructor? : Option MethodView
  methods : List MethodView

namespace TypeView

mutual

/-- The text of a type: key and value types are shown if there is a value type. -/
def signature : TypeView → String
  | ⟨name, _, _, nullable, _, keyTypes, valueTypes, _, _⟩ =>
    (if nullable then "?" else "") ++ name ++
      (if valueTypes.isEmpty then ""
       else "<" ++ TypeExpr.joinTexts ", " (signatures keyTypes ++ signatures valueTypes) ++ ">")

/-- The texts of several types. -/
def signatures : List TypeView → List String
  | [] => []
  | t :: ts => t.signature :: signatures ts

end

end TypeView

/-- The text of a list of types. -/
def TypeList.signature (l : TypeList) : String :=
  TypeExpr.joinTexts l.separator.text (l.types.map TypeView.signature)

/-- The text of a constant with its type. -/
def ConstantView.signature (c : ConstantView) : String :=
  "const " ++ c.name ++ ": " ++ c.type.signature

/-- The text of a property with its type. -/
def PropertyView.signature (p : PropertyView) : String := "$" ++ p.name ++ ": " ++ p.type.signature

/-- The text of a method with the types of its parameters and its result. -/
def MethodView.signature (m : MethodView) : String :=
  m.name ++ "(" ++
    TypeExpr.joinTexts ", " (m.parameters.map fun p => p.type.signature ++ " $" ++ p.name) ++
    "): " ++ m.result.signature

namespace ClassView

/-- The last segment of the name. -/
def shortName (v : ClassView) : String := Name.short v.name

/-- The namespace of the class. -/
def space? (v : ClassView) : Option String := Name.space? v.name

/-- The constant of this name. -/
def findConstant (v : ClassView) (name : String) : Option ConstantView :=
  v.constants.find? (·.name == name)

/-- The property of this name. -/
def findProperty (v : ClassView) (name : String) : Option PropertyView :=
  v.properties.find? (·.name == name)

/-- The method of this name, in any letter case. -/
def findMethod (v : ClassView) (name : String) : Option MethodView :=
  v.methods.find? (Text.sameName ·.name name)

/-- The names of the class and its ancestors, nearest first. -/
def lineage : ClassView → List String
  | ⟨name, _, _, _, _, _, none, _, _, _, _, _, _, _⟩ => [name]
  | ⟨name, _, _, _, _, _, some parent, _, _, _, _, _, _, _⟩ => name :: parent.lineage

/-- The texts of all members: constants, properties, the constructor and the methods. -/
def signatures (v : ClassView) : List String :=
  v.constants.map (·.signature) ++ v.properties.map (·.signature) ++
    v.constructor?.toList.map (·.signature) ++ v.methods.map (·.signature)

end ClassView

end ClassDocs
