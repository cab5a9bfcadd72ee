import ClassDocs.JsonValue.Basic
import ClassDocs.View.Basic

/-!
# Views as JSON

The fields of a view in a fixed order. Most fields without a value are left out; the link of a type
is written as `null`.
-/

namespace ClassDocs

open JsonValue

/-- The word for a kind of type. -/
def TypeKind.text : TypeKind → String
  | .builtin => "builtin"
  | .object => "object"
  | .array => "array"
  | .callable => "callable"
  | .null => "null"

/-- A text field that is left out if there is no text. -/
def textField (key : String) (value : Option String) : List (String × JsonValue) :=
  optional key (value.map .text)

/-- A list field that is left out if the list is empty. -/
def listField (key : String) : List JsonValue → List (String × JsonValue)
  | [] => []
  | items => [(key, .list items)]

namespace TypeView

mutual

/-- A type as JSON. -/
def toJson : TypeView → JsonValue
  | ⟨name, kind, className, nullable, isCollection, keyTypes, valueTypes, description, link⟩ =>
    .object ([("name", .text name), ("kind", .text kind.text)] ++
      textField "className" className ++
      [("nullable", .bool nullable), ("isCollection", .bool isCollection)] ++
      listField "keyTypes" (listToJson keyTypes) ++
      listField "valueTypes" (listToJson valueTypes) ++
      textField "description" description ++ [("link", (link.map JsonValue.text).getD .null)])

/-- Several types as JSON. -/
def listToJson : List TypeView → List JsonValue
  | [] => []
  | t :: ts => t.toJson :: listToJson ts

end

end TypeView

/-- The list of some types as JSON. -/
def typesJson (types : List TypeView) : JsonValue := .list (TypeView.listToJson types)

/-- A list of types and its separator, as two fields. -/
def TypeList.fields (l : TypeList) : List (String × JsonValue) :=
  [("types", typesJson l.types), ("separator", .text l.separator.text)]

/-- The two text fields of a member. -/
def DocView.textFields (d : DocView) : List (String × JsonValue) :=
  [("summary", .text d.summary), ("description", .text d.description)]

/-- The last two fields of a member. -/
def DocView.noteFields (d : DocView) : List (String × JsonValue) :=
  [("deprecated", .bool d.deprecated), ("see", ofTexts d.see)]

/-- A thrown class as JSON. -/
def ThrownView.toJson (t : ThrownView) : JsonValue :=
  .object [("types", typesJson t.types), ("description", .text t.description)]

/-- A constant as JSON. -/
def ConstantView.toJson (c : ConstantView) : JsonValue :=
  .object ([("name", .text c.name), ("visibility", .text c.visibility.text),
      ("isFinal", .bool c.isFinal), ("isCase", .bool c.isCase)] ++ c.type.fields ++
    textField "value" c.value ++ c.doc.textFields ++ c.doc.noteFields)

/-- A property as JSON. -/
def PropertyView.toJson (p : PropertyView) : JsonValue :=
  .object ([("name", .text p.name), ("visibility", .text p.visibility.text),
      ("isStatic", .bool p.isStatic), ("isReadonly", .bool p.isReadonly),
      ("isPromoted", .bool p.isPromoted)] ++ p.type.fields ++
    textField "defaultValue" p.initial ++ p.doc.textFields ++
    [("accessors", ofTexts p.accessors)] ++ textField "fromTrait" p.fromTrait ++ p.doc.noteFields)

/-- A parameter as JSON. -/
def ParameterView.toJson (p : ParameterView) : JsonValue :=
  .object ([("name", .text p.name)] ++ p.type.fields ++ [("description", .text p.description)] ++
    textField "defaultValue" p.initial ++
    [("isOptional", .bool p.isOptional), ("isVariadic", .bool p.isVariadic),
      ("isReference", .bool p.isReference)])

/-- A method as JSON. -/
def MethodView.toJson (m : MethodView) : JsonValue :=
  .object ([("name", .text m.name), ("visibility", .text m.visibility.text),
      ("isStatic", .bool m.isStatic), ("isAbstract", .bool m.isAbstract),
      ("isFinal", .bool m.isFinal), ("parameters", .list (m.parameters.map (·.toJson))),
      ("returnTypes", typesJson m.result.types),
      ("returnSeparator", .text m.result.separator.text),
      ("returnDescription", .text m.resultDescription)] ++ m.doc.textFields ++
    [("throws", .list (m.throws.map (·.toJson)))] ++ textField "fromTrait" m.fromTrait ++
    m.doc.noteFields)

/-- The fields of a class before its parent. -/
def ClassView.headFields (name : String) (kind : ClassKind) (isAbstract isFinal : Bool)
    (link : Option String) (doc : DocView) : List (String × JsonValue) :=
  [("name", .text name), ("shortName", .text (Name.short name))] ++
    textField "namespace" (Name.space? name) ++
    [("kind", .text kind.text), ("isAbstract", .bool isAbstract), ("isFinal", .bool isFinal)] ++
    textField "link" link ++ doc.textFields ++ doc.noteFields

/-- The fields of a class after its parent. -/
def ClassView.tailFields (interfaces traits backing : List TypeView)
    (constants : List ConstantView) (properties : List PropertyView)
    (constructor? : Option MethodView) (methods : List MethodView) :
    List (String × JsonValue) :=
  [("interfaces", typesJson interfaces), ("traits", typesJson traits),
    ("backingTypes", typesJson backing), ("constants", .list (constants.map (·.toJson))),
    ("properties", .list (properties.map (·.toJson)))] ++
    optional "constructor" (constructor?.map (·.toJson)) ++
    [("methods", .list (methods.map (·.toJson)))]

/-- A class as JSON. -/
def ClassView.toJson : ClassView → JsonValue
  | ⟨name, kind, isAbstract, isFinal, link, doc, parent, interfaces, traits, backing,
      constants, properties, constructor?, methods⟩ =>
    let parentField := match parent with
      | some p => [("parentClass", p.toJson)]
      | none => []
    .object (headFields name kind isAbstract isFinal link doc ++ parentField ++
      tailFields interfaces traits backing constants properties constructor? methods)

end ClassDocs
