import ClassDocs.Docblock.Basic
import ClassDocs.Issue
import ClassDocs.Name.Scope
import ClassDocs.TypeRef.Vocabulary

/-!
# Unifying native and annotated types

A member has up to two types: the one declared natively and the one in its doc comment. The
annotated type wins and the two are never mixed in one list, with one exception: a generic class in
the annotation only fills in the key and value types of the native class it names.

Both go through the same conversion to a flat list of alternatives, in which `null` is then
compressed: next to exactly one other type it becomes that type's nullability. Next to several
other types a native list keeps `null` at its end, while in an annotated list the first type takes
the nullability and the fold is reported.
-/

namespace ClassDocs

/-- The alternatives of a member's type and how they are joined. -/
structure UnifiedType where
  types : List TypeRef := []
  separator : Separator := .union

/-- What the names inside a member's type refer to. -/
structure TypeContext where
  /-- The scope of the file the member is written in. -/
  scope : Scope
  /-- The class under documentation: `self`, `static` and `$this`. -/
  root : String
  /-- The parent of the class that declares the member. -/
  parent : Option String := none
  /-- The template parameters in force. -/
  templates : List String := []
  /-- The member, for reports. -/
  owner : String

namespace TypeContext

open TypeRef

/-- A type added at the end of a list unless it is there already. -/
def addNew (types : List TypeRef) (t : TypeRef) : List TypeRef :=
  if types.contains t then types else types ++ [t]

/-- The types other than `null`, each once, in order of first appearance. -/
def concretes (types : List TypeRef) : List TypeRef :=
  (types.filter (!·.isNull)).foldl addNew []

/-- Where a list of types came from. It decides what `null` next to several types becomes. -/
inductive Source where
  | native
  | annotated
  deriving DecidableEq

/-- A list of alternatives with `null` compressed and repetitions dropped. -/
def compress (source : Source) (types : List TypeRef) : List TypeRef :=
  if types.any (·.isNull) then
    match concretes types, source with
    | [], _ => [null]
    | [t], _ => [t.withNullable true]
    | t :: rest, .annotated => t.withNullable true :: rest
    | ts, .native => ts ++ [null]
  else concretes types

/-- The type that takes the nullability of an ambiguous annotated list. -/
def absorber? (types : List TypeRef) : Option TypeRef :=
  if types.any (·.isNull) then
    match concretes types with
    | t :: _ :: _ => some t
    | _ => none
  else none

/-- The types a name stands for. -/
def convertName (ctx : TypeContext) (name : String) : List TypeRef :=
  let keyword := Text.lower name
  match pseudoType? keyword with
  | some types => types
  | none =>
    match keyword with
    | "self" | "static" | "$this" => [object ctx.root]
    | "parent" => (ctx.parent.map object).toList
    | "array" | "non-empty-array" => [array [] []]
    | "list" | "non-empty-list" => [array [builtin "int"] []]
    | "callable" | "pure-callable" => [callable]
    | _ =>
      if builtinKeywords.contains keyword then [builtin keyword]
      else if ctx.templates.contains name then [builtin name]
      else if isPseudoName name.toList then [builtin name]
      else [object (ctx.scope.resolve name)]
where
  /-- Pseudo-types outside the vocabulary, such as `non-falsy-string` or `Foo::BAR`. -/
  isPseudoName : List Char → Bool
    | [] => false
    | ':' :: ':' :: _ => true
    | c :: cs => c == '-' || isPseudoName cs

/-- The types that a name with type parameters stands for, given what the parameters stand for. -/
def convertGeneric (ctx : TypeContext) (base : String) (params : List (List TypeRef)) :
    List TypeRef :=
  let keyword := Text.lower base
  let (keys, values) := match params with
    | [] => ([], [])
    | [value] => ([], value)
    | key :: value :: _ => (key, value)
  match keyword with
  | "array" | "non-empty-array" => [array keys values]
  | "list" | "non-empty-list" => [array [builtin "int"] (params.getLast?.getD [])]
  | "iterable" => [builtinCollection "iterable" keys values]
  | "int" => [builtin "int"]
  | _ =>
    if (pseudoType? keyword).isSome || builtinKeywords.contains keyword ||
      keyword.toList.contains '-' then
      ctx.convertName base
    else if ctx.templates.contains base then [builtin base]
    else
      let className := match keyword with
        | "self" | "static" | "$this" => ctx.root
        | _ => ctx.scope.resolve base
      [objectCollection className keys values]

/-- The type a shape stands for. Its keys are texts if some key is not a number. -/
def convertShape (base : String) (keys : List (Option String)) (values : List (List TypeRef)) :
    TypeRef :=
  if Text.sameName base "object" then builtin "object"
  else
    let named := keys.any fun key => key.any fun k => !k.toList.all Char.isDigit
    array [builtin (if named then "string" else "int")] (values.flatten.foldl addNew [])

mutual

/-- The flat list of alternatives of a type. -/
def convert (ctx : TypeContext) : TypeExpr → List TypeRef
  | .name text => ctx.convertName text
  | .nullable inner => compress .native (ctx.convert inner ++ [null])
  | .union members | .inter members => ctx.convertAll members
  | .array element => [array [] (compress .native (ctx.convert element))]
  | .generic base params => ctx.convertGeneric base (ctx.convertEach params)
  | .shape base fields => [convertShape base (fields.map (·.key)) (ctx.convertFields fields)]
  | .callable base _ _ =>
    if Text.sameName (Name.withoutRoot base) "closure" then [object "Closure"] else [callable]
  | .literal (.text _) => [builtin "string"]
  | .literal (.int _) => [builtin "int"]
  | .literal (.float _) => [builtin "float"]
  | .conditional yes no => ctx.convert yes ++ ctx.convert no

/-- The alternatives of several types in one list. -/
def convertAll (ctx : TypeContext) : List TypeExpr → List TypeRef
  | [] => []
  | t :: ts => ctx.convert t ++ ctx.convertAll ts

/-- The compressed alternatives of each of several types. -/
def convertEach (ctx : TypeContext) : List TypeExpr → List (List TypeRef)
  | [] => []
  | t :: ts => compress .native (ctx.convert t) :: ctx.convertEach ts

/-- The compressed alternatives of the type of each field. -/
def convertFields (ctx : TypeContext) : List ShapeField → List (List TypeRef)
  | [] => []
  | .mk _ _ value :: fields => compress .native (ctx.convert value) :: ctx.convertFields fields

end

/-- The separator a type is shown with. -/
def separatorOf : TypeExpr → Separator
  | .inter _ => .inter
  | _ => .union

/-- A native type on its own. -/
def unifyNative (ctx : TypeContext) (type : TypeExpr) : UnifiedType :=
  ⟨compress .native (ctx.convert type), separatorOf type⟩

/-- An annotated type on its own, with the issue it raises. -/
def unifyAnnotated (ctx : TypeContext) (type : TypeExpr) : UnifiedType × List Issue :=
  let types := ctx.convert type
  (⟨compress .annotated types, separatorOf type⟩,
    ((absorber? types).map fun t => Issue.ambiguousType ctx.owner t.name).toList)

mutual

/-- Whether a generic class stands in a type: alone, behind `?` or in a union. -/
def namesGeneric (ctx : TypeContext) : TypeExpr → Bool
  | .generic base params =>
    (ctx.convertGeneric base (ctx.convertEach params)).any (·.kind == .object)
  | .nullable inner => ctx.namesGeneric inner
  | .union members => ctx.anyNamesGeneric members
  | _ => false

/-- Whether a generic class stands in one of several types. -/
def anyNamesGeneric (ctx : TypeContext) : List TypeExpr → Bool
  | [] => false
  | t :: ts => ctx.namesGeneric t || ctx.anyNamesGeneric ts

end

/-- A native class with the key and value types of the first annotated collection of that class. -/
def refineWith (annotated : List TypeRef) (t : TypeRef) : TypeRef :=
  match t.className? with
  | none => t
  | some name =>
    match annotated.find? fun a => a.isCollection && a.className?.any (Text.sameName · name) with
    | some found => found.withNullable t.nullable
    | none => t

/-- A native type refined by an annotation that names a generic class. A native type without
any class gives way to the annotation. -/
def refineNative (ctx : TypeContext) (annotated native : TypeExpr) : UnifiedType × List Issue :=
  let unified := ctx.unifyNative native
  if unified.types.any (·.kind == .object) then
    ({ unified with types := unified.types.map (refineWith (ctx.convert annotated)) }, [])
  else ctx.unifyAnnotated annotated

/-- The type of a member from its tag and its native type. -/
def unify (ctx : TypeContext) (tag : Option Tag) (native : Option TypeExpr) :
    UnifiedType × List Issue :=
  let nativeOnly := (native.map ctx.unifyNative).getD {}
  match tag.map Tag.value, native with
  | some (.typed annotated), some declared =>
    if ctx.namesGeneric annotated then ctx.refineNative annotated declared
    else ctx.unifyAnnotated annotated
  | some (.typed annotated), none => ctx.unifyAnnotated annotated
  | some (.malformed raw cause), _ => (nativeOnly, [.malformedType ctx.owner raw cause])
  | some .untyped, _ | none, _ => (nativeOnly, [])

end TypeContext

end ClassDocs
