import ClassDocs.Source.Hint
import ClassDocs.Source.Import

/-!
# The declarations of a file

The part of a file's grammar that declarations need: namespaces, imports and class-like
declarations with their members, each with the stretch of source it covers. Statements of other
kinds leave no trace.
-/

namespace ClassDocs.Source

/-- A modifier word. -/
inductive Modifier where
  | pub
  | prot
  | priv
  /-- The visibility of assignments only, such as `private(set)`. -/
  | setOnly
  | static
  | abstract
  | final
  | readonly
  deriving DecidableEq, Repr

/-- A stretch of source between two byte offsets. -/
structure Stretch where
  start : Nat
  stop : Nat
  deriving Repr

/-- An initial value. -/
structure InitialNode where
  /-- The byte offset of its equals sign. -/
  equals : Nat
  /-- The stretch of its expression. -/
  value : Stretch
  deriving Repr

/-- A property, a constant or an enum case. -/
structure ItemNode where
  name : String
  /-- The source of the item: for a property or a constant from its name to its initial value, for
  an enum case from its attributes to the end of the statement. -/
  stretch : Stretch
  initial : Option InitialNode

/-- A parameter of a method. -/
structure ParameterNode where
  /-- Where the parameter starts, attributes and modifiers included. -/
  start : Nat
  modifiers : List Modifier
  hint : Option Hint
  isReference : Bool
  isVariadic : Bool
  name : String
  /-- The default value from its equals sign on. -/
  initial : Option Stretch
  hasHooks : Bool

/-- A member of a class-like declaration. -/
inductive MemberNode where
  | constants (start : Nat) (modifiers : List Modifier) (hint : Option Hint)
      (items : List ItemNode)
  | properties (start : Nat) (modifiers : List Modifier) (hint : Option Hint)
      (items : List ItemNode)
  | method (start : Nat) (modifiers : List Modifier) (name : String)
      (parameters : List ParameterNode) (result : Option Hint)
  | enumCase (item : ItemNode)
  | traitUse (names : List String)

/-- What a class-like declaration declares. -/
inductive ClassWord where
  | ordinary
  | interface
  | trait
  | enum
  deriving DecidableEq, Repr

/-- A class-like declaration. -/
structure ClassNode where
  /-- Where the declaration starts, attributes and modifiers included. -/
  start : Nat
  word : ClassWord
  modifiers : List Modifier
  /-- The names of its attributes. -/
  attributes : List String
  name : String
  parents : List String
  interfaces : List String
  backing : Option Hint
  members : List MemberNode

/-- A declaration at the top of a file or namespace. -/
inductive TopNode where
  | use (statement : UseStatement)
  | decl (node : ClassNode)

/-- A namespace with its declarations. -/
structure SpaceNode where
  name : Option String
  body : List TopNode

/-- The declarations of a file: those outside any namespace and the namespaces, in order. -/
inductive FileNode where
  | top (node : TopNode)
  | space (node : SpaceNode)

end ClassDocs.Source
