import ClassDocs.Name.Basic
import ClassDocs.TypeExpr.Printer

/-!
# Resolved types

What a member's type comes down to: a list of alternatives, each a builtin, a class under its full
name, an array, a callable or `null`. Arrays, iterables and generic classes are collections and
carry the types of their keys and values.

The class name of a class is kept beside its name. That a type has one exactly if it is a class is
not built into the record: the functions that make types see to it (`Named`).
-/

namespace ClassDocs

/-- The broad kind of a resolved type. -/
inductive TypeKind where
  | builtin
  | object
  | array
  | callable
  | null
  deriving DecidableEq, Repr

/-- How the alternatives of a type are joined. -/
inductive Separator where
  | union
  | inter
  deriving DecidableEq, Repr

/-- The sign of a separator. -/
def Separator.text : Separator → String
  | .union => "|"
  | .inter => "&"

/-- One resolved alternative of a type. -/
structure TypeRef where
  kind : TypeKind
  /-- The keyword of a builtin, or the full name of a class. -/
  name : String
  nullable : Bool := false
  /-- The full class name of an object type. -/
  className? : Option String := none
  isCollection : Bool := false
  keys : List TypeRef := []
  values : List TypeRef := []
  description : Option String := none

namespace TypeRef

instance : Inhabited TypeRef := ⟨{ kind := .null, name := "null" }⟩

/-- A builtin type. -/
def builtin (name : String) : TypeRef := { kind := .builtin, name }

/-- A builtin that iterates. -/
def builtinCollection (name : String) (keys values : List TypeRef) : TypeRef :=
  { kind := .builtin, name, isCollection := true, keys, values }

/-- A class, given with or without a leading backslash. -/
def object (className : String) : TypeRef :=
  let name := Name.unrooted className
  { kind := .object, name, className? := some name }

/-- A generic class. -/
def objectCollection (className : String) (keys values : List TypeRef) : TypeRef :=
  { object className with isCollection := true, keys, values }

/-- An array type. -/
def array (keys values : List TypeRef) : TypeRef :=
  { kind := .array, name := "array", isCollection := true, keys, values }

/-- The callable type. -/
def callable : TypeRef := { kind := .callable, name := "callable" }

/-- The null type. -/
def null : TypeRef := { kind := .null, name := "null" }

/-- The type with its nullability set. -/
def withNullable (t : TypeRef) (nullable : Bool) : TypeRef := { t with nullable }

/-- The type with its description set. -/
def withDescription (t : TypeRef) (description : Option String) : TypeRef := { t with description }

/-- Whether this is the null type. -/
def isNull (t : TypeRef) : Bool := t.kind == .null

mutual

/-- The text of a resolved type: key and value types are shown if there is a value type. -/
def render : TypeRef → String
  | ⟨_, name, nullable, _, _, keys, values, _⟩ =>
    (if nullable then "?" else "") ++ name ++
      (if values.isEmpty then ""
       else "<" ++ TypeExpr.joinTexts ", " (renderAll keys ++ renderAll values) ++ ">")

/-- The texts of several types. -/
def renderAll : List TypeRef → List String
  | [] => []
  | t :: ts => t.render :: renderAll ts

end

/-! ## Equality is decidable -/

mutual

/-- Equality of resolved types. -/
def same : TypeRef → TypeRef → Bool
  | ⟨k₁, n₁, u₁, o₁, c₁, ks₁, vs₁, d₁⟩, ⟨k₂, n₂, u₂, o₂, c₂, ks₂, vs₂, d₂⟩ =>
    k₁ == k₂ && n₁ == n₂ && u₁ == u₂ && o₁ == o₂ && c₁ ==
      c₂ && sameAll ks₁ ks₂ && sameAll vs₁ vs₂ && d₁ == d₂

/-- Equality of lists of resolved types. -/
def sameAll : List TypeRef → List TypeRef → Bool
  | [], [] => true
  | t :: ts, u :: us => same t u && sameAll ts us
  | _, _ => false

end

mutual

theorem same_iff : ∀ t u : TypeRef, same t u = true ↔ t = u
  | ⟨k₁, n₁, u₁, o₁, c₁, ks₁, vs₁, d₁⟩, ⟨k₂, n₂, u₂, o₂, c₂, ks₂, vs₂, d₂⟩ => by
    simp only [same, Bool.and_eq_true, beq_iff_eq, sameAll_iff, TypeRef.mk.injEq, and_assoc]

theorem sameAll_iff : ∀ ts us : List TypeRef, sameAll ts us = true ↔ ts = us
  | [], [] => by simp [sameAll]
  | [], _ :: _ => by simp [sameAll]
  | _ :: _, [] => by simp [sameAll]
  | t :: ts, u :: us => by
    simp only [sameAll, Bool.and_eq_true, same_iff t u, sameAll_iff ts us, List.cons.injEq]

end

instance : DecidableEq TypeRef := fun t u => decidable_of_iff _ (same_iff t u)

end TypeRef

end ClassDocs
