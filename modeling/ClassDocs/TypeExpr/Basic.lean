/-!
# Type expressions

A type as it is written in a doc comment or as a native declaration: names, `?T`, unions,
intersections, `T[]`, generics, shapes, callable signatures, literals and conditional types. The
tree keeps every name and literal as written; what a name *means* is decided later, against the
scope it stands in.
-/

namespace ClassDocs

/-- A literal type, with its text as written. Text literals keep their quotes. -/
inductive Literal where
  | text (written : String)
  | int (written : String)
  | float (written : String)
  deriving DecidableEq, Repr

/-- The text of a literal as written. -/
def Literal.written : Literal → String
  | .text w | .int w | .float w => w

mutual

/-- A type expression. -/
inductive TypeExpr where
  /-- A keyword or class name as written: `int`, `positive-int`, `\Foo\Bar`, `$this`. -/
  | name (text : String)
  /-- `?T` -/
  | nullable (inner : TypeExpr)
  | union (members : List TypeExpr)
  | inter (members : List TypeExpr)
  /-- `T[]` -/
  | array (element : TypeExpr)
  /-- `array<K, V>`, `list<T>`, `Collection<T>`, `class-string<T>`, `int<0, max>` -/
  | generic (base : String) (params : List TypeExpr)
  /-- `array{id: int, name?: string}`, `list{int, string}` -/
  | shape (base : String) (fields : List ShapeField)
  /-- `callable(int, string): bool` -/
  | callable (base : String) (params : List TypeExpr) (result : Option TypeExpr)
  | literal (lit : Literal)
  /-- `($param is T ? A : B)`; only the two outcomes are kept. -/
  | conditional (yes no : TypeExpr)

/-- One field of a shape. -/
inductive ShapeField where
  | mk (key : Option String) (optional : Bool) (value : TypeExpr)

end

instance : Inhabited TypeExpr := ⟨.name ""⟩

/-- The key of a field, without quotes. -/
def ShapeField.key : ShapeField → Option String
  | .mk key _ _ => key

/-- Whether the field may be missing. -/
def ShapeField.optional : ShapeField → Bool
  | .mk _ optional _ => optional

/-- The type of the field. -/
def ShapeField.value : ShapeField → TypeExpr
  | .mk _ _ value => value

namespace TypeExpr

/-- The names that open a shape when `{` follows, in lower case. -/
def shapeBases : List String :=
  ["array", "list", "non-empty-array", "non-empty-list", "object"]

/-- The names that open a callable signature when `(` follows, in lower case. -/
def callableBases : List String :=
  ["callable", "closure", "\\closure", "pure-callable", "pure-closure"]

/-! ## Equality is decidable -/

mutual

/-- Equality of type expressions. -/
def same : TypeExpr → TypeExpr → Bool
  | .name a, .name b => a == b
  | .nullable t, .nullable u => same t u
  | .union ts, .union us => sameAll ts us
  | .inter ts, .inter us => sameAll ts us
  | .array t, .array u => same t u
  | .generic a ts, .generic b us => a == b && sameAll ts us
  | .shape a fs, .shape b gs => a == b && sameFields fs gs
  | .callable a ts r, .callable b us s => a == b && sameAll ts us && sameResult r s
  | .literal a, .literal b => a == b
  | .conditional t t', .conditional u u' => same t u && same t' u'
  | _, _ => false

/-- Equality of lists of type expressions. -/
def sameAll : List TypeExpr → List TypeExpr → Bool
  | [], [] => true
  | t :: ts, u :: us => same t u && sameAll ts us
  | _, _ => false

/-- Equality of the fields of shapes. -/
def sameFields : List ShapeField → List ShapeField → Bool
  | [], [] => true
  | .mk k o t :: fs, .mk k' o' u :: gs => k == k' && o == o' && same t u && sameFields fs gs
  | _, _ => false

/-- Equality of the results of callables. -/
def sameResult : Option TypeExpr → Option TypeExpr → Bool
  | none, none => true
  | some t, some u => same t u
  | _, _ => false

end

mutual

theorem same_iff : ∀ t u : TypeExpr, same t u = true ↔ t = u
  | .name _, u | .literal _, u => by cases u <;> simp [same]
  | .nullable t, u | .array t, u => by cases u <;> simp [same, same_iff t]
  | .union ts, u | .inter ts, u => by cases u <;> simp [same, sameAll_iff ts]
  | .generic _ ts, u => by cases u <;> simp [same, sameAll_iff ts]
  | .shape _ fs, u => by cases u <;> simp [same, sameFields_iff fs]
  | .callable _ ts r, u => by cases u <;> simp [same, sameAll_iff ts, sameResult_iff r, and_assoc]
  | .conditional t t', u => by cases u <;> simp [same, same_iff t, same_iff t']

theorem sameAll_iff : ∀ ts us : List TypeExpr, sameAll ts us = true ↔ ts = us
  | [], us => by cases us <;> simp [sameAll]
  | t :: ts, us => by cases us <;> simp [sameAll, same_iff t, sameAll_iff ts]

theorem sameFields_iff : ∀ fs gs : List ShapeField, sameFields fs gs = true ↔ fs = gs
  | [], gs => by cases gs <;> simp [sameFields]
  | .mk _ _ t :: fs, [] => by simp [sameFields]
  | .mk _ _ t :: fs, .mk _ _ u :: gs => by
    simp [sameFields, same_iff t, sameFields_iff fs, and_assoc]

theorem sameResult_iff : ∀ r s : Option TypeExpr, sameResult r s = true ↔ r = s
  | none, s => by cases s <;> simp [sameResult]
  | some t, s => by cases s <;> simp [sameResult, same_iff t]

end

instance : DecidableEq TypeExpr := fun t u => decidable_of_iff _ (same_iff t u)

end TypeExpr

/-- Why a text is not a type. -/
inductive TypeError where
  | unexpectedEnd
  | unexpected (found : String) (offset : Nat)
  | trailing (rest : String)
  deriving DecidableEq, Repr

/-- The wording of a type error. -/
def TypeError.message : TypeError → String
  | .unexpectedEnd => "unexpected end of type"
  | .unexpected found offset => s!"unexpected `{found}` at offset {offset}"
  | .trailing rest => s!"trailing input `{rest}`"

end ClassDocs
