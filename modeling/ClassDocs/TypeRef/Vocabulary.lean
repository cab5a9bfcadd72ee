import ClassDocs.TypeRef.Basic

/-!
# The vocabulary of type keywords

Which keywords stand for which builtins. The table is closed: a keyword outside it is a template
parameter, a pseudo-type kept as written, or a class.
-/

namespace ClassDocs.TypeRef

/-- The builtins that a pseudo-type stands for, given in lower case. `mixed` says nothing and
stands for no type; `void` stands for `null`. -/
def pseudoType? (keyword : String) : Option (List TypeRef) :=
  match keyword with
  | "integer" | "positive-int" | "negative-int" => some [builtin "int"]
  | "double" => some [builtin "float"]
  | "numeric-string" | "literal-string" | "trait-string" | "interface-string" | "class-string"
  | "html-escaped-string" | "lowercase-string" | "non-empty-string" => some [builtin "string"]
  | "scalar" => some [builtin "int", builtin "float", builtin "string", builtin "bool"]
  | "number" => some [builtin "int", builtin "float"]
  | "numeric" => some [builtin "int", builtin "float", builtin "string"]
  | "array-key" => some [builtin "string", builtin "int"]
  | "mixed" => some []
  | "void" | "null" => some [null]
  | _ => none

/-- The keywords that name a builtin under their own name, in lower case. -/
def builtinKeywords : List String :=
  ["int", "float", "string", "bool", "boolean", "true", "false", "object", "iterable",
    "never", "resource", "never-return", "never-returns", "no-return"]

end ClassDocs.TypeRef
