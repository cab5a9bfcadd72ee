import ClassDocs.Table

/-!
# JSON values

A value of the JSON data format. An object is a list of its entries in order; numbers are kept as
written.
-/

namespace ClassDocs

/-- A JSON value. -/
inductive JsonValue where
  | null
  | bool (value : Bool)
  | number (written : String)
  | text (value : String)
  | list (items : List JsonValue)
  | object (entries : List (String × JsonValue))

namespace JsonValue

instance : Inhabited JsonValue := ⟨.null⟩

/-- The value of a field; none if the value is not an object or has no such field. -/
def field? (key : String) : JsonValue → Option JsonValue
  | .object entries => entries.lookup key
  | _ => none

/-- The entries of an object; none for other values. -/
def entries? : JsonValue → Option (List (String × JsonValue))
  | .object entries => some entries
  | _ => none

/-- The text of a text value. -/
def text? : JsonValue → Option String
  | .text s => some s
  | _ => none

/-- The list of texts. -/
def ofTexts (texts : List String) : JsonValue := .list (texts.map .text)

/-- An object field that is left out if there is no value. -/
def optional (key : String) (value : Option JsonValue) : List (String × JsonValue) :=
  match value with
  | some v => [(key, v)]
  | none => []

end JsonValue

end ClassDocs
