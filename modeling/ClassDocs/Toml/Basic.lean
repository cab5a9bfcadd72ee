/-!
# TOML documents

A TOML document as a list of its lines: headers, each opening a table, and entries. Values are
texts, whole numbers, lists and tables. Truth values, fractions, dates and arrays of tables are
left out: no setting takes one, so a document that has one is refused like a malformed one.
-/

namespace ClassDocs.Toml

/-- A value. -/
inductive Value where
  | text (value : String)
  | integer (value : Int)
  | list (items : List Value)
  /-- A table between braces, with the paths of its keys. -/
  | table (entries : List (List String × Value))

/-- A line that says something. -/
inductive Line where
  /-- The start of the table at a path. -/
  | header (path : List String)
  | entry (path : List String) (value : Value)

end ClassDocs.Toml
