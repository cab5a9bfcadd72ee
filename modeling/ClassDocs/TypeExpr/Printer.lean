import ClassDocs.TypeExpr.Basic

/-!
# The text of a type expression

Members are joined without blanks, parameters and fields with a comma and a blank. Only the element
of an array type is ever put into parentheses, and only if it is a union or an intersection. A
conditional type is written as the union of its outcomes.
-/

namespace ClassDocs.TypeExpr

/-- Texts joined by a separator. -/
def joinTexts (sep : String) : List String → String
  | [] => ""
  | [t] => t
  | t :: u :: rest => t ++ sep ++ joinTexts sep (u :: rest)

/-- Whether the type needs parentheses before `[]`. -/
def isCompound : TypeExpr → Bool
  | .union _ | .inter _ => true
  | _ => false

/-- What stands before the type of a field. -/
def fieldLabel (key : Option String) (optional : Bool) : String :=
  match key with
  | some k => k ++ (if optional then "?" else "") ++ ": "
  | none => ""

mutual

/-- The text of a type expression. -/
def render : TypeExpr → String
  | .name text => text
  | .nullable inner => "?" ++ inner.render
  | .union members => joinTexts "|" (renderAll members)
  | .inter members => joinTexts "&" (renderAll members)
  | .array element =>
    if element.isCompound then "(" ++ element.render ++ ")[]" else element.render ++ "[]"
  | .generic base params => base ++ "<" ++ joinTexts ", " (renderAll params) ++ ">"
  | .shape base fields => base ++ "\x7b" ++ joinTexts ", " (renderFields fields) ++ "\x7d"
  | .callable base params result =>
    base ++ "(" ++ joinTexts ", " (renderAll params) ++ ")" ++ renderResult result
  | .literal lit => lit.written
  | .conditional yes no => "(" ++ yes.render ++ "|" ++ no.render ++ ")"

/-- The texts of several types. -/
def renderAll : List TypeExpr → List String
  | [] => []
  | t :: ts => t.render :: renderAll ts

/-- The texts of the fields of a shape. -/
def renderFields : List ShapeField → List String
  | [] => []
  | .mk key optional value :: fields =>
    (fieldLabel key optional ++ value.render) :: renderFields fields

/-- The text of a callable's result type. -/
def renderResult : Option TypeExpr → String
  | none => ""
  | some t => ": " ++ t.render

end

@[simp] theorem renderAll_eq_map (ts : List TypeExpr) : renderAll ts = ts.map render := by
  induction ts with
  | nil => rfl
  | cons t ts ih => simp [renderAll, ih]

end ClassDocs.TypeExpr
