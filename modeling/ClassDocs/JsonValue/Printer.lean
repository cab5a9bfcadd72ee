import ClassDocs.JsonValue.Basic

/-!
# Writing JSON

Values are written over several lines, two blanks deeper at each level. Empty lists and objects
stay on one line. Of the characters in a text only quotes, backslashes and control characters are
escaped.
-/

namespace ClassDocs.JsonValue

/-- One of the sixteen digits of base sixteen. -/
def hexDigit (n : Nat) : Char := if n < 10 then Char.ofNat (48 + n) else Char.ofNat (87 + n)

/-- A character as it stands in a written text. -/
def escapeChar (c : Char) : List Char :=
  match c with
  | '"' => ['\\', '"']
  | '\\' => ['\\', '\\']
  | '\n' => ['\\', 'n']
  | '\r' => ['\\', 'r']
  | '\t' => ['\\', 't']
  | _ =>
    if c.toNat == 8 then ['\\', 'b']
    else if c.toNat == 12 then ['\\', 'f']
    else if c.toNat <
      32 then ['\\', 'u', '0', '0', hexDigit (c.toNat / 16), hexDigit (c.toNat % 16)]
    else [c]

/-- A text in quotes. -/
def quote (s : String) : String := "\"" ++ String.ofList (s.toList.flatMap escapeChar) ++ "\""

/-- The start of a line at a depth. -/
def lineStart (depth : Nat) : String := "\n" ++ String.ofList (List.replicate (2 * depth) ' ')

/-- Written items between brackets, one a line, at the depth of the brackets. -/
def bracket (opening closing : String) (depth : Nat) : List String → String
  | [] => opening ++ closing
  | item :: items =>
    opening ++ lineStart (depth + 1) ++ item ++
      items.foldl (fun out next => out ++ "," ++ lineStart (depth + 1) ++ next) "" ++
      lineStart depth ++ closing

mutual

/-- A value as written at a depth. -/
def renderAt (depth : Nat) : JsonValue → String
  | .null => "null"
  | .bool true => "true"
  | .bool false => "false"
  | .number written => written
  | .text s => quote s
  | .list items => bracket "[" "]" depth (renderItems (depth + 1) items)
  | .object entries => bracket "\x7b" "\x7d" depth (renderEntries (depth + 1) entries)

/-- Items as written at a depth. -/
def renderItems (depth : Nat) : List JsonValue → List String
  | [] => []
  | v :: vs => renderAt depth v :: renderItems depth vs

/-- Entries as written at a depth. -/
def renderEntries (depth : Nat) : List (String × JsonValue) → List String
  | [] => []
  | (key, v) :: rest => (quote key ++ ": " ++ renderAt depth v) :: renderEntries depth rest

end

/-- A value as written, without a line break at its end. -/
def render (v : JsonValue) : String := renderAt 0 v

end ClassDocs.JsonValue
