import ClassDocs.JsonValue.Reader
import ClassDocs.Text.Blank
import ClassDocs.Toml.Basic

/-!
# Reading TOML

The readers take the characters that are left and give what they read with the rest, or nothing
where the document is malformed. Those that repeat or nest take a bound on the number of steps,
which the number of characters covers.
-/

namespace ClassDocs.Toml

/-- White space within a line. -/
def isInline (c : Char) : Bool := c == ' ' || c == '\t'

/-- Control characters, which may stand nowhere but for tabs and line breaks. -/
def isControl (c : Char) : Bool := (c.toNat < 32 && c != '\t') || c.toNat == 127

/-- The characters of bare keys. -/
def isBare (c : Char) : Bool := c.isAlphanum || c == '_' || c == '-'

/-- What follows a line break. -/
def dropBreak? : List Char → Option (List Char)
  | '\n' :: rest => some rest
  | '\r' :: '\n' :: rest => some rest
  | _ => none

/-- What follows a comment, after its sign: the line break, or nothing. -/
def dropComment? (cs : List Char) : Option (List Char) :=
  let comment := cs.takeWhile (· != '\n')
  let rest := cs.dropWhile (· != '\n')
  let comment := if rest.isEmpty then comment else
    match comment.getLast? with
    | some '\r' => comment.dropLast
    | _ => comment
  if comment.any isControl then none else some rest

/-- What follows the end of a line: white space, perhaps a comment, and a line break or the end. -/
def endLine? (cs : List Char) : Option (List Char) :=
  match cs.dropWhile isInline with
  | [] => some []
  | '#' :: rest => (dropComment? rest).map fun rest => (dropBreak? rest).getD rest
  | rest => dropBreak? rest

/-- What follows white space, comments and line breaks. -/
def skipFiller : Nat → List Char → Option (List Char)
  | 0, _ => none
  | steps + 1, cs =>
    match cs.dropWhile isInline with
    | '#' :: rest => do skipFiller steps (← dropComment? rest)
    | rest =>
      match dropBreak? rest with
      | some rest => skipFiller steps rest
      | none => some rest

/-! ## Texts -/

/-- The character with the number that some digits of base sixteen write. -/
def readCode : Nat → Nat → List Char → Option (Char × List Char)
  | 0, n, cs => if n.isValidChar then some (Char.ofNat n, cs) else none
  | digits + 1, n, c :: cs => do readCode digits (n * 16 + (← JsonValue.hexValue? c)) cs
  | _ + 1, _, [] => none

/-- The character of an escape, after its backslash. -/
def readEscape : List Char → Option (Char × List Char)
  | '"' :: rest => some ('"', rest)
  | '\\' :: rest => some ('\\', rest)
  | 'b' :: rest => some (Char.ofNat 8, rest)
  | 't' :: rest => some ('\t', rest)
  | 'n' :: rest => some ('\n', rest)
  | 'f' :: rest => some (Char.ofNat 12, rest)
  | 'r' :: rest => some ('\r', rest)
  | 'e' :: rest => some (Char.ofNat 27, rest)
  | 'x' :: rest => readCode 2 0 rest
  | 'u' :: rest => readCode 4 0 rest
  | 'U' :: rest => readCode 8 0 rest
  | _ => none

/-- The characters of a text between double quotes, after the opening one. -/
def readBasic : Nat → List Char → Option (List Char × List Char)
  | 0, _ => none
  | steps + 1, cs =>
    match cs with
    | '"' :: rest => some ([], rest)
    | '\\' :: rest => do
      let (c, rest) ← readEscape rest
      let (chars, rest) ← readBasic steps rest
      return (c :: chars, rest)
    | c :: rest =>
      if isControl c then none
      else do
        let (chars, rest) ← readBasic steps rest
        return (c :: chars, rest)
    | [] => none

/-- The characters of a text between single quotes, after the opening one. -/
def readLiteral (cs : List Char) : Option (List Char × List Char) :=
  let chars := cs.takeWhile (· != '\'')
  match cs.dropWhile (· != '\'') with
  | _ :: rest => if chars.any isControl then none else some (chars, rest)
  | [] => none

/-- White space and line breaks skipped after a backslash at the end of a line; none if text
follows the backslash. -/
def dropFold? (cs : List Char) : Option (List Char) :=
  (dropBreak? (cs.dropWhile isInline)).map fun rest =>
    rest.dropWhile fun c => isInline c || c == '\n' || c == '\r'

/-- The characters of a text of several lines, after its opening quotes. Up to two quotes more than
the closing three belong to the text; only texts in double quotes have escapes. -/
def readLong (quote : Char) : Nat → List Char → Option (List Char × List Char)
  | 0, _ => none
  | steps + 1, cs =>
    match cs with
    | [] => none
    | c :: rest =>
      if c == quote then
        let run := (cs.takeWhile (· == quote)).length
        if run ≥ 6 then none
        else if run ≥ 3 then some (List.replicate (run - 3) quote, cs.drop run)
        else do
          let (chars, rest) ← readLong quote steps (cs.drop run)
          return (List.replicate run quote ++ chars, rest)
      else if c == '\\' && quote == '"' then
        match dropFold? rest with
        | some rest => readLong quote steps rest
        | none => do
          let (c, rest) ← readEscape rest
          let (chars, rest) ← readLong quote steps rest
          return (c :: chars, rest)
      else
        match dropBreak? cs with
        | some after => do
          let (chars, rest) ← readLong quote steps after
          return (cs.take (cs.length - after.length) ++ chars, rest)
        | none =>
          if isControl c then none
          else do
            let (chars, rest) ← readLong quote steps rest
            return (c :: chars, rest)

/-- A text of several lines; a line break right after the opening quotes is dropped. -/
def readLongText (quote : Char) (cs : List Char) : Option (String × List Char) := do
  let (chars, rest) ← readLong quote (cs.length + 1) ((dropBreak? cs).getD cs)
  return (.ofList chars, rest)

/-! ## Keys -/

/-- One key: bare or in quotes. -/
def readKey (cs : List Char) : Option (String × List Char) :=
  match cs with
  | '"' :: rest => do
    let (chars, rest) ← readBasic (rest.length + 1) rest
    return (.ofList chars, rest)
  | '\'' :: rest => do
    let (chars, rest) ← readLiteral rest
    return (.ofList chars, rest)
  | _ =>
    match cs.takeWhile isBare with
    | [] => none
    | chars => some (.ofList chars, cs.dropWhile isBare)

/-- Keys with dots between them. -/
def readPath : Nat → List Char → Option (List String × List Char)
  | 0, _ => none
  | steps + 1, cs => do
    let (key, rest) ← readKey (cs.dropWhile isInline)
    match rest.dropWhile isInline with
    | '.' :: rest => do
      let (keys, rest) ← readPath steps rest
      return (key :: keys, rest)
    | rest => return ([key], rest)

/-! ## Values -/

/-- The number that digits of a base write; single underscores may stand between digits. -/
def natOfDigits? (base : Nat) (cs : List Char) : Option Nat :=
  let groups := Text.splitOnChar '_' cs
  if groups.any List.isEmpty then none
  else groups.flatten.foldlM (fun n c => do
    let d ← JsonValue.hexValue? c
    if d < base then return n * base + d else none) 0

/-- A whole number: decimal with an optional sign and no leading zeros, or of base sixteen, eight
or two without a sign. -/
def integerOf? (word : List Char) : Option Int :=
  match word with
  | '0' :: 'x' :: digits => (natOfDigits? 16 digits).map Int.ofNat
  | '0' :: 'o' :: digits => (natOfDigits? 8 digits).map Int.ofNat
  | '0' :: 'b' :: digits => (natOfDigits? 2 digits).map Int.ofNat
  | '+' :: digits => (decimal? digits).map Int.ofNat
  | '-' :: digits => (decimal? digits).map fun n => -(Int.ofNat n)
  | digits => (decimal? digits).map Int.ofNat
where
  /-- A decimal number without leading zeros. -/
  decimal? : List Char → Option Nat
    | ['0'] => some 0
    | '0' :: _ => none
    | digits => natOfDigits? 10 digits

/-- A word that is not in quotes, as a whole number. -/
def readInteger (cs : List Char) : Option (Value × List Char) :=
  let inWord (c : Char) : Bool := isBare c || c == '+' || c == '.' || c == ':'
  (integerOf? (cs.takeWhile inWord)).map fun n => (.integer n, cs.dropWhile inWord)

mutual

/-- A value. -/
def readValue : Nat → List Char → Option (Value × List Char)
  | 0, _ => none
  | steps + 1, cs =>
    match cs.dropWhile isInline with
    | '"' :: '"' :: '"' :: rest => do
      let (s, rest) ← readLongText '"' rest
      return (.text s, rest)
    | '\'' :: '\'' :: '\'' :: rest => do
      let (s, rest) ← readLongText '\'' rest
      return (.text s, rest)
    | '"' :: rest => do
      let (chars, rest) ← readBasic (rest.length + 1) rest
      return (.text (.ofList chars), rest)
    | '\'' :: rest => do
      let (chars, rest) ← readLiteral rest
      return (.text (.ofList chars), rest)
    | '[' :: rest => do
      let (items, rest) ← readItems steps rest
      return (.list items, rest)
    | '\x7b' :: rest => do
      let (entries, rest) ← readEntries steps rest
      return (.table entries, rest)
    | rest => readInteger rest

/-- The items of a list up to its closing bracket. -/
def readItems : Nat → List Char → Option (List Value × List Char)
  | 0, _ => none
  | steps + 1, cs => do
    match ← skipFiller (cs.length + 1) cs with
    | ']' :: rest => return ([], rest)
    | rest => do
      let (item, rest) ← readValue steps rest
      match ← skipFiller (rest.length + 1) rest with
      | ',' :: rest => do
        let (items, rest) ← readItems steps rest
        return (item :: items, rest)
      | ']' :: rest => return ([item], rest)
      | _ => none

/-- The entries of a table up to its closing brace. -/
def readEntries : Nat → List Char → Option (List (List String × Value) × List Char)
  | 0, _ => none
  | steps + 1, cs => do
    match ← skipFiller (cs.length + 1) cs with
    | '\x7d' :: rest => return ([], rest)
    | rest => do
      let (path, rest) ← readPath (rest.length + 1) rest
      match rest with
      | '=' :: rest => do
        let (item, rest) ← readValue steps rest
        match ← skipFiller (rest.length + 1) rest with
        | ',' :: rest => do
          let (entries, rest) ← readEntries steps rest
          return ((path, item) :: entries, rest)
        | '\x7d' :: rest => return ([(path, item)], rest)
        | _ => none
      | _ => none

end

/-! ## Lines -/

/-- A header after its opening bracket. -/
def readHeader (cs : List Char) : Option (Line × List Char) := do
  let (path, rest) ← readPath (cs.length + 1) cs
  match rest with
  | ']' :: rest => return (.header path, ← endLine? rest)
  | _ => none

/-- An entry. -/
def readEntry (cs : List Char) : Option (Line × List Char) := do
  let (path, rest) ← readPath (cs.length + 1) cs
  match rest with
  | '=' :: rest => do
    let (v, rest) ← readValue (2 * rest.length + 2) rest
    return (.entry path v, ← endLine? rest)
  | _ => none

/-- The lines of a document that say something. -/
def readLines : Nat → List Char → Option (List Line)
  | 0, _ => none
  | steps + 1, cs => do
    match ← skipFiller (cs.length + 1) cs with
    | [] => return []
    | '[' :: rest => do
      let (line, rest) ← readHeader rest
      return line :: (← readLines steps rest)
    | rest => do
      let (line, rest) ← readEntry rest
      return line :: (← readLines steps rest)

/-- The lines of a document; none if it is malformed. A byte order mark in front is skipped. -/
def parse? (document : String) : Option (List Line) :=
  let cs := document.toList
  let cs := if cs.head? == some (Char.ofNat 0xFEFF) then cs.drop 1 else cs
  readLines (cs.length + 1) cs

end ClassDocs.Toml
