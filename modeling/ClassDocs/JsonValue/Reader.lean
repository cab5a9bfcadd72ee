import ClassDocs.JsonValue.Basic

/-!
# Reading JSON

The strict format: no comments, no trailing commas, no bare control characters in texts, no lone
surrogates, no numbers beyond the range of double precision, and at most 127 levels of lists and
objects. A key that is repeated in an object keeps the place of its first appearance and takes its
last value.
-/

namespace ClassDocs.JsonValue

/-- The characters allowed between the parts of a value. -/
def isSpace (c : Char) : Bool := c == ' ' || c == '\n' || c == '\t' || c == '\r'

/-- The number a digit of base sixteen stands for. -/
def hexValue? (c : Char) : Option Nat :=
  if '0' ≤ c && c ≤ '9' then some (c.toNat - 48)
  else if 'a' ≤ c && c ≤ 'f' then some (c.toNat - 87)
  else if 'A' ≤ c && c ≤ 'F' then some (c.toNat - 55)
  else none

/-- The number written by four digits of base sixteen, and the rest. -/
def readHex : List Char → Option (Nat × List Char)
  | a :: b :: c :: d :: rest => do
    let a ← hexValue? a
    let b ← hexValue? b
    let c ← hexValue? c
    let d ← hexValue? d
    return (((a * 16 + b) * 16 + c) * 16 + d, rest)
  | _ => none

/-- The character of a numeric escape, after `\u`. Two surrogates make one character; one alone is
an error. -/
def readCode (cs : List Char) : Option (Char × List Char) := do
  let (n, rest) ← readHex cs
  if 0xDC00 ≤ n && n ≤ 0xDFFF then none
  else if 0xD800 ≤ n && n ≤ 0xDBFF then
    match rest with
    | '\\' :: 'u' :: rest => do
      let (m, rest) ← readHex rest
      if 0xDC00 ≤ m && m ≤ 0xDFFF then
        return (Char.ofNat (0x10000 + (n - 0xD800) * 0x400 + (m - 0xDC00)), rest)
      else none
    | _ => none
  else return (Char.ofNat n, rest)

/-- The character of an escape, after its backslash. -/
def readEscape : List Char → Option (Char × List Char)
  | '"' :: rest => some ('"', rest)
  | '\\' :: rest => some ('\\', rest)
  | '/' :: rest => some ('/', rest)
  | 'b' :: rest => some (Char.ofNat 8, rest)
  | 'f' :: rest => some (Char.ofNat 12, rest)
  | 'n' :: rest => some ('\n', rest)
  | 'r' :: rest => some ('\r', rest)
  | 't' :: rest => some ('\t', rest)
  | 'u' :: rest => readCode rest
  | _ => none

/-- The characters of a text after its opening quote, and what follows the closing one. The bound
counts characters of the text. -/
def readText : Nat → List Char → Option (List Char × List Char)
  | 0, _ => none
  | bound + 1, cs =>
    match cs with
    | '"' :: rest => some ([], rest)
    | '\\' :: rest => do
      let (c, rest) ← readEscape rest
      let (chars, rest) ← readText bound rest
      return (c :: chars, rest)
    | c :: rest => do
      if c.toNat < 32 then none
      else
        let (chars, rest) ← readText bound rest
        return (c :: chars, rest)
    | [] => none

/-- The value of decimal digits. -/
def natOf (digits : List Char) : Nat := digits.foldl (fun n c => n * 10 + (c.toNat - 48)) 0

/-- Whether `digits` times ten to the power of `exponent` rounds to a finite number of double
precision. -/
def isFinite (digits : List Char) (exponent : Int) : Bool :=
  let significant := digits.dropWhile (· == '0')
  let magnitude := significant.length + exponent
  let limit := Nat.pow 2 1024 - Nat.pow 2 970
  if significant.isEmpty || magnitude ≤ 300 then true
  else if magnitude ≥ 400 then false
  else if 0 ≤ exponent then natOf significant * Nat.pow 10 exponent.toNat < limit
  else natOf significant < limit * Nat.pow 10 (-exponent).toNat

/-- The digits of the part of a number before the point. -/
def readWhole : List Char → Option (List Char × List Char)
  | '0' :: rest => if rest.head?.any Char.isDigit then none else some (['0'], rest)
  | cs =>
    match cs.takeWhile Char.isDigit with
    | [] => none
    | digits => some (digits, cs.dropWhile Char.isDigit)

/-- The digits after the point, if there is one. -/
def readFraction : List Char → Option (List Char × List Char)
  | '.' :: rest =>
    match rest.takeWhile Char.isDigit with
    | [] => none
    | digits => some (digits, rest.dropWhile Char.isDigit)
  | cs => some ([], cs)

/-- The exponent, if there is one. -/
def readExponent : List Char → Option (Int × List Char)
  | c :: rest =>
    if c == 'e' || c == 'E' then
      let (negative, rest) := match rest with
        | '-' :: rest => (true, rest)
        | '+' :: rest => (false, rest)
        | _ => (false, rest)
      match rest.takeWhile Char.isDigit with
      | [] => none
      | digits =>
        let n : Int := natOf digits
        some (if negative then -n else n, rest.dropWhile Char.isDigit)
    else some (0, c :: rest)
  | [] => some (0, [])

/-- A number, as written. -/
def readNumber (cs : List Char) : Option (JsonValue × List Char) := do
  let unsigned := match cs with
    | '-' :: rest => rest
    | _ => cs
  let (whole, rest) ← readWhole unsigned
  let (fraction, rest) ← readFraction rest
  let (exponent, rest) ← readExponent rest
  if isFinite (whole ++ fraction) (exponent - fraction.length) then
    return (.number (.ofList (cs.take (cs.length - rest.length))), rest)
  else none

/-- The text after an opening quote, with its quotes gone. -/
def readQuoted (cs : List Char) : Option (String × List Char) := do
  let (chars, rest) ← readText (cs.length + 1) cs
  return (.ofList chars, rest)

mutual

/-- A value and what follows it. `steps` bounds the recursion; `depth` is one more than the number
of levels that may still be opened. -/
def readValue : Nat → Nat → List Char → Option (JsonValue × List Char)
  | 0, _, _ => none
  | steps + 1, depth, cs =>
    match cs.dropWhile isSpace with
    | 'n' :: 'u' :: 'l' :: 'l' :: rest => some (.null, rest)
    | 't' :: 'r' :: 'u' :: 'e' :: rest => some (.bool true, rest)
    | 'f' :: 'a' :: 'l' :: 's' :: 'e' :: rest => some (.bool false, rest)
    | '"' :: rest => do
      let (s, rest) ← readQuoted rest
      return (.text s, rest)
    | '[' :: rest =>
      if depth ≤ 1 then none
      else
        match rest.dropWhile isSpace with
        | ']' :: rest => some (.list [], rest)
        | _ => do
          let (items, rest) ← readItems steps (depth - 1) rest
          return (.list items, rest)
    | '\x7b' :: rest =>
      if depth ≤ 1 then none
      else
        match rest.dropWhile isSpace with
        | '\x7d' :: rest => some (.object [], rest)
        | _ => do
          let (entries, rest) ← readEntries steps (depth - 1) rest
          return (.object (Table.ofList entries).entries, rest)
    | cs => readNumber cs

/-- The items of a list that is not empty, up to its closing bracket. -/
def readItems : Nat → Nat → List Char → Option (List JsonValue × List Char)
  | 0, _, _ => none
  | steps + 1, depth, cs => do
    let (item, rest) ← readValue steps depth cs
    match rest.dropWhile isSpace with
    | ',' :: rest => do
      let (items, rest) ← readItems steps depth rest
      return (item :: items, rest)
    | ']' :: rest => return ([item], rest)
    | _ => none

/-- The entries of an object that is not empty, up to its closing brace. -/
def readEntries : Nat → Nat → List Char → Option (List (String × JsonValue) × List Char)
  | 0, _, _ => none
  | steps + 1, depth, cs =>
    match cs.dropWhile isSpace with
    | '"' :: rest => do
      let (key, rest) ← readQuoted rest
      match rest.dropWhile isSpace with
      | ':' :: rest => do
        let (item, rest) ← readValue steps depth rest
        match rest.dropWhile isSpace with
        | ',' :: rest => do
          let (entries, rest) ← readEntries steps depth rest
          return ((key, item) :: entries, rest)
        | '\x7d' :: rest => return ([(key, item)], rest)
        | _ => none
      | _ => none
    | _ => none

end

/-- The value a text holds; none if the text is not JSON. -/
def parse? (s : String) : Option JsonValue := do
  let cs := s.toList
  let (v, rest) ← readValue (2 * cs.length + 2) 128 cs
  if rest.all isSpace then return v else none

end ClassDocs.JsonValue
