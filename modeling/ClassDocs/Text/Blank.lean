/-!
# Blanks, trimming and lines

What counts as white space decides where a token of a type ends, what a tag's text is trimmed of
and which lines of a comment are empty. The class is the Unicode property `White_Space`, so a
no-break space and an ideographic space separate tokens while a zero-width no-break space does not.

All text functions of the library work on the list of characters of a string; the `String` versions
here only wrap them.
-/

namespace ClassDocs.Text

/-- The characters with the Unicode property `White_Space`. -/
def isBlank (c : Char) : Bool :=
  let n := c.toNat
  (9 ≤ n && n ≤ 13) || n == 32 || n == 0x85 || n == 0xA0 || n ==
    0x1680 || (0x2000 ≤ n && n ≤ 0x200A)
    || n == 0x2028 || n == 0x2029 || n == 0x202F || n == 0x205F || n == 0x3000

/-- The white space of ASCII without the vertical tab: what may stand between a comment and the
declaration it documents. -/
def isAsciiBlank (c : Char) : Bool :=
  c == ' ' || c == '\t' || c == '\n' || c == '\r' || c == '\x0c'

/-- Drop the characters satisfying `p` from the end of a list. -/
def dropEndWhile (p : Char → Bool) (cs : List Char) : List Char :=
  (cs.reverse.dropWhile p).reverse

/-- Drop the characters satisfying `p` from both ends of a list. -/
def stripWhile (p : Char → Bool) (cs : List Char) : List Char :=
  dropEndWhile p (cs.dropWhile p)

/-- Drop leading white space. -/
def trimStart (cs : List Char) : List Char := cs.dropWhile isBlank

/-- Drop trailing white space. -/
def trimEnd (cs : List Char) : List Char := dropEndWhile isBlank cs

/-- Drop white space at both ends. -/
def trim (cs : List Char) : List Char := stripWhile isBlank cs

/-- The text with white space dropped at both ends. -/
def trimText (s : String) : String := .ofList (trim s.toList)

/-- Drop the characters satisfying `p` from both ends of a text. -/
def stripText (p : Char → Bool) (s : String) : String := .ofList (stripWhile p s.toList)

/-- Drop the characters satisfying `p` from the end of a text. -/
def stripTextEnd (p : Char → Bool) (s : String) : String := .ofList (dropEndWhile p s.toList)

/-- The parts of a list between the characters equal to `sep`; a list without `sep` is one part. -/
def splitOnChar (sep : Char) : List Char → List (List Char)
  | [] => [[]]
  | c :: cs =>
    match splitOnChar sep cs with
    | [] => [[c]]
    | part :: parts => if c = sep then [] :: part :: parts else (c :: part) :: parts

/-- One carriage return dropped from the end of a line. -/
def dropReturn (line : List Char) : List Char :=
  match line.getLast? with
  | some '\r' => line.dropLast
  | _ => line

/-- The lines of a text. A line ends at a line feed, one carriage return before the line feed
belongs to the line end, and a final line feed starts no further line. A carriage return at the
very end of a text without a final line feed stays. -/
def lines (cs : List Char) : List (List Char) :=
  let parts := splitOnChar '\n' cs
  let complete := parts.dropLast.map dropReturn
  match parts.getLast? with
  | none | some [] => complete
  | some last => complete ++ [last]

/-- The prefix `pre` taken off a list, if the list starts with it. -/
def dropPrefix? (pre : List Char) (cs : List Char) : Option (List Char) :=
  if pre.isPrefixOf cs then some (cs.drop pre.length) else none

/-- The suffix `suf` taken off a list, if the list ends with it. -/
def dropSuffix? (suf : List Char) (cs : List Char) : Option (List Char) :=
  (dropPrefix? suf.reverse cs.reverse).map List.reverse

end ClassDocs.Text
