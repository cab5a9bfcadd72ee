/-!
# Path patterns

Patterns of ignore files. `?` stands for one byte and `*` for any number of bytes, none of them a
slash; `**` between slashes stands for any number of directories; brackets hold a class of
characters and braces several alternatives. What a pattern means is the set of what it can leave of
a path after matching its beginning.
-/

namespace ClassDocs.Ignore

/-- A piece of a pattern. -/
inductive GlobToken where
  | char (c : Char)
  | any
  | star
  /-- Any number of directories at the beginning of a path. -/
  | anyStart
  /-- Any number of directories within a path. -/
  | anyMiddle
  /-- Everything in a directory, at the end of a path. -/
  | anyEnd
  | oneOf (negated : Bool) (ranges : List (Char × Char))
  | alternatives (branches : List (List GlobToken))

/-- The slash as a byte. -/
def slash : UInt8 := 47

/-- Whether a byte is in a range of characters. Of characters of several bytes each byte counts by
itself. -/
def inRange (b : UInt8) (range : Char × Char) : Bool :=
  let low := String.utf8EncodeChar range.1
  let high := String.utf8EncodeChar range.2
  if range.1 == range.2 then low.contains b
  else low.dropLast.contains b || high.tail.contains b ||
    (low.getLast?.all (· ≤ b) && high.head?.all (b ≤ ·))

/-- What a leading part leaves of a list of bytes. -/
def dropBytes? : List UInt8 → List UInt8 → Option (List UInt8)
  | [], bs => some bs
  | _ :: _, [] => none
  | p :: ps, b :: bs => if p == b then dropBytes? ps bs else none

/-- What bytes other than slashes, any number of them, can leave. -/
def afterStar : List UInt8 → List (List UInt8)
  | [] => [[]]
  | b :: bs => (b :: bs) :: (if b == slash then [] else afterStar bs)

/-- What can be left after a slash. -/
def afterSlashes : List UInt8 → List (List UInt8)
  | [] => []
  | b :: bs => if b == slash then bs :: afterSlashes bs else afterSlashes bs

mutual

/-- What a piece can leave of a path. -/
def GlobToken.leave : GlobToken → List UInt8 → List (List UInt8)
  | .char c, bs => (dropBytes? (String.utf8EncodeChar c) bs).toList
  | .any, bs =>
    match bs with
    | b :: rest => if b == slash then [] else [rest]
    | [] => []
  | .star, bs => afterStar bs
  | .anyStart, bs => bs :: afterSlashes bs
  | .anyMiddle, bs =>
    match bs with
    | b :: rest => if b == slash then rest :: afterSlashes rest else []
    | [] => []
  | .anyEnd, bs => if bs.head? == some slash then [[]] else []
  | .oneOf negated ranges, bs =>
    match bs with
    | b :: rest => if ranges.any (inRange b) != negated then [rest] else []
    | [] => []
  | .alternatives branches, bs => leaveBranches branches bs

/-- What a pattern can leave of a path. -/
def leaveAll : List GlobToken → List UInt8 → List (List UInt8)
  | [], bs => [bs]
  | t :: ts, bs => (t.leave bs).flatMap (leaveAll ts)

/-- What one of several alternatives can leave of a path. -/
def leaveBranches : List (List GlobToken) → List UInt8 → List (List UInt8)
  | [], _ => []
  | branch :: branches, bs => leaveAll branch bs ++ leaveBranches branches bs

end

/-- Whether a pattern matches a path. The pattern of only `**` matches all. -/
def globMatches (pattern : List GlobToken) (path : String) : Bool :=
  match pattern with
  | [.anyStart] => true
  | _ => (leaveAll pattern path.toUTF8.toList).any List.isEmpty

/-! ## Reading patterns -/

/-- The ranges of a class after its opening bracket and negation. `first` tells that no character
was read, `waiting` that a range waits for its end. A class that is not closed or has a range that
runs backwards is malformed. -/
def readRanges :
    Bool → Bool → List (Char × Char) → List Char → Option (List (Char × Char) × List Char)
  | _, _, _, [] => none
  | first, waiting, ranges, c :: cs =>
    if c == ']' && !first then
      some (if waiting then ranges ++ [('-', '-')] else ranges, cs)
    else if waiting then
      match ranges.getLast? with
      | some (low, _) =>
        if c < low then none else readRanges false false (ranges.dropLast ++ [(low, c)]) cs
      | none => none
    else if c == '-' && !first then readRanges false true ranges cs
    else readRanges false false (ranges ++ [(c, c)]) cs

/-- A class after its opening bracket. -/
def readClass (cs : List Char) : Option (GlobToken × List Char) :=
  match cs with
  | '!' :: rest | '^' :: rest =>
    (readRanges true false [] rest).map fun (r, rest) => (.oneOf true r, rest)
  | _ => (readRanges true false [] cs).map fun (r, rest) => (.oneOf false r, rest)

/-- Two stars, with the tokens before them, last one first, and the character before them. They
stand for directories where they are a whole part of the path, else they are two single stars. The
result says whether a slash after them was taken. -/
def readStars (inGroup : Bool) (previous : Option Char) (before : List GlobToken)
    (cs : List Char) :
    List GlobToken × List Char × Bool :=
  let plain := (.star :: .star :: before, cs, false)
  match before with
  | [] =>
    match cs with
    | [] => ([.anyStart], [], false)
    | '/' :: rest => ([.anyStart], rest, true)
    | _ => plain
  | last :: earlier =>
    let alone :=
      previous == some '/' || (inGroup && (previous == some ',' || previous == some '\x7b'))
    let replace (t : GlobToken) : List GlobToken :=
      match last with
      | .anyStart => .anyStart :: earlier
      | .anyEnd => .anyEnd :: earlier
      | _ => t :: earlier
    if !alone then plain
    else
      match cs with
      | [] => (replace .anyEnd, [], false)
      | '/' :: rest => (replace .anyMiddle, rest, true)
      | c :: _ =>
        if inGroup && (c == ',' || c == '\x7d') then (replace .anyEnd, cs, false) else plain

/-- The tokens before a group, last one first, with the group. A group without alternatives is no
token. -/
def addGroup (branches : List (List GlobToken)) (before : List GlobToken) : List GlobToken :=
  if branches.isEmpty then before else .alternatives branches :: before

mutual

/-- The pieces of a pattern, or of one alternative of it up to its comma or closing brace. -/
def readTokens (inGroup : Bool) : Nat → Option Char → List GlobToken → List Char →
    Option (List GlobToken × List Char)
  | 0, _, _, _ => none
  | steps + 1, previous, before, cs =>
    match cs with
    | [] => if inGroup then none else some (before.reverse, [])
    | '?' :: rest => readTokens inGroup steps (some '?') (.any :: before) rest
    | '*' :: '*' :: rest =>
      let (before, rest, tookSlash) := readStars inGroup previous before rest
      readTokens inGroup steps (some (if tookSlash then '/' else '*')) before rest
    | '*' :: rest => readTokens inGroup steps (some '*') (.star :: before) rest
    | '[' :: rest => do
      let (token, rest) ← readClass rest
      readTokens inGroup steps (some ']') (token :: before) rest
    | '\x7b' :: rest => do
      let (branches, rest) ← readBranches steps '\x7b' rest
      readTokens inGroup steps (some '\x7d') (addGroup (branches.filter (!·.isEmpty)) before) rest
    | '\\' :: c :: rest => readTokens inGroup steps (some c) (.char c :: before) rest
    | ['\\'] => none
    | c :: rest =>
      if inGroup && (c == ',' || c == '\x7d') then some (before.reverse, cs)
      else if c == '\x7d' then none
      else readTokens inGroup steps (some c) (.char c :: before) rest

/-- The alternatives of a group after its opening brace or a comma. -/
def readBranches : Nat → Char → List Char → Option (List (List GlobToken) × List Char)
  | 0, _, _ => none
  | steps + 1, previous, cs => do
    let (branch, rest) ← readTokens true steps (some previous) [] cs
    match rest with
    | ',' :: rest => do
      let (branches, rest) ← readBranches steps ',' rest
      return (branch :: branches, rest)
    | _ :: rest => return ([branch], rest)
    | [] => none

end

/-- The pattern a text writes; none if it is malformed. -/
def parseGlob? (text : String) : Option (List GlobToken) :=
  (readTokens false (2 * text.length + 2) none [] text.toList).map Prod.fst

end ClassDocs.Ignore
