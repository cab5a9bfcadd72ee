import ClassDocs.Ignore.Glob
import ClassDocs.Text.Blank

/-!
# Ignore files

Each line of an ignore file is a rule on the paths below its directory. A rule without a slash
applies at any depth, one with a slash from the directory of the file; a slash at its end restricts
it to directories, and an exclamation mark in front makes it a rule to keep. The last rule that
matches decides.
-/

namespace ClassDocs.Ignore

open ClassDocs.Text

/-- A rule of an ignore file. -/
structure Rule where
  pattern : List GlobToken
  /-- A rule to keep what it matches. -/
  keeps : Bool
  dirsOnly : Bool

/-- What rules say about a path. -/
inductive Verdict where
  | ignored
  | kept
  deriving DecidableEq

/-- A line without the white space at its end, unless that is escaped. -/
def trimRule (line : List Char) : List Char :=
  if (dropSuffix? ['\\', ' '] line).isSome then line else trimEnd line

/-- The marks in front of a rule: whether it keeps, whether it is bound to its directory, and the
rest. -/
def readMarks : List Char → Bool × Bool × List Char
  | '\\' :: '!' :: rest => (false, false, '!' :: rest)
  | '\\' :: '#' :: rest => (false, false, '#' :: rest)
  | '!' :: '/' :: rest => (true, true, rest)
  | '!' :: rest => (true, false, rest)
  | '/' :: rest => (false, true, rest)
  | cs => (false, false, cs)

/-- A rule without the slash at its end, which restricts it to directories. -/
def readDirMark (cs : List Char) : Bool × List Char :=
  match dropSuffix? ['/'] cs with
  | some rest => (true, (dropSuffix? ['\\'] rest).getD rest)
  | none => (false, cs)

/-- The pattern of a rule as it is matched against whole paths. -/
def wholePattern (bound : Bool) (cs : List Char) : List Char :=
  let anywhere := !bound && !cs.contains '/' && cs != ['*', '*']
  let cs := if anywhere then '*' :: '*' :: '/' :: cs else cs
  if (dropSuffix? ['/', '*', '*'] cs).isSome then cs ++ ['/', '*'] else cs

/-- The rule on a line. Comments, blank lines and malformed patterns give none. -/
def Rule.ofLine? (line : List Char) : Option Rule :=
  if line.head? == some '#' then none
  else
    let line := trimRule line
    if line.isEmpty then none
    else
      let (keeps, bound, rest) := readMarks line
      let (dirsOnly, rest) := readDirMark rest
      (parseGlob? (.ofList (wholePattern bound rest))).map fun pattern =>
        ⟨pattern, keeps, dirsOnly⟩

/-- The rules of an ignore file. A byte order mark in front is skipped. -/
def rulesOf (content : String) : List Rule :=
  let cs := content.toList.dropWhile (· == Char.ofNat 0xFEFF)
  (lines cs).filterMap Rule.ofLine?

/-- What the rules of a file say about a path below its directory. -/
def verdict? (rules : List Rule) (path : String) (isDir : Bool) : Option Verdict :=
  (rules.reverse.find? fun r => (isDir || !r.dirsOnly) && globMatches r.pattern path).map fun r =>
    if r.keeps then .kept else .ignored

end ClassDocs.Ignore
