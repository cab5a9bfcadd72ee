import ClassDocs.Text.Blank

/-!
# File paths

Paths are texts with slashes. Two questions are asked about them: what text a path joined to
another has, which keeps every slash and dot that was written, and which components it has, where
repeated slashes, a slash at the end and a `.` inside do not count.
-/

namespace ClassDocs.Path

open ClassDocs.Text

/-- Whether a path starts at the root of the file system. -/
def isAbsolute (path : String) : Bool := path.toList.head? == some '/'

/-- A path continued by another. An absolute path replaces what came before. -/
def join (base path : String) : String :=
  if isAbsolute path || base.isEmpty then path
  else if base.toList.getLast? == some '/' then base ++ path
  else base ++ "/" ++ path

/-- The components of a path. The root is the component `/`; a `.` counts only in front. -/
def components (path : String) : List String :=
  match (splitOnChar '/' path.toList).map String.ofList with
  | "" :: rest => (if isAbsolute path then ["/"] else []) ++ rest.filter named
  | "." :: rest => "." :: rest.filter named
  | parts => parts.filter named
where
  /-- Whether a part between slashes is a component. -/
  named (part : String) : Bool := part != "" && part != "."

/-- What is left of a list after a leading part. -/
def dropLeading? : List String → List String → Option (List String)
  | [], rest => some rest
  | _ :: _, [] => none
  | p :: ps, c :: cs => if p == c then dropLeading? ps cs else none

/-- The components of a path below a directory. -/
def below? (directory path : String) : Option (List String) :=
  dropLeading? (components directory) (components path)

/-- Whether two paths have the same components. -/
def same (a b : String) : Bool := components a == components b

/-- Whether a component names a file or directory, as opposed to `/`, `.` and `..`. -/
def isName (component : String) : Bool := component != "/" && component != "." && component != ".."

/-- The name of a file split at its last dot into stem and extension. A dot in front does not
count. -/
def splitExtension (name : String) : String × Option String :=
  let backwards := name.toList.reverse
  match backwards.dropWhile (· != '.') with
  | _ :: stem =>
    if stem.isEmpty then (name, none)
    else (.ofList stem.reverse, some (.ofList (backwards.takeWhile (· != '.')).reverse))
  | [] => (name, none)

/-- The components of a path with its last name replaced. -/
def mapName (f : String → String) (path : List String) : List String :=
  match path.getLast? with
  | some name => if isName name then path.dropLast ++ [f name] else path
  | none => path

/-- The components of a path without the extension of its last name. -/
def withoutExtension (path : List String) : List String :=
  mapName (fun name => (splitExtension name).1) path

/-- The characters of a path, last one first, without what follows its last component. -/
def trimEnding : List Char → List Char
  | '/' :: rest => if rest.isEmpty then ['/'] else trimEnding rest
  | ['.', '/'] => ['/']
  | '.' :: '/' :: rest => trimEnding ('/' :: rest)
  | cs => cs

/-- A path with the extension of its last name set. A path that does not end in a name stays as it
is. -/
def withExtension (path extension : String) : String :=
  match (components path).getLast? with
  | some name =>
    if isName name then
      let ending := (trimEnding path.toList.reverse).reverse
      .ofList (ending.take (ending.length - name.toList.length)) ++ (splitExtension name).1 ++
        "." ++ extension
    else path
  | none => path

/-- The extension of the last name of a path. -/
def extension? (path : String) : Option String :=
  match (components path).getLast? with
  | some name => if isName name then (splitExtension name).2 else none
  | none => none

/-- The place of a kind of component in the order of paths. -/
def rank (component : String) : Nat :=
  match component with
  | "/" => 0
  | "." => 1
  | ".." => 2
  | _ => 3

/-- The order of components. -/
def componentLt (a b : String) : Bool := rank a < rank b || (rank a == rank b && a < b)

/-- The order of paths, by components: a directory comes before everything in it, and what is in a
directory stays together. -/
def le : List String → List String → Bool
  | [], _ => true
  | _ :: _, [] => false
  | a :: as, b :: bs => componentLt a b || (a == b && le as bs)

end ClassDocs.Path
