import ClassDocs.Config.Layer

/-!
# Command line arguments

Options may stand before and after the project directory. A long option takes its value after an
equals sign or as the next argument; a short one also right behind its letter, and letters without
a value may be joined. An argument that starts with a dash is never the value of an option.
Arguments count from the left, so the first thing that is wrong, or asks for help or the version,
decides.
-/

namespace ClassDocs.Command

/-- What a run is asked to do. -/
structure Arguments where
  /-- The directory of the project. -/
  project : Option String := none
  /-- The one class to show. -/
  className : Option String := none
  /-- The settings given. -/
  settings : Layer := {}
  verbose : Bool := false

/-- What the command line asks for. -/
inductive Request where
  | run (arguments : Arguments)
  | help
  | version

/-- The options that take a value. -/
inductive ValueOption where
  | className
  | rootSpace
  | rootPath
  | baseUrl
  | exclude
  | output
  | workers
  | timeout
  deriving DecidableEq

/-- The options that take no value. -/
inductive Flag where
  | verbose
  | help
  | version
  deriving DecidableEq

/-- The long name of an option that takes a value. -/
def valueOption? : String → Option ValueOption
  | "class" => some .className
  | "root-namespace" => some .rootSpace
  | "root-path" => some .rootPath
  | "base-url" => some .baseUrl
  | "exclude" => some .exclude
  | "output" => some .output
  | "workers" => some .workers
  | "timeout" => some .timeout
  | _ => none

/-- The long name of an option without a value. -/
def flag? : String → Option Flag
  | "verbose" => some .verbose
  | "help" => some .help
  | "version" => some .version
  | _ => none

/-- The letter of an option that takes a value. -/
def shortValueOption? : Char → Option ValueOption
  | 'c' => some .className
  | 'o' => some .output
  | 'j' => some .workers
  | _ => none

/-- The letter of an option without a value. -/
def shortFlag? : Char → Option Flag
  | 'v' => some .verbose
  | 'h' => some .help
  | 'V' => some .version
  | _ => none

/-- A whole number of 64 bits without a sign; a plus in front is allowed. -/
def count? (text : String) : Option Nat :=
  let digits := match text.toList with
    | '+' :: rest => rest
    | cs => cs
  if digits.isEmpty || !digits.all Char.isDigit then none
  else
    let n := JsonValue.natOf digits
    if n < Nat.pow 2 64 then some n else none

/-- A path; it may not be empty. -/
def path? (text : String) : Option String := if text.isEmpty then none else some text

namespace Arguments

/-- The arguments with an option set. An option may be given once, but for the namespaces to leave
out. -/
def set (a : Arguments) (o : ValueOption) (value : String) : Option Arguments :=
  let s := a.settings
  match o with
  | .className =>
    (Layer.setOnce a.className (some value)).map fun v => { a with className := some v }
  | .rootSpace =>
    (Layer.setOnce s.rootSpace (some value)).map fun v =>
      { a with settings := { s with rootSpace := some v } }
  | .rootPath =>
    (Layer.setOnce s.rootPath (path? value)).map fun v =>
      { a with settings := { s with rootPath := some v } }
  | .baseUrl =>
    (Layer.setOnce s.baseUrl (some value)).map fun v =>
      { a with settings := { s with baseUrl := some v } }
  | .exclude =>
    some { a with settings := { s with exclude := some (s.exclude.getD [] ++ [value]) } }
  | .output =>
    (Layer.setOnce s.outputDir (path? value)).map fun v =>
      { a with settings := { s with outputDir := some v } }
  | .workers =>
    (Layer.setOnce s.workers (count? value)).map fun v =>
      { a with settings := { s with workers := some v } }
  | .timeout =>
    (Layer.setOnce s.timeoutSecs (count? value)).map fun v =>
      { a with settings := { s with timeoutSecs := some v } }

/-- The arguments with the project directory. -/
def setProject (a : Arguments) (directory : String) : Option Arguments :=
  (Layer.setOnce a.project (path? directory)).map fun v => { a with project := some v }

/-- The arguments with the wish for more output, which may be given once. -/
def setVerbose (a : Arguments) : Option Arguments :=
  if a.verbose then none else some { a with verbose := true }

end Arguments

/-- Whether an argument is an option and not a value. -/
def isOption (argument : String) : Bool :=
  match argument.toList with
  | '-' :: _ :: _ => true
  | _ => false

/-- What becomes of the arguments at one of them. -/
inductive Step where
  /-- Go on with the arguments after it. -/
  | next (arguments : Arguments)
  /-- The next argument is the value of this option. -/
  | needs (arguments : Arguments) (o : ValueOption)
  | stop (request : Request)
  | wrong

/-- A step to the next argument, if nothing is wrong. -/
def Step.ofOption : Option Arguments → Step
  | some a => .next a
  | none => .wrong

/-- The letters of a joined option. -/
def readLetters (a : Arguments) : List Char → Step
  | [] => .next a
  | c :: rest =>
    match shortFlag? c with
    | some .help => .stop .help
    | some .version => .stop .version
    | some .verbose =>
      match a.setVerbose with
      | some a => readLetters a rest
      | none => .wrong
    | none =>
      match shortValueOption? c, rest with
      | some o, [] => .needs a o
      | some o, '=' :: value => .ofOption (a.set o (.ofList value))
      | some o, value => .ofOption (a.set o (.ofList value))
      | none, _ => .wrong

/-- A long option, after its dashes. -/
def readLong (a : Arguments) (cs : List Char) : Step :=
  let name := String.ofList (cs.takeWhile (· != '='))
  match cs.dropWhile (· != '='), valueOption? name, flag? name with
  | _ :: value, some o, _ => .ofOption (a.set o (.ofList value))
  | [], some o, _ => .needs a o
  | [], none, some .help => .stop .help
  | [], none, some .version => .stop .version
  | [], none, some .verbose => .ofOption a.setVerbose
  | _, _, _ => .wrong

/-- One argument. -/
def readArgument (a : Arguments) (argument : String) : Step :=
  match argument.toList with
  | '-' :: '-' :: cs => readLong a cs
  | '-' :: c :: cs => readLetters a (c :: cs)
  | _ => .ofOption (a.setProject argument)

/-- What all arguments after `--` ask for: they are no options. -/
def readPlain (a : Arguments) : List String → Option Request
  | [] => some (.run a)
  | argument :: rest => (a.setProject argument).bind (readPlain · rest)

/-- What the arguments ask for; none if they are wrong. -/
def readFrom (a : Arguments) : List String → Option Request
  | [] => some (.run a)
  | "--" :: rest => readPlain a rest
  | argument :: rest =>
    match readArgument a argument with
    | .next a => readFrom a rest
    | .stop request => some request
    | .wrong => none
    | .needs a o =>
      match rest with
      | value :: rest => if isOption value then none else (a.set o value).bind (readFrom · rest)
      | [] => none

/-- What a command line asks for; none if it is wrong. -/
def parse? (arguments : List String) : Option Request := readFrom {} arguments

end ClassDocs.Command
