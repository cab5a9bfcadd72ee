import ClassDocs.Decl

/-!
# Failures

What ends a task without a result. Problems inside a class never do: they are issues, and the class
is documented all the same.
-/

namespace ClassDocs

/-- Why a configuration cannot be used. -/
inductive ConfigError where
  /-- The file at this path is not a configuration. -/
  | malformedFile (path : String)
  | noRootNamespace
  | zeroTimeout
  | zeroWorkers
  deriving DecidableEq, Repr

/-- The wording of a configuration error. -/
def ConfigError.message : ConfigError → String
  | .malformedFile path => path
  | .noRootNamespace =>
    "no root namespace: set `root_namespace` or add a PSR-4 mapping to composer.json"
  | .zeroTimeout => "`timeout_secs` must be at least 1"
  | .zeroWorkers => "`workers` must be at least 1"

/-- Why there is no result. -/
inductive Failure where
  /-- No class of this name is known. -/
  | unknownClass (name : String)
  /-- The class has no such member. -/
  | unknownMember (className member : String) (kind : MemberKind)
  | config (cause : ConfigError)
  /-- The file at this path cannot be read or written. -/
  | io (path : String)
  deriving DecidableEq, Repr

/-- The wording of a failure. -/
def Failure.message : Failure → String
  | .unknownClass name => "unknown symbol `" ++ name ++ "`"
  | .unknownMember className member kind =>
    "unknown " ++ kind.text ++ " `" ++ member ++ "` on `" ++ className ++ "`"
  | .config cause => "invalid configuration: " ++ cause.message
  | .io path => "cannot read `" ++ path ++ "`"

/-- The member of a kind and name. -/
def ClassDecl.member (c : ClassDecl) (name : String) (kind : MemberKind) :
    Except Failure AnyMember :=
  match c.findMember name kind with
  | some m => .ok m
  | none => .error (.unknownMember c.name name kind)

end ClassDocs
