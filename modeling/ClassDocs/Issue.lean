import ClassDocs.TypeExpr.Basic

/-!
# Issues

Problems that a build recovers from on its own: the native type or the literal text stands in, and
the issue is noted.
-/

namespace ClassDocs

/-- A problem with a fallback. `owner` says which class or member it is about. -/
inductive Issue where
  /-- The type of a tag could not be read; the native type is used. -/
  | malformedType (owner raw : String) (cause : TypeError)
  /-- No ancestor has text for an inherit marker; the marker stays as written. -/
  | unresolvedInherit (owner : String)
  /-- `null` next to several other types; the first of them takes the nullability. -/
  | ambiguousType (owner absorbedBy : String)
  /-- The class graph runs back into itself. -/
  | inheritanceCycle (className : String)
  deriving DecidableEq, Repr

/-- The wording of an issue. -/
def Issue.message : Issue → String
  | .malformedType owner raw cause =>
    "malformed annotation on " ++ owner ++ ": cannot parse `" ++ raw ++ "` (" ++
      cause.message ++ ")"
  | .unresolvedInherit owner => "unresolved inherit marker on " ++ owner
  | .ambiguousType owner absorbedBy =>
    "ambiguous nullable union on " ++ owner ++ ": `null` folded into `" ++ absorbedBy ++ "`"
  | .inheritanceCycle className => "inheritance cycle through `" ++ className ++ "`"

end ClassDocs
