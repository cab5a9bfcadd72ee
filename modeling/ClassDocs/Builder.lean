import ClassDocs.View.Assemble

/-!
# Building views

A builder makes the views of classes against one index. It remembers the views it has made, so that
a parent shared by many classes is assembled once, and it collects the issues met. Remembered views
hold for one link context only; with another one the builder starts over.

A parent that is being built already is left out of the view, which keeps views finite on a
cyclic class graph. Views made across such a place depend on where the build started and are not
remembered.
-/

namespace ClassDocs

/-- A builder of views. -/
structure Builder where
  /-- Finished views by class name in lower case. -/
  views : Table ClassView := {}
  /-- The context the finished views were made with. -/
  context : Option LinkContext := none
  /-- The issues met so far, each once, in order. -/
  issues : List Issue := []

/-- Work of a builder. -/
abbrev Build := StateT Builder Lookup

namespace Builder

instance : Inhabited Builder := ⟨{}⟩

/-- Issues with more put behind them that are not there yet. -/
def addIssues (issues more : List Issue) : List Issue :=
  more.foldl (fun is i => if is.contains i then is else is ++ [i]) issues

/-- Collect some issues. -/
def record (more : List Issue) : Build Unit :=
  modify fun b => { b with issues := addIssues b.issues more }

/-- The key of a class name: in lower case, without leading backslashes. -/
def key (className : String) : String := Text.lower (Name.withoutRoot className)

/-- The view of the parent of a class, and whether it was left out because of a cycle. `underway`
holds the keys of the classes being built. -/
def buildParent (build : String → Build (Option ClassView × Bool)) (underway : List String)
    (c : ClassDecl) : Build (Option ClassView × Bool) :=
  match c.parent with
  | none => return (none, false)
  | some parent =>
    if underway.contains (Text.lower parent) then do
      record [.inheritanceCycle c.name]
      return (none, true)
    else build parent

/-- The view of a class, and whether a cycle was met on the way up. The first argument bounds the
length of the way up; `underway` holds the keys of the classes being built. -/
def buildView (context : LinkContext) :
    Nat → List String → String → Build (Option ClassView × Bool)
  | 0, _, _ => return (none, false)
  | bound + 1, underway, name => do
    match (← get).views.find? (key name) with
    | some view => return (some view, false)
    | none =>
      match ← (Index.describe? name : Lookup _) with
      | none => return (none, false)
      | some c =>
        let underway := key name :: underway
        let (parent, cyclic) ← buildParent (buildView context bound underway) underway c
        let (view, issues) ← ((Draft.classView context c parent).run [] : Lookup _)
        record issues
        if !cyclic then
          modify fun b => { b with views := b.views.insert (key name) view }
        return (some view, cyclic)

/-- Make sure that all remembered views hold for a context. -/
def useContext (context : LinkContext) : Build Unit :=
  modify fun b =>
    if b.context.any (·.same context) then b else { b with views := {}, context := some context }

/-- The view of a class. -/
def build (context : LinkContext) (name : String) : Build (Except Failure ClassView) := do
  useContext context
  let bound := 2 * (← (get : Lookup Index)).bound
  match ← buildView context bound [] name with
  | (some view, _) => return .ok view
  | (none, _) => return .error (.unknownClass name)

/-- The view of a class by a new builder, with the issues met. -/
def buildOnce (context : LinkContext) (name : String) :
    Lookup (Except Failure (ClassView × List Issue)) := do
  let (result, b) ← (build context name).run {}
  return result.map fun view => (view, b.issues)

end Builder

end ClassDocs
