import ClassDocs.Builder
import ClassDocs.Docblock.Cache

/-!
# The builder at work

`Builder.buildView` takes the classes being built as an argument and returns whether a cycle was
met. Here both are part of the state: a class is noted before its parent is built and struck off
after its view is assembled, and a flag is raised where a parent is left out. The flag is lowered
while a view is being built and then put back, raised if it was up before or has been raised in
between. The state also has the comments parsed so far.
-/

namespace ClassDocs

/-- A builder with what it keeps while it works. -/
structure Workbench extends Builder where
  /-- The comments parsed so far. -/
  parsed : ParseCache := .empty
  /-- The keys of the classes being built. -/
  inProgress : List String := []
  /-- Whether a parent was left out because of a cycle. -/
  cycleHit : Bool := false

/-- Work on the bench. -/
abbrev Work := StateT Workbench Lookup

namespace Workbench

open Builder (key)

variable {α : Type}

/-- Work that needs the builder only. -/
def onBuilder (x : Build α) : Work α := fun w => do
  let (a, b) ← x.run w.toBuilder
  return (a, { w with toBuilder := b })

/-- Work that needs the parsed comments only. -/
def onCache (x : Caching α) : Work α := fun w => do
  let (a, parsed) ← x.run w.parsed
  return (a, { w with parsed })

/-- Note a class as being built and lower the flag. The answer is the flag as it was. -/
def enter (k : String) : Work Bool :=
  modifyGet fun w =>
    (w.cycleHit, { w with inProgress := w.inProgress.insert k, cycleHit := false })

/-- Strike off a class and collect the issues of its view. The view is remembered unless the flag
was raised since the class was noted, and the flag is put back to what it was if it was not. -/
def leave (k : String) (outer : Bool) (view : ClassView) (issues : List Issue) : Work Unit := do
  modify fun w => { w with inProgress := w.inProgress.filter (· != k) }
  onBuilder (Builder.record issues)
  let cyclic := (← get).cycleHit
  if !cyclic then
    modify fun w => { w with views := w.views.insert k view }
  modify fun w => { w with cycleHit := cyclic || outer }

/-- The view of the parent of a class, unless the parent is being built. -/
def buildParent (build : String → Work (Option ClassView)) (c : ClassDecl) :
    Work (Option ClassView) :=
  match c.parent with
  | none => return none
  | some parent => do
    if (← get).inProgress.contains (Text.lower parent) then
      onBuilder (Builder.record [.inheritanceCycle c.name])
      modify fun w => { w with cycleHit := true }
      return none
    else build parent

/-- The view of a class. The first argument bounds the length of the way up. -/
def buildView (context : LinkContext) : Nat → String → Work (Option ClassView)
  | 0, _ => return none
  | bound + 1, name => do
    match (← get).views.find? (key name) with
    | some view => return some view
    | none =>
      match ← (Index.describe? name : Lookup _) with
      | none => return none
      | some c =>
        let outer ← enter (key name)
        let parent ← buildParent (buildView context bound) c
        let (view, issues) ← onCache ((Draft.classViewBy parseOnce context c parent).run [])
        leave (key name) outer view issues
        return some view

/-- The view of a class. -/
def build (context : LinkContext) (name : String) : Work (Except Failure ClassView) := do
  onBuilder (Builder.useContext context)
  let bound := 2 * (← (get : Lookup Index)).bound
  match ← buildView context bound name with
  | some view => return .ok view
  | none => return .error (.unknownClass name)

end Workbench

end ClassDocs
