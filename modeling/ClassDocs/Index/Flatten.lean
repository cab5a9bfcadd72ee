import ClassDocs.Index.Basic

/-!
# Flattened classes

A flattened class has every member that can be seen on it. Its own come first, then those of its
traits, then those of its parent, then those of its interfaces; of two members of one name the
first stays. A trait's members count as written in the class that uses the trait, the private ones
included. From parent and interfaces come members that are not private, and from interfaces no
properties.

The class graph may be cyclic. A class met again on the way up contributes only what it declares
itself, and what was flattened across such a place is not remembered, since it depends on where the
walk started.
-/

namespace ClassDocs

/-- Members with those of a second list put behind them whose name is not there yet. -/
def addUnnamed {α : Type} (same : α → α → Bool) (members more : List α) : List α :=
  more.foldl (fun ms m => if ms.any (same m) then ms else ms ++ [m]) members

namespace ClassDecl

/-- Whether two constants have the same name. -/
def sameConstant (a b : Constant) : Bool := b.name == a.name

/-- Whether two properties have the same name. -/
def sameProperty (a b : Property) : Bool := b.name == a.name

/-- Whether two methods have the same name, in any letter case. -/
def sameMethod (a b : Method) : Bool := Text.sameName b.name a.name

/-- A class with the members of another that it lacks, changed by `mark`. -/
def addMembers (c other : ClassDecl) (mark : Member → Member) : ClassDecl :=
  { c with
    constants := addUnnamed sameConstant c.constants
      (other.constants.map fun m => { m with toMember := mark m.toMember })
    properties := addUnnamed sameProperty c.properties
      (other.properties.map fun m => { m with toMember := mark m.toMember })
    methods := addUnnamed sameMethod c.methods
      (other.methods.map fun m => { m with toMember := mark m.toMember }) }

/-- A member as it is in a class that takes it from a trait. -/
def adopted (className traitName : String) (m : Member) : Member :=
  { m with declaringClass := className, origin := .trait traitName }

/-- A class with the members of a trait, said to come from the trait `via`. -/
def addTrait (c trait : ClassDecl) (via : String) : ClassDecl :=
  c.addMembers trait (adopted c.name via)

/-- A member as it is in a class that inherits it. -/
def inherited (m : Member) : Member := { m with origin := .inherited }

/-- Whether a member is handed down. -/
def isHeritable (m : Member) : Bool := m.modifiers.visibility != .priv

/-- What a flattened class hands down: its members that are not private, without the properties if
it is an interface of the heir. -/
def heritage (c : ClassDecl) (withProperties : Bool) : ClassDecl :=
  { c with
    constants := c.constants.filter fun m => isHeritable m.toMember
    properties :=
      if withProperties then c.properties.filter fun m => isHeritable m.toMember else []
    methods := c.methods.filter fun m => isHeritable m.toMember }

/-- A class with the members it inherits from a flattened ancestor. -/
def inherit (c ancestor : ClassDecl) (withProperties : Bool) : ClassDecl :=
  c.addMembers (ancestor.heritage withProperties) inherited

/-- The parent and then the interfaces, with whether properties come from there. -/
def ancestors (c : ClassDecl) : List (String × Bool) :=
  (c.parent.toList.map fun name => (name, true)) ++ c.interfaces.map fun name => (name, false)

end ClassDecl

namespace Index

/-- How deep the traits of traits are followed. -/
def traitDepth : Nat := 21

/-- A class with the members of one more trait and the traits that one uses. `stack` holds the keys
of the classes being flattened, `via` the trait of the class that led here. -/
def addTraitNamed
    (nested : List String → Option String → List String → ClassDecl → Lookup ClassDecl)
    (stack : List String) (via : Option String) (c : ClassDecl) (name : String) :
    Lookup ClassDecl := do
  match ← own name with
  | none => return c
  | some trait =>
    if stack.contains (key name) then return c
    else
      let via := via.getD trait.name
      nested (key name :: stack) (some via) trait.traits (c.addTrait trait via)

/-- A class with the members of some traits and the traits those use. -/
def addTraits : Nat → List String → Option String → List String → ClassDecl → Lookup ClassDecl
  | 0, _, _, _, c => return c
  | depth + 1, stack, via, names, c => names.foldlM (addTraitNamed (addTraits depth) stack via) c

/-- A class with what it inherits from one more ancestor, and whether the way up ran into
itself. -/
def addAncestor (walk : String → Lookup (Option ClassDecl × Bool)) (sofar : ClassDecl × Bool)
    (ancestor : String × Bool) : Lookup (ClassDecl × Bool) := do
  let (found, cyclic) ← walk ancestor.1
  let merged := match found with
    | some a => sofar.1.inherit a ancestor.2
    | none => sofar.1
  return (merged, sofar.2 || cyclic)

/-- A class with the members of its traits and ancestors, and whether the walk ran into `stack`,
the keys of the classes being flattened. The first argument bounds the length of the way up. -/
def flatten : Nat → List String → String → Lookup (Option ClassDecl × Bool)
  | 0, _, _ => return (none, false)
  | bound + 1, stack, name => do
    match (← get).flattened.find? (key name) with
    | some c => return (some c, false)
    | none =>
      match ← own name with
      | none => return (none, false)
      | some c =>
        if stack.contains (key name) then return (some c, true)
        else
          let stack := key name :: stack
          let merged ← addTraits traitDepth stack none c.traits c
          let (merged, cyclic) ← c.ancestors.foldlM (addAncestor (flatten bound stack))
              (merged, false)
          if !cyclic then
            modify fun ix => { ix with flattened := ix.flattened.insert (key name) merged }
          return (some merged, cyclic)

/-- The flattened class of a name. -/
def describe? (name : String) : Lookup (Option ClassDecl) := do
  let (found, _) ← flatten (← get).bound [] name
  return found

/-- The flattened class of a name, or the failure to know it. -/
def describe (name : String) : Lookup (Except Failure ClassDecl) := do
  match ← describe? name with
  | some c => return .ok c
  | none => return .error (.unknownClass name)

end Index

end ClassDocs
