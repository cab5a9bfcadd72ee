import ClassDocs.Decl
import ClassDocs.Text.Capital

/-!
# Which members a view shows

A view shows the members of a class that are its own, those from traits included, and leaves out
what is inherited. A private member is left out too, unless it is a property that the class has an
accessor for. Accessors are shown at their property and the constructor by itself, not among the
methods.
-/

namespace ClassDocs.ClassDecl

/-- The beginnings of accessor names. -/
def accessorWords : List String := ["get", "is", "has"]

/-- The accessors that the class itself has for a property, by name. -/
def accessorsFor (c : ClassDecl) (property : String) : List String :=
  accessorWords.filterMap fun word =>
    (c.methods.find? fun m => m.origin != .inherited && Text.sameName m.name
      (word ++ Text.capitalize property)).map (·.name)

/-- Whether a member of the flattened class is shown. -/
def isIncluded (c : ClassDecl) (m : AnyMember) : Bool :=
  m.info.origin != .inherited &&
    (m.info.modifiers.visibility != .priv ||
      match m with
      | .property p => !(c.accessorsFor p.name).isEmpty
      | .constant _ | .method _ => false)

/-- The accessors of the properties shown, in lower case. -/
def accessorNames (c : ClassDecl) : List String :=
  (c.properties.filter fun p => c.isIncluded (.property p)).flatMap fun p =>
    (c.accessorsFor p.name).map Text.lower

/-- The methods shown as such. -/
def listedMethods (c : ClassDecl) : List Method :=
  c.methods.filter fun m =>
    c.isIncluded (.method m) && !m.isConstructor && !c.accessorNames.contains (Text.lower m.name)

end ClassDocs.ClassDecl
