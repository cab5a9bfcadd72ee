import ClassDocs.Table
import ClassDocs.Toml.Reader

/-!
# Layers of settings

A layer is what one source of settings says: a configuration file or the command line. What it does
not say is left to the layers below. A configuration file may hold the known settings only, each
once and with a value of its kind.
-/

namespace ClassDocs

/-- What one source of settings says. -/
structure Layer where
  rootSpace : Option String := none
  rootPath : Option String := none
  baseUrl : Option String := none
  outputDir : Option String := none
  exclude : Option (List String) := none
  /-- Addresses by namespace, put over those of lower layers one by one. -/
  thirdParty : Table String := {}
  timeoutSecs : Option Nat := none
  workers : Option Nat := none

namespace Layer

open Toml

/-- A text. -/
def textOf? : Value → Option String
  | .text s => some s
  | _ => none

/-- A list of texts. -/
def textsOf? : Value → Option (List String)
  | .list items => items.mapM textOf?
  | _ => none

/-- A whole number of 64 bits without a sign. -/
def countOf? : Value → Option Nat
  | .integer n => if 0 ≤ n && n < Int.pow 2 64 then some n.toNat else none
  | _ => none

/-- A setting that is still open, given a value. -/
def setOnce {α : Type} (old : Option α) (value : Option α) : Option α :=
  if old.isSome then none else value

/-- The layer with one more setting; none if there is no such setting, or it is there already, or
the value is of another kind. -/
def set (layer : Layer) (name : String) (value : Value) : Option Layer :=
  match name with
  | "root_namespace" =>
    (setOnce layer.rootSpace (textOf? value)).map fun v => { layer with rootSpace := some v }
  | "root_path" =>
    (setOnce layer.rootPath (textOf? value)).map fun v => { layer with rootPath := some v }
  | "base_url" =>
    (setOnce layer.baseUrl (textOf? value)).map fun v => { layer with baseUrl := some v }
  | "output_dir" =>
    (setOnce layer.outputDir (textOf? value)).map fun v => { layer with outputDir := some v }
  | "exclude" =>
    (setOnce layer.exclude (textsOf? value)).map fun v => { layer with exclude := some v }
  | "timeout_secs" =>
    (setOnce layer.timeoutSecs (countOf? value)).map fun v => { layer with timeoutSecs := some v }
  | "workers" =>
    (setOnce layer.workers (countOf? value)).map fun v => { layer with workers := some v }
  | _ => none

/-- The layer with the address of one more third party. -/
def addParty (layer : Layer) (name : String) (value : Value) : Option Layer :=
  if layer.thirdParty.contains name then none
  else (textOf? value).map fun url => { layer with thirdParty := layer.thirdParty.insert name url }

/-- How the table of third parties was written so far. -/
inductive PartyForm where
  | absent
  /-- By keys with a dot; more of them may follow. -/
  | dotted
  /-- By a header or between braces; it cannot be opened again. -/
  | closed
  deriving DecidableEq

/-- A configuration file read up to some line. -/
structure Reading where
  layer : Layer := {}
  form : PartyForm := .absent
  /-- Whether the lines are those of the table of third parties. -/
  inParties : Bool := false

/-- The third parties of a table between braces. -/
def addParties (layer : Layer) : List (List String × Value) → Option Layer
  | [] => some layer
  | ([name], value) :: rest => (layer.addParty name value).bind (addParties · rest)
  | _ => none

/-- One more line. -/
def Reading.addLine (r : Reading) : Line → Option Reading
  | .header ["third_party"] =>
    if r.form == .absent then some { r with form := .closed, inParties := true } else none
  | .header _ => none
  | .entry [name] value =>
    if r.inParties then (r.layer.addParty name value).map fun l => { r with layer := l }
    else if name == "third_party" then
      match r.form, value with
      | .absent, .table entries =>
        (r.layer.addParties entries).map fun l => { r with layer := l, form := .closed }
      | _, _ => none
    else (r.layer.set name value).map fun l => { r with layer := l }
  | .entry ["third_party", name] value =>
    if r.inParties || r.form == .closed then none
    else (r.layer.addParty name value).map fun l => { r with layer := l, form := .dotted }
  | .entry _ _ => none

/-- The layer a configuration file holds; none if the file is malformed or says something else. -/
def parse? (document : String) : Option Layer := do
  let lines ← Toml.parse? document
  let reading ← lines.foldlM Reading.addLine ({} : Reading)
  return reading.layer

end Layer

end ClassDocs
