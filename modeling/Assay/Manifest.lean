import Assay.Check.State
import Assay.Yaml

/-! Class path manifests: the classes and interfaces of the host platform, listed in a document. -/

namespace Assay

/-- The full names of classes and interfaces. -/
structure Manifest where
  classes : List Text
  interfaces : List Text

namespace Manifest

def refusal : Text := "bad class path manifest"

def name? : Yaml.Node → Option Text
  | .scalar _ text => some (Text.ofString (String.ofList text))
  | _ => none

/-- A list of names in a manifest. Items without a value are passed over. -/
def names? (n : Yaml.Node) : Option (List Text) :=
  if n.isNull then some []
  else match n with
    | .sequence items => (items.filter (!·.isNull)).mapM name?
    | _ => none

def key? : Yaml.Node × Yaml.Node → Option (List Char)
  | (.scalar _ text, _) => some text
  | _ => none

/-- The list under a key; a key that is missing has none. -/
def listAt? (key : String) (entries : List (List Char × Yaml.Node)) : Option (List Text) :=
  match entries.lookup key.toList with
  | some n => names? n
  | none => some []

/-- The manifest that a document holds. Each key stands once, and those that mean nothing are passed
over. -/
def ofDocument? (n : Yaml.Node) : Option Manifest :=
  if n.isNull then some ⟨[], []⟩
  else match n with
    | .mapping entries => do
      let keys ← entries.mapM key?
      if !decide keys.Nodup then none
      let entries := keys.zip (entries.map (·.2))
      return ⟨← listAt? "classes" entries, ← listAt? "interfaces" entries⟩
    | _ => none

def read (t : Text) : Option Manifest := (Yaml.document? t).bind ofDocument?

def loader (m : Manifest) : Loader := .host m.classes m.interfaces

end Manifest

end Assay
