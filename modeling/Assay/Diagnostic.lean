import Assay.Symbol
import Assay.Text.Quoted

/-! Diagnostics: what is wrong with a source, where, and how it is shown. -/

namespace Assay

/-- The kinds of diagnostics. -/
inductive Kind where
  | syntaxError
  | alreadyDefined
  | notDefined
  | notFound
  | typeNotDefined
  | targetNotFound
  | tooManyAlternatives
  | notInferable
  /-- A number that no kind has. -/
  | other (code : Int)
deriving DecidableEq

namespace Kind

def code : Kind → Int
  | .syntaxError => 0
  | .alreadyDefined => 1
  | .notDefined => 2
  | .notFound => 3
  | .typeNotDefined => 4
  | .targetNotFound => 5
  | .tooManyAlternatives => 6
  | .notInferable => 7
  | .other code => code

def ofCode (n : Int) : Kind :=
  ([.syntaxError, .alreadyDefined, .notDefined, .notFound, .typeNotDefined, .targetNotFound,
    .tooManyAlternatives, .notInferable].find? fun k : Kind => k.code = n).getD (.other n)

/-- The word for a kind; a number that no kind has is a fault. -/
def label : Kind → Except Fault Text
  | .syntaxError => .ok "syntax"
  | .alreadyDefined => .ok "symbol-already-defined"
  | .notDefined => .ok "symbol-not-defined"
  | .notFound => .ok "symbol-not-found"
  | .typeNotDefined => .ok "type-not-defined"
  | .targetNotFound => .ok "target-not-found"
  | .tooManyAlternatives => .ok "too-many-alternatives"
  | .notInferable => .ok "type-not-inferable"
  | .other _ => .error .impossible

end Kind

/-- What can be wrong with a node. -/
inductive Problem where
  /-- The name is declared in its scope already, perhaps at a known place. -/
  | alreadyDefined (name : Text) (previous : Option Location)
  /-- The name is not declared before it is used. -/
  | notDefined (name : Text)
  /-- Nothing of this name can be found. -/
  | notFound (name : Text)
  /-- No type has this name. -/
  | typeNotDefined (name : Text)
  /-- No method of the name takes these arguments. -/
  | noAlternatives
  /-- Several methods of the name take these arguments. -/
  | tooManyAlternatives (count : Nat)
  /-- A type is neither written nor given by a value. -/
  | notInferable

namespace Problem

def kind : Problem → Kind
  | .alreadyDefined .. => .alreadyDefined
  | .notDefined _ => .notDefined
  | .notFound _ => .notFound
  | .typeNotDefined _ => .typeNotDefined
  | .noAlternatives => .targetNotFound
  | .tooManyAlternatives _ => .tooManyAlternatives
  | .notInferable => .notInferable

def message : Problem → Text
  | .alreadyDefined name _ => "symbol already defined: " ++ name
  | .notDefined name => "symbol not defined: " ++ name
  | .notFound name => "symbol not found: " ++ name
  | .typeNotDefined name => "type not defined: " ++ name
  | .noAlternatives => "no alternatives found"
  | .tooManyAlternatives _ => "too many alternatives found"
  | .notInferable => "cannot infer type"

/-- What is added to the text of a problem. -/
def notes : Problem → List Text
  | .alreadyDefined _ (some previous) => ["previously defined at " ++ previous.toText]
  | .tooManyAlternatives count => ["found " ++ Text.ofNat count ++ " alternatives"]
  | _ => []

end Problem

/-- A diagnostic: its kind, the node it is about, where it is, its text and what is added to it. -/
structure Diagnostic where
  kind : Kind
  node : Option (Node Meta)
  position : Option Position
  message : Text
  notes : List Text

namespace Diagnostic

def ofNode (p : Problem) (n : Node Meta) : Diagnostic :=
  ⟨p.kind, some n, n.ann.position, p.message, p.notes⟩

def location (d : Diagnostic) : Location :=
  match d.position with
  | some p => p.location
  | none => .unknown

/-- The text and the notes of a diagnostic, one after another on lines of their own. -/
def fullMessage (d : Diagnostic) : Text := Text.join "\n" (d.message :: d.notes)

/-- The text of a diagnostic with its place in front and its notes below. -/
def toText (d : Diagnostic) : Text :=
  let place : Text := match d.position with
    | some p => p.location.toText ++ ": "
    | none => ""
  place ++ d.message ++ d.notes.flatMap fun note => ("\n\t" ++ note : Text)

/-- Whether the place of a diagnostic starts before that of another: by path, then by line, then by
column. -/
def before (d e : Diagnostic) : Bool :=
  let a := d.location
  let b := e.location
  if a.path = b.path then
    if a.first.line = b.first.line then a.first.column < b.first.column
    else a.first.line < b.first.line
  else a.path < b.path

/-- Whether two diagnostics say the same about the same place. -/
def repeats (d e : Diagnostic) : Bool := d.location = e.location && d.message = e.message

/-- The diagnostics without those that repeat the one kept right before them. -/
def dropRepeats : List Diagnostic → List Diagnostic
  | [] => []
  | d :: rest => d :: go d rest
where
  /-- The same, after `kept`. -/
  go (kept : Diagnostic) : List Diagnostic → List Diagnostic
    | [] => []
    | d :: rest => if d.repeats kept then go kept rest else d :: go d rest

/-- The diagnostics in the order of their places, without repetitions. -/
def sort (ds : List Diagnostic) : List Diagnostic :=
  dropRepeats (ds.mergeSort fun d e => !e.before d)

def count (ds : List Diagnostic) (kind : Kind) : Nat := ds.countP (·.kind = kind)

end Diagnostic

end Assay
