import Assay.Source
import Assay.Tree.Node

/-! What names denote, and how nodes are told apart. -/

namespace Assay

/-- A scope, given by the names on the way to it from the root. -/
abbrev Path := List Text

/-- The names of a path between dots; names on an empty way are passed over. -/
def Path.full (p : Path) : Text :=
  p.foldl (fun full name => if full.isEmpty then name else full ++ "." ++ name) []

/-- The number that tells a node from all others, where it stands in the source, and the scope it
is in, as far as these are known. -/
structure Meta where
  id : Nat
  position : Option Position
  scope : Option Path

/-- What is known of the declaration of a type. -/
inductive Origin where
  /-- It was not declared in a source. -/
  | unknown
  /-- It is a type variable. -/
  | variable (p : TypeParam Meta)
  /-- It is the top-level declaration whose first node has the given number. -/
  | declared (id : Nat)

/-- What a name denotes. -/
inductive Symbol where
  /-- A type declared in a source. -/
  | type (name : Text) (origin : Origin)
  /-- A parameter, attribute, variable or method. -/
  | named (name : Text) (decl : Option (Node Meta))
  /-- Another name for the symbol with the full name `target`. The number tells it from other
  aliases. -/
  | alias (id : Nat) (target : Text) (decl : Option (Node Meta))
  /-- A class of the host platform. -/
  | hostClass (name : Text)
  /-- An interface of the host platform. -/
  | hostInterface (name : Text)
  /-- A type of the runtime library. -/
  | library (name : Text)

namespace Symbol

def toText : Symbol → Text
  | .type name _ => "(th: " ++ name ++ ")"
  | .named name _ => "(symbol: " ++ name ++ ")"
  | .alias _ target _ => "(alias: " ++ target ++ ")"
  | .hostClass name => "(java class: " ++ name ++ ")"
  | .hostInterface name => "(java interface: " ++ name ++ ")"
  | .library name => "(th-rt: " ++ name ++ ")"

def kind : Symbol → Text
  | .type .. => "type"
  | .named .. => "name"
  | .alias .. => "alias"
  | .hostClass _ => "java-class"
  | .hostInterface _ => "java-interface"
  | .library _ => "lib-type"

end Symbol

end Assay
