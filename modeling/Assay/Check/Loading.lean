import Assay.Check.State

/-! Loading types that no source has declared yet. -/

namespace Assay

/-- The namespace of the runtime library. Its types can be named without it everywhere. -/
def librarySpace : Text := "org.thoriumlang"

def libraryNames : List Text := ["Object", "None", "String", "Number", "Boolean", "Function"]

namespace Loader

def known? (l : Loader) (name : Name) : Option Symbol :=
  match l with
  | .library =>
    if name.isQualified && !name.isMethod && Text.join "." name.qualifier = librarySpace &&
        libraryNames.contains name.simple then some (.library name.full)
    else none
  | .host classes interfaces =>
    if classes.contains name.full then some (.hostClass name.full)
    else if interfaces.contains name.full then some (.hostInterface name.full)
    else none
  | .listed _ known => known.lookup name.full

/-- What a loader records when it is asked for a name, because of a node or none. -/
def record? (l : Loader) (name : Name) (trigger : Option (Node Meta)) : Option Text :=
  match l with
  | .listed label _ =>
    let kind : Text := match trigger with
      | some n => n.kind
      | none => "-"
    some (label ++ ":" ++ name.full ++ ":" ++ kind)
  | _ => none

end Loader

/-- Asks loaders for a name, one after another, up to the first that knows it. -/
def Check.ask (name : Name) (trigger : Option (Node Meta)) :
    List Loader → Check (Option Symbol)
  | [] => return none
  | l :: rest => do
    modify fun s => { s with asked := s.asked ++ (l.record? name trigger).toList }
    match l.known? name with
    | some symbol => return some symbol
    | none => Check.ask name trigger rest

end Assay
