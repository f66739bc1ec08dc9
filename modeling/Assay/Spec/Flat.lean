import Assay.Symbol

/-! The flat form of a written type. Unions inside unions and intersections inside intersections are
spliced into their parents, components that read alike are kept once, and a single component stands
for its union or intersection. A type that is flat already is left as it is, with the same nodes. -/

namespace Assay

/-- Computations that number new nodes. -/
abbrev Fresh := StateM Nat

/-- The same annotation under a new number. -/
def Meta.renew (m : Meta) : Fresh Meta := do
  let id ← modifyGet fun next => (next, next + 1)
  return { m with id }

namespace TypeSpec

def unionParts? : TypeSpec Meta → Option (List (TypeSpec Meta))
  | .union _ types => some types
  | _ => none

def interParts? : TypeSpec Meta → Option (List (TypeSpec Meta))
  | .inter _ types => some types
  | _ => none

/-- A type as a new node at the place of another. -/
def moveTo (s : TypeSpec Meta) (place : Meta) : Fresh (TypeSpec Meta) := do
  return s.withAnn { ← s.ann.renew with position := place.position }

/-- The type that a union or intersection with annotation `m` becomes when its components become
`parts`: the one component, a new node, or `none` if nothing has changed. -/
def rebuild (build : Meta → List (TypeSpec Meta) → TypeSpec Meta) (m : Meta)
    (parts : List (TypeSpec Meta)) (changed : Bool) : Fresh (Option (TypeSpec Meta)) := do
  let distinct := Text.dedupBy toText parts
  match distinct with
  | [one] => return some (← one.moveTo m)
  | _ =>
    if changed || distinct.length != parts.length then return some (build (← m.renew) distinct)
    else return none

mutual

/-- The flat form of a type, or `none` if it is flat already. -/
def flatten? : TypeSpec Meta → Fresh (Option (TypeSpec Meta))
  | .simple m name args => do
    match ← flattenAll? args with
    | some args => return some (.simple (← m.renew) name args)
    | none => return none
  | .func m params result => do
    match ← flattenAll? params, ← result.flatten? with
    | none, none => return none
    | newParams, newResult =>
      return some (.func (← m.renew) (newParams.getD params) (newResult.getD result))
  | .union m types => do
    let (parts, changed) ← flattenParts unionParts? types
    rebuild .union m parts changed
  | .inter m types => do
    let (parts, changed) ← flattenParts interParts? types
    rebuild .inter m parts changed
  | .inferred _ => return none

def flattenAll? : List (TypeSpec Meta) → Fresh (Option (List (TypeSpec Meta)))
  | [] => return none
  | s :: rest => do
    match ← s.flatten?, ← flattenAll? rest with
    | none, none => return none
    | newHead, newRest => return some (newHead.getD s :: newRest.getD rest)

/-- The flat forms of components, those that have parts of their own replaced by these, and whether
any component was not flat or was replaced. -/
def flattenParts (parts? : TypeSpec Meta → Option (List (TypeSpec Meta))) :
    List (TypeSpec Meta) → Fresh (List (TypeSpec Meta) × Bool)
  | [] => return ([], false)
  | s :: rest => do
    let new ← s.flatten?
    let (more, changed) ← flattenParts parts? rest
    match parts? (new.getD s) with
    | some inner => return (inner ++ more, true)
    | none => return (new.getD s :: more, changed || new.isSome)

end

def flatten (s : TypeSpec Meta) : Fresh (TypeSpec Meta) := do
  return (← s.flatten?).getD s

end TypeSpec

end Assay
