import Assay.Scope
import Assay.Spec.Flat

/-! Written types with their names in full. A simple name is looked up from the scope of its node;
what it means, after following aliases, has a full name that replaces it. -/

namespace Assay

namespace Symbol

def isAlias (id : Nat) : Symbol → Bool
  | .alias other _ _ => other = id
  | _ => false

def aliasId? : Symbol → Option Nat
  | .alias id _ _ => some id
  | _ => none

end Symbol

namespace Scope

def aliasIds (table : Scope) : List Nat :=
  ((table.walk []).flatMap fun (_, s) => s.symbols).filterMap fun (_, s) => s.aliasId?

/-- The symbol at the end of a chain of aliases, each target looked up from the root. The chain is
cut at an alias whose target is not in the table and at an alias that was `seen` before; it is a
fault if it has more than `steps` aliases. -/
def follow (table : Scope) : (steps : Nat) → (seen : List Nat) → Symbol → Except Fault Symbol
  | steps, seen, .alias id target decl =>
    if id ∈ seen then .ok (.alias id target decl)
    else
      match steps with
      | 0 => .error .exhausted
      | steps + 1 => do
        match ← table.find [] (Name.ofText target) with
        | [] => return .alias id target decl
        | next :: _ => follow table steps (id :: seen) next
  | _, _, symbol => .ok symbol

/-- The symbol that a symbol stands for, after following aliases. A chain that never repeats has no
more aliases than the table and the one it starts with. -/
def followAliases (table : Scope) (symbol : Symbol) : Except Fault Symbol :=
  table.follow (table.aliasIds.length + 1) [] symbol

/-- The symbols that a name denotes in the scope at a path, if there is one. -/
def findFrom (table : Scope) (path : Option Path) (name : Name) : Except Fault (List Symbol) :=
  match path with
  | some path => table.find path name
  | none => .ok []

/-- The full form of a type name in the scope at a path, if there is one, within a namespace. -/
def qualifyName (table : Scope) (path : Option Path) (space name : Text) : Except Fault Text := do
  if name.contains 46 then return name
  match ← table.findFrom path (Name.ofText name) with
  | [] => return if space.isEmpty then name else space ++ "." ++ name
  | symbol :: _ =>
    match ← table.followAliases symbol with
    | .alias _ target _ => return target
    | .type full _ => return full
    | .library full => return full
    | .hostClass full => return full
    | .hostInterface full => return full
    | .named .. => return name

end Scope

/-- Computations that number new nodes and may fault. -/
abbrev Revising := ExceptT Fault Fresh

namespace TypeSpec

variable (table : Scope) (space : Text)

mutual

/-- The type with its names in full, or `none` if they are in full already. -/
def qualify? : TypeSpec Meta → Revising (Option (TypeSpec Meta))
  | .simple m name args => do
    let full ← ExceptT.mk (pure (table.qualifyName m.scope space name))
    match ← qualifyAll? args with
    | some args => return some (.simple (← m.renew) full args)
    | none => if full = name then return none else return some (.simple (← m.renew) full args)
  | .union m types => do
    match ← qualifyAll? types with
    | some types => return some (.union (← m.renew) types)
    | none => return none
  | .inter m types => do
    match ← qualifyAll? types with
    | some types => return some (.inter (← m.renew) types)
    | none => return none
  | .func m params result => do
    match ← qualifyAll? params, ← result.qualify? with
    | none, none => return none
    | newParams, newResult =>
      return some (.func (← m.renew) (newParams.getD params) (newResult.getD result))
  | .inferred _ => return none

def qualifyAll? : List (TypeSpec Meta) → Revising (Option (List (TypeSpec Meta)))
  | [] => return none
  | s :: rest => do
    match ← s.qualify?, ← qualifyAll? rest with
    | none, none => return none
    | newHead, newRest => return some (newHead.getD s :: newRest.getD rest)

end

end TypeSpec

end Assay
