import Assay.Fault
import Assay.Text.Rune

/-! Names as they are declared and looked up. A name has parts between dots; a method name ends with
its parameter types in parentheses, whose dots separate nothing. Methods that differ in their
parameter types only are found under one key. -/

namespace Assay

/-- A name: the parts in front of the last one, and the last one. -/
structure Name where
  qualifier : List Text
  simple : Text
deriving DecidableEq

/-- What a name is found under in a scope: itself, or the overload set of a method. -/
inductive Key where
  | plain (name : Text)
  | overloads (name : Text)
deriving DecidableEq

namespace Name

def ofText (t : Text) : Name :=
  let parts := Text.splitOn 46 (t.takeWhile (· != 40))
  ⟨parts.dropLast, parts.getLastD [] ++ t.dropWhile (· != 40)⟩

def parts (n : Name) : List Text := n.qualifier ++ [n.simple]

def full (n : Name) : Text := Text.join "." n.parts

def isQualified (n : Name) : Bool := !n.qualifier.isEmpty

def isMethod (n : Name) : Bool := n.simple.contains 40

/-- The name that a text spells within a namespace: a simple name gets the namespace in front,
unless that is empty. -/
def ofTextIn (t space : Text) : Name :=
  let n := ofText t
  if n.isQualified || space.isEmpty then n else ofText (space ++ "." ++ t)

/-- How many parts commas outside brackets and parentheses separate. -/
def arity (params : Text) : Nat := go 0 params
where
  /-- The same, for the rest of a text after `depth` more opening than closing marks. -/
  go (depth : Int) : Text → Nat
    | [] => 1
    | b :: rest =>
      if b = 40 || b = 91 then go (depth + 1) rest
      else if b = 41 || b = 93 then go (depth - 1) rest
      else if b = 44 && depth = 0 then go depth rest + 1
      else go depth rest

/-- The last part of a name with a placeholder for each parameter type. The parameter types are all
that lies between the opening parenthesis and the last byte; it is a fault if these are the same. -/
def normalized (n : Name) : Except Fault Text :=
  if n.isMethod then
    match n.simple.dropWhile (· != 40) with
    | _ :: last :: rest =>
      let base := n.simple.takeWhile (· != 40)
      let params := (last :: rest).dropLast
      if Text.isBlank params then .ok (base ++ "()")
      else .ok (base ++ "(" ++ Text.times (arity params - 1) "_," ++ "_)")
    | _ => .error .outOfBounds
  else .ok n.simple

def key (n : Name) : Except Fault Key :=
  if n.isMethod then n.normalized.map .overloads else .ok (.plain n.simple)

end Name

end Assay
