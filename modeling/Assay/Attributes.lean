import Assay.Symbol

/-! Attributes attached to a node under typed keys. A record of a node has a number and, unless it
is the blank record, a context that holds its place, its scope and its attributes. -/

namespace Assay

/-- The key of an attribute: a name and the name of the type of its values. -/
structure AttributeKey where
  name : Text
  type : Text
deriving DecidableEq

/-- The text of a key; a key without a name shows its type only. -/
def AttributeKey.toText (k : AttributeKey) : Text :=
  if k.name.isEmpty then k.type else k.name ++ ":" ++ k.type

/-- The place, the scope and the attributes of a node. -/
structure Context (ν : Type) where
  location : Option Location
  scope : Option Path
  attributes : List (AttributeKey × ν)

/-- A record of a node: its number, and its context unless the record is blank. -/
structure Record (ν : Type) where
  id : Nat
  context : Option (Context ν)

namespace Record

variable {ν : Type}

def fresh (id : Nat) : Record ν := ⟨id, some ⟨none, none, []⟩⟩

def blank : Record ν := ⟨0, none⟩

/-- A record of another node that knows the same. -/
def derive (r : Record ν) (id : Nat) : Record ν := ⟨id, some (r.context.getD ⟨none, none, []⟩)⟩

/-- The context of a record; a blank record has none, which is a fault. -/
def required (r : Record ν) : Except Fault (Context ν) :=
  match r.context with
  | some c => .ok c
  | none => .error .outOfBounds

def location? (r : Record ν) : Option Location := r.context.bind (·.location)

def setLocation (r : Record ν) (l : Location) : Except Fault (Record ν) := do
  return { r with context := some { ← r.required with location := some l } }

def setScope (r : Record ν) (path : Path) : Except Fault (Record ν) := do
  return { r with context := some { ← r.required with scope := some path } }

def get? (r : Record ν) (key : AttributeKey) : Except Fault (Option ν) := do
  return (← r.required).attributes.lookup key

def put (r : Record ν) (key : AttributeKey) (value : ν) : Except Fault (Record ν) := do
  let c ← r.required
  return { r with context := some { c with attributes := (key, value) :: c.attributes } }

/-- The attribute under a key; it is a fault if it is not set. -/
def require (r : Record ν) (key : AttributeKey) : Except Fault ν := do
  match ← r.get? key with
  | some value => return value
  | none => throw (.missingAttribute key.toText)

/-- The attribute under a key, which is first set to the given value unless it is set; and whether
it had to be. -/
def getOrPut (r : Record ν) (key : AttributeKey) (value : ν) :
    Except Fault (Record ν × ν × Bool) := do
  match ← r.get? key with
  | some old => return (r, old, false)
  | none => return (← r.put key value, value, true)

/-- The scope of a record; it is a fault if it is not known. -/
def requireScope (r : Record ν) : Except Fault Path := do
  match (← r.required).scope with
  | some path => return path
  | none => throw .noScope

/-- The parent of a record's node. Records stand alone, so they have none. -/
def requireParent (r : Record ν) : Except Fault (Record ν) := do
  let _ ← r.required
  throw .notLinked

end Record

end Assay
