import Assay.Compilation
import Assay.Digest
import Assay.Shape

/-! The index of a compilation: its units, the symbols of its table and the methods of its types,
for tools that look them up. -/

namespace Assay

/-- What the index keeps of a unit. -/
structure UnitRecord where
  name : Text
  path : Text
  /-- The digest of the text. -/
  digest : Text
  /-- How many things are wrong with it. -/
  errors : Nat

/-- What the index keeps of a symbol. -/
structure SymbolRecord where
  /-- The full name of the scope that declares the symbol. -/
  scope : Text
  /-- The name of the symbol in its scope. -/
  name : Text
  full : Text
  kind : Text
  symbol : Text
  /-- Where the symbol is declared, or nothing. -/
  location : Text

/-- What the index keeps of a method. -/
structure MethodRecord where
  type : Text
  signature : Text

/-- The records of an index, in the order in which they were written. -/
structure Index where
  units : List UnitRecord
  symbols : List SymbolRecord
  methods : List MethodRecord

namespace Index

def empty : Index := ⟨[], [], []⟩

/-- Why an index cannot be written. -/
inductive Refusal where
  /-- Two units have one name. -/
  | repeated (name : Text)
  /-- The methods of a type cannot be found. -/
  | fault (f : Fault)

def repeatedMessage (name : Text) : Text :=
  "index " ++ name ++ ": constraint failed: UNIQUE constraint failed: units.name (1555)"

/-- The records of the symbols of a scope with the given path. -/
def scopeRecords (st : Store) (path : Path) (s : Scope) : List SymbolRecord :=
  let scope := path.full
  s.symbols.map fun (name, symbol) =>
    ⟨scope, name, if scope.isEmpty then name else scope ++ "." ++ name, symbol.kind, symbol.toText,
      match st.position? symbol with
      | some p => p.location.toText
      | none => []⟩

/-- The records of the methods of the type that a unit declares. -/
def methodRecords (st : Store) (u : SourceUnit) : Except Fault (List MethodRecord) :=
  match u.symbol? st with
  | none => .ok []
  | some _ => do
    return (← Shape.methodSet st u.name).map fun signature => ⟨u.name, signature⟩

/-- The index with the records of several more units. -/
def addUnits (st : Store) (ix : Index) : List SourceUnit → Except Refusal Index
  | [] => .ok ix
  | u :: rest =>
    if ix.units.any (·.name = u.name) then .error (.repeated u.name)
    else match methodRecords st u with
      | .error f => .error (.fault f)
      | .ok methods =>
        addUnits st
          { ix with
            units := ix.units ++ [⟨u.name, u.path, Digest.ofText u.text, u.errors.length⟩]
            methods := ix.methods ++ methods }
          rest

/-- The index of units and of a store. -/
def ofUnits (units : List SourceUnit) (st : Store) : Except Refusal Index := do
  let ix ← addUnits st empty units
  return { ix with symbols := (st.table.walk []).flatMap fun (path, s) => scopeRecords st path s }

/-- The symbols with the given name or full name, ordered by full name. -/
def lookup (ix : Index) (name : Text) : List SymbolRecord :=
  (ix.symbols.filter fun r => r.name = name || r.full = name).mergeSort fun a b =>
    Text.le a.full b.full

def unitsByName (ix : Index) : List UnitRecord :=
  ix.units.mergeSort fun a b => Text.le a.name b.name

def methodsOf (ix : Index) (type : Text) : List Text :=
  (ix.methods.filter (·.type = type)).map (·.signature)

def unwritableMessage : Text :=
  "create index schema: unable to open database file: out of memory (14)"

/-- The text of an index: a line for each record, with its kind and its values quoted. -/
def toText (ix : Index) : Text :=
  let line (values : List Text) : Text := Text.join "\t" values ++ "\n"
  let record (kind : Text) (values : List Text) : Text := line (kind :: values.map Text.quote)
  (ix.units.flatMap fun r => record "unit" [r.name, r.path, r.digest, Text.ofNat r.errors]) ++
    (ix.symbols.flatMap fun r =>
      record "symbol" [r.scope, r.name, r.full, r.kind, r.symbol, r.location]) ++
    ix.methods.flatMap fun r => record "method" [r.type, r.signature]

/-- Units and a store to be written to an index. -/
structure Write where
  units : List SourceUnit
  store : Store

end Index

/-- A database with an index. -/
structure Database where
  /-- What was written last. -/
  shown : Index
  /-- A write has not come back and its transaction is still open. -/
  locked : Bool

namespace Database

def new : Database := ⟨.empty, false⟩

/-- How a write ends. -/
inductive Outcome where
  | written
  | refused (why : Index.Refusal)
  /-- Another transaction is open. -/
  | busy

/-- The database shows all of a write or nothing. A repeated name rolls the transaction back; a fault
while the methods of a type are looked for leaves it open. -/
def write (db : Database) (w : Index.Write) : Outcome × Database :=
  if db.locked then (.busy, db)
  else match Index.ofUnits w.units w.store with
    | .ok ix => (.written, { db with shown := ix })
    | .error (.repeated name) => (.refused (.repeated name), db)
    | .error (.fault f) => (.refused (.fault f), { db with locked := true })

end Database

end Assay
