import Assay.Name
import Assay.Symbol

/-! The symbol table: a tree of scopes. A scope holds one symbol for a plain name and a list of
symbols for an overload set, each in the order of their first declaration, and its inner scopes in
the order they were opened. -/

namespace Assay

/-- An entry of a scope: a plain name, or an overload set with the full names of its members. -/
inductive Binding where
  | plain (name : Text) (symbol : Symbol)
  | overloads (key : Text) (members : List (Text × Symbol))

namespace Binding

def key : Binding → Key
  | .plain name _ => .plain name
  | .overloads key _ => .overloads key

def members : Binding → List (Text × Symbol)
  | .plain name symbol => [(name, symbol)]
  | .overloads _ members => members

end Binding

/-- A scope: its name, its entries, and the scopes inside it. -/
structure Scope where
  name : Text
  bindings : List Binding
  inner : List Scope

namespace Scope

def empty (name : Text) : Scope := ⟨name, [], []⟩

def table : Scope := empty []

def child? (s : Scope) (name : Text) : Option Scope := s.inner.find? (·.name = name)

def at? (s : Scope) : Path → Option Scope
  | [] => some s
  | name :: rest =>
    match s.child? name with
    | some inner => inner.at? rest
    | none => none

/-- The scopes with the first one of the given name changed, or a new one at the end. -/
def changeChild (name : Text) (change : Scope → Scope) : List Scope → List Scope
  | [] => [change (empty name)]
  | s :: rest => if s.name = name then change s :: rest else s :: changeChild name change rest

/-- The table with the scope at a path changed; scopes that are missing on the way are opened. -/
def change (f : Scope → Scope) : Path → Scope → Scope
  | [], s => f s
  | name :: rest, s => { s with inner := changeChild name (change f rest) s.inner }

def openAt (path : Path) (s : Scope) : Scope := change id path s

def binding? (s : Scope) (key : Key) : Option Binding := s.bindings.find? (·.key = key)

/-- The symbols of a scope under a key, if it has an entry for it. -/
def symbols? (s : Scope) (key : Key) : Option (List Symbol) :=
  (s.binding? key).map fun b => b.members.map (·.2)

/-- The symbols under a key in the innermost scope on a path that has an entry for it. -/
def nearest? (s : Scope) (path : Path) (key : Key) : Option (List Symbol) :=
  match path with
  | [] => s.symbols? key
  | name :: rest =>
    match s.child? name with
    | some inner => (inner.nearest? rest key).or (s.symbols? key)
    | none => s.symbols? key

/-- The entries with a symbol added under a key: a plain name gets a new symbol, an overload set
one more. -/
def addBinding (key : Key) (name : Text) (symbol : Symbol) : List Binding → List Binding
  | [] =>
    match key with
    | .plain plainName => [.plain plainName symbol]
    | .overloads set => [.overloads set [(name, symbol)]]
  | b :: rest =>
    if b.key = key then
      match b with
      | .plain plainName _ => .plain plainName symbol :: rest
      | .overloads set members => .overloads set (members ++ [(name, symbol)]) :: rest
    else b :: addBinding key name symbol rest

def add (key : Key) (name : Text) (symbol : Symbol) (s : Scope) : Scope :=
  { s with bindings := addBinding key name symbol s.bindings }

/-- The path of the scope that a name of the scope at `path` is declared in: that scope, or the one
that its qualifier names from the root. -/
def home (path : Path) (name : Name) : Path :=
  if name.isQualified then name.qualifier else path

/-- The table with a symbol declared under a name in the scope at a path, or in the one that the
name's qualifier names. That scope is opened even if the name has no key, which is a fault. -/
def declare (table : Scope) (path : Path) (name : Name) (symbol : Symbol) : Scope × Option Fault :=
  match name.key with
  | .ok key => (change (add key name.simple symbol) (home path name) table, none)
  | .error fault => (openAt (home path name) table, some fault)

/-- The symbols that a name denotes in the scope at a path. A qualified name is looked up from the
root; a simple one in this scope and then in those around it, up to the first that has an entry. -/
def find (table : Scope) (path : Path) (name : Name) : Except Fault (List Symbol) :=
  if name.isQualified then
    match table.at? name.qualifier with
    | some s => name.key.map fun key => (s.symbols? key).getD []
    | none => .ok []
  else name.key.map fun key => (table.nearest? path key).getD []

/-- The symbol of a scope that is declared under exactly the given simple name. -/
def findHere? (s : Scope) (name : Name) : Except Fault (Option Symbol) :=
  name.key.map fun key =>
    (s.binding? key).bind fun b => (b.members.find? (·.1 = name.simple)).map (·.2)

/-- The symbol declared under exactly the given simple name in the scope at a path. -/
def findIn (table : Scope) (path : Path) (name : Name) : Except Fault (Option Symbol) :=
  ((table.at? path).getD (empty [])).findHere? name

/-- Whether a simple name is declared in the scope at a path; a qualified name never is. -/
def isDeclaredIn (table : Scope) (path : Path) (name : Name) : Except Fault Bool :=
  if name.isQualified then .ok false else (table.findIn path name).map (·.isSome)

/-- The names and symbols of a scope, in order. -/
def symbols (s : Scope) : List (Text × Symbol) := s.bindings.flatMap (·.members)

mutual

/-- A scope and all scopes inside it, outer ones first, each with its path. -/
def walk (path : Path) : Scope → List (Path × Scope)
  | ⟨name, bindings, inner⟩ => (path, ⟨name, bindings, inner⟩) :: walkAll path inner

/-- `walk` on each of the scopes inside the scope at a path. -/
def walkAll (path : Path) : List Scope → List (Path × Scope)
  | [] => []
  | s :: rest => walk (path ++ [s.name]) s ++ walkAll path rest

end

/-- The line for a name and its symbol, after `indent`. -/
def entryLine (indent : Text) (entry : Text × Symbol) : Text :=
  indent ++ entry.1 ++ ": " ++ entry.2.toText ++ "\n"

mutual

/-- The text of what is in a scope, each line after `indent`. -/
def render (indent : Text) : Scope → Text
  | ⟨_, bindings, inner⟩ =>
    (bindings.flatMap (·.members)).flatMap (entryLine indent) ++ renderAll indent inner

/-- The text of scopes: their names, and what is in them after two more spaces. -/
def renderAll (indent : Text) : List Scope → Text
  | [] => []
  | s :: rest => indent ++ s.name ++ "\n" ++ render (indent ++ "  ") s ++ renderAll indent rest

end

def toText (table : Scope) : Text := render [] table

end Scope

end Assay
