import Assay.Reading
import Assay.Spec.Qualified
import Assay.Store

/-! What checking sources reads and changes, and the steps that all its parts are made of. -/

namespace Assay

/-- Where types come from that no source has declared yet. -/
inductive Loader where
  /-- The runtime library. -/
  | library
  /-- The classes and interfaces of the host platform. -/
  | host (classes interfaces : List Text)
  /-- A list of symbols by their full names, which keeps a record of what it is asked for under the
  given label. -/
  | listed (label : Text) (known : List (Text × Symbol))

/-- How sources are checked: the loaders to ask, in order, and whether the steps are traced. -/
structure Config where
  loaders : List Loader
  trace : Bool

/-- The config of a plain run: the runtime library, and no trace. -/
def Config.default : Config := ⟨[.library], false⟩

/-- How far a unit has come. -/
inductive Status where
  | pending
  | compiling
  | compiled
deriving DecidableEq

/-- A source of a compilation: the full name of the type it declares, its namespace, its path and
its text; the tree, once it is read; and what is wrong with it, once it is checked. -/
structure SourceUnit where
  name : Text
  space : Text
  path : Text
  text : Text
  root : Option (Root Meta)
  errors : List Diagnostic
  status : Status

/-- The state of checking. -/
structure State where
  store : Store
  config : Config
  /-- How deep the step is that is being traced. -/
  depth : Nat
  /-- The lines of the trace, the last one first. -/
  trace : List Text
  /-- What the listed loaders were asked for, in order. -/
  asked : List Text
  files : Files
  units : List SourceUnit

def State.start (config : Config) : State := ⟨.empty, config, 0, [], [], [], []⟩

def State.traceText (s : State) : Text := s.trace.reverse.flatten

/-- A step of checking. A fault ends it and keeps the state as it is. -/
abbrev Check := ExceptT Fault (StateM State)

namespace Check

def modifyStore (f : Store → Store) : Check Unit :=
  modify fun s => { s with store := f s.store }

def store : Check Store := do return (← get).store

def orFault {α : Type} : Except Fault α → Check α
  | .ok x => pure x
  | .error f => throw f

def log (line : Text) : Check Unit :=
  modify fun s =>
    if s.config.trace then { s with trace := (Text.times s.depth "---" ++ line ++ "\n") :: s.trace }
    else s

/-- A step with a name. What it does is traced one level deeper, and what it finds wrong at its
end. -/
def traced {α : Type} (name : Text) (errors : α → List Diagnostic) (step : Check α) : Check α := do
  log name
  let depth := (← get).depth
  modify fun s => { s with depth := depth + 1 }
  let result ← try step catch f =>
    modify fun s => { s with depth }
    throw f
  unless (errors result).isEmpty do
    log ("[" ++ Text.join " " ((errors result).map Diagnostic.toText) ++ "]")
  modify fun s => { s with depth }
  return result

def fresh {α : Type} (step : Fresh α) : Check α :=
  modifyGet fun s =>
    let (x, next) := step.run s.store.next
    (x, { s with store := { s.store with next } })

def revise {α : Type} (step : Revising α) : Check α := do
  orFault (← fresh step.run)

def scopeOf (m : Meta) : Check Path :=
  match m.scope with
  | some path => pure path
  | none => throw .noScope

def find (path : Path) (name : Name) : Check (List Symbol) := do
  orFault ((← store).table.find path name)

/-- The symbol that is declared under exactly the given name in the scope at a path. -/
def findIn (path : Path) (name : Name) : Check (Option Symbol) := do
  orFault ((← store).table.findIn path name)

def declare (path : Path) (name : Name) (symbol : Symbol) : Check Unit := do
  let (table, fault) := (← store).table.declare path name symbol
  modifyStore fun st => { st with table }
  match fault with
  | some f => throw f
  | none => pure ()

def collect {α : Type} (step : α → Check (List Diagnostic)) : List α → Check (List Diagnostic)
  | [] => return []
  | x :: rest => do
    let errors ← step x
    return errors ++ (← collect step rest)

/-- The diagnostic that a name is declared already, as the given symbol. -/
def alreadyDefined (name : Text) (previous : Symbol) (n : Node Meta) : Check Diagnostic := do
  let place := ((← store).position? previous).map (·.location)
  return .ofNode (.alreadyDefined name place) n

end Check

end Assay
