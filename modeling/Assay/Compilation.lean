import Assay.Check

/-! Compilations: sources that are checked against one table. They are compiled on demand: a source
that names the type of another one compiles that one first. Each is compiled once; if it is asked
for while it is being compiled, the answer is the symbol that it has by then. -/

namespace Assay

/-- A second source for one type. -/
structure DuplicateSource where
  path : Text
  name : Text

def DuplicateSource.message (d : DuplicateSource) : Text :=
  d.path ++ ": duplicate source for " ++ d.name

namespace SourceUnit

def ofSource (name space path text : Text) : SourceUnit :=
  ⟨name, space, path, text, none, [], .pending⟩

/-- The symbol of the type that a unit declares, once it is declared. -/
def symbol? (u : SourceUnit) (st : Store) : Option Symbol :=
  (u.root.bind fun r => st.declaredBy? r.top).map Declared.symbol

end SourceUnit

namespace State

def unit? (s : State) (name : Text) : Option SourceUnit := s.units.find? (·.name = name)

/-- The state after a source is added, unless there is one for its type. -/
def addSource (s : State) (name space path text : Text) : Except DuplicateSource State :=
  match s.unit? name with
  | some _ => .error ⟨path, name⟩
  | none => .ok { s with units := s.units ++ [SourceUnit.ofSource name space path text] }

/-- The state after the unit for a type has changed. -/
def changeUnit (s : State) (name : Text) (f : SourceUnit → SourceUnit) : State :=
  { s with units := s.units.map fun u => if u.name = name then f u else u }

end State

namespace Compilation

/-- Reads a source and makes it a tree, or notes why it cannot be read. -/
def read (u : SourceUnit) : Check (Option (Root Meta)) := do
  let s ← get
  let (files, result, next) := Root.read s.files u.space u.path u.text s.store.next
  set { s with files, store := { s.store with next } }
  match result with
  | .error m =>
    modify fun s => s.changeUnit u.name fun u => { u with errors := [m.diagnostic] }
    return none
  | .ok r =>
    modify fun s => s.changeUnit u.name fun u => { u with root := some r }
    return some r

/-- Compiles a unit that is pending, with the given way to load types. -/
def compileWith (load : Load) (u : SourceUnit) : Check Unit :=
  match u.status with
  | .compiling | .compiled => pure ()
  | .pending =>
    Check.traced ("compile(" ++ u.name ++ ")") (fun _ => []) do
      let setStatus (status : Status) : Check Unit :=
        modify fun s => s.changeUnit u.name fun u => { u with status }
      setStatus .compiling
      try
        match ← read u with
        | none => pure ()
        | some r =>
          let (r, errors) ← r.check load
          modify fun s => s.changeUnit u.name fun u => { u with root := some r, errors }
      catch f =>
        setStatus .compiled
        throw f
      setStatus .compiled

/-- A way to load types that asks the loaders of the config after another one. -/
def orListed (first : Name → Check (Option Symbol)) : Load := fun name trigger => do
  match ← first name with
  | some symbol => return some symbol
  | none => Check.loadListed name trigger

/-- Loads a type from the source for it, which is first compiled in the given way. -/
def loadBy (compile : SourceUnit → Check Unit) (name : Name) : Check (Option Symbol) := do
  match (← get).unit? name.full with
  | none => return none
  | some u =>
    if u.status = .compiling then Check.log ("cycle: " ++ u.name ++ " is being compiled")
    compile u
    let s ← get
    return (s.unit? name.full).bind fun u => u.symbol? s.store

/-- Loads a type by compiling the source for it. It is a fault if more than `depth` units are to be
compiled at a time. -/
def load : (depth : Nat) → Name → Check (Option Symbol)
  | 0 => loadBy fun u => if u.status = .pending then throw .exhausted else pure ()
  | depth + 1 => loadBy (compileWith (orListed (load depth)))

def compile (u : SourceUnit) : Check Unit := do
  compileWith (orListed (load (← get).units.length)) u

/-- Compiles the units with the given names in the given way and gives what is wrong with them, in
that order. -/
def compileEach (compile : SourceUnit → Check Unit) : List Text → Check (List Diagnostic)
  | [] => return []
  | name :: rest => do
    match (← get).unit? name with
    | none => compileEach compile rest
    | some u =>
      compile u
      let errors := (((← get).unit? name).map (·.errors)).getD []
      return errors ++ (← compileEach compile rest)

/-- Compiles all units and gives what is wrong with them, in the order of the text. -/
def compileAll : Check (List Diagnostic) := do
  return Diagnostic.sort (← compileEach compile ((← get).units.map (·.name)))

/-- Loads a type from the sources only. -/
def loadUnit (name : Name) : Check (Option Symbol) := do
  load ((← get).units.length + 1) name

end Compilation

end Assay
