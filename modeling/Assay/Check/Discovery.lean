import Assay.Check.Loading

/-! Discovery: declaring the types that a source defines and those that it uses. -/

namespace Assay

/-- How a type is loaded by its full name because of a node. -/
abbrev Load := Name → Node Meta → Check (Option Symbol)

namespace Discovery

/-- The symbol of a full name. A type that is not in the table yet is loaded and declared. -/
def resolve (load : Load) (name : Name) (trigger : Node Meta) : Check (Option Symbol) := do
  match ← Check.find [] name with
  | symbol :: _ => return some symbol
  | [] =>
    match ← load name trigger with
    | none => return none
    | some symbol =>
      Check.declare [] name symbol
      Check.log ("loaded " ++ name.full ++ ": " ++ symbol.toText)
      return some symbol

/-- Declares the top-level declaration of a source under its full name, and under its simple name
in the scope of the source. -/
def declareTop (r : Root Meta) : Check (List Diagnostic) := do
  let name := Name.ofText r.fullName
  match ← Check.find [] name with
  | previous :: _ => return [← Check.alreadyDefined r.fullName previous (.top r.top)]
  | [] =>
    let d : Declared := ⟨r.top.ann.id, r.fullName, r.top⟩
    Check.declare [] name d.symbol
    Check.modifyStore (·.addTop d)
    Check.log ("declared " ++ r.fullName)
    if r.top.name ≠ r.fullName then
      Check.declare (← Check.scopeOf r.ann) (Name.ofText r.top.name)
        (.alias r.top.ann.id r.fullName (some (.top r.top)))
    return []

def isAliasOf (target : Text) : Symbol → Bool
  | .alias _ other _ => other = target
  | _ => false

/-- Declares the name that a `use` brings in. To bring in a type twice under one name does no
harm. -/
def declareUse (load : Load) (space : Text) (u : Use Meta) : Check (List Diagnostic) := do
  let path ← Check.scopeOf u.ann
  let target := Name.ofTextIn u.source space
  let name := Name.ofText u.name
  match ← Check.findIn path name with
  | some previous =>
    if isAliasOf target.full previous then return []
    else return [← Check.alreadyDefined u.name previous (.use u)]
  | none =>
    match ← resolve load target (.use u) with
    | none => return [.ofNode (.notFound u.source) (.use u)]
    | some _ =>
      Check.declare path name (.alias u.ann.id target.full (some (.use u)))
      return []

def declareVariable (p : TypeParam Meta) : Check (List Diagnostic) := do
  let path ← Check.scopeOf p.ann
  let name := Name.ofText p.name
  match ← Check.findIn path name with
  | some previous => return [← Check.alreadyDefined p.name previous (.typeParam p)]
  | none =>
    Check.declare path name (.type p.name (.variable p))
    return []

/-- The full names that the name of a type can mean in a namespace: the one in the namespace, and
for a simple name the one in the runtime library. -/
def candidates (name space : Text) : List Name :=
  let here := Name.ofTextIn name space
  if (Name.ofText name).isQualified || space = librarySpace then [here]
  else [here, Name.ofText (librarySpace ++ "." ++ name)]

def resolveFirst (load : Load) (trigger : Node Meta) : List Name → Check (Option Name)
  | [] => return none
  | name :: rest => do
    match ← resolve load name trigger with
    | some _ => return some name
    | none => resolveFirst load trigger rest

/-- Finds the type that a node names, unless the name is known in its scope. A type found under a
simple name gets that name in the scope of the source. -/
def discoverType (load : Load) (r : Root Meta) (m : Meta) (text : Text) (n : Node Meta) :
    Check (List Diagnostic) := do
  let name := Name.ofText text
  match ← Check.find (← Check.scopeOf m) name with
  | _ :: _ => return []
  | [] =>
    match ← resolveFirst load n (candidates text r.space) with
    | none => return [.ofNode (.typeNotDefined text) n]
    | some found =>
      if !name.isQualified then
        Check.declare (← Check.scopeOf r.ann) name (.alias m.id found.full (some n))
      return []

def visitVariable : Node Meta → Check (List Diagnostic)
  | .typeParam p => declareVariable p
  | _ => return []

def visitSpec (load : Load) (r : Root Meta) : Node Meta → Check (List Diagnostic)
  | .spec (.simple m name args) => discoverType load r m name (.spec (.simple m name args))
  | _ => return []

end Discovery

/-- Declares what a source defines and uses: its top-level declaration first, so that sources can
name each other, then what it brings in, its type variables, and the types that it names. Of a
source that declares a type a second time nothing else is declared. -/
def Root.discover (load : Load) (r : Root Meta) : Check (List Diagnostic) :=
  Check.traced ("discoverTypes(" ++ r.fullName ++ ")") id do
    match ← Discovery.declareTop r with
    | [] =>
      let nodes := (Node.root r).nodes
      let uses ← Check.collect (Discovery.declareUse load r.space) r.uses
      let typeVariables ← Check.collect Discovery.visitVariable nodes
      let specs ← Check.collect (Discovery.visitSpec load r) nodes
      return uses ++ typeVariables ++ specs
    | errors => return errors

end Assay
