import Assay.Check.Discovery

/-! Names: declaring the parameters, attributes, variables and methods of a source, and finding
what its references mean. A source gives a list of events in the order of the text. Those that
allow no reference forward are settled one after another, so that a name is known only after its
declaration; calls are settled when all names are declared. -/

namespace Assay

/-- What a source does with a name. -/
inductive NameEvent where
  /-- A node declares a name in a scope. -/
  | declare (scope : Option Path) (name : Text) (node : Node Meta)
  /-- A reference stands for what has the given name, as the tree around it says. -/
  | refer (ref : Reference Meta) (name : Text)

def Param.nameEvent (p : Param Meta) : NameEvent := .declare p.ann.scope p.name (.param p)

mutual

def Value.nameEvents : Value Meta → List NameEvent
  | .string .. => []
  | .number .. => []
  | .boolean .. => []
  | .nothing _ => []
  | .ident _ ref => [.refer ref ref.name]
  | .bind m mode name s v =>
    v.nameEvents ++ [.declare m.scope name (.value (.bind m mode name s v))]
  | .assign _ ref v => .refer ref ref.name :: v.nameEvents
  | .assignMember _ receiver ref v =>
    .refer ref ref.name :: (receiver.nameEvents ++ v.nameEvents)
  | .call _ ref _ args =>
    .refer ref (callName ref.name args.length) :: Value.nameEventsAll args
  | .nested _ outer inner => inner.nameEvents ++ outer.nameEvents
  | .function _ _ params _ body =>
    params.map Param.nameEvent ++ Statement.nameEventsAll body

def Value.nameEventsAll : List (Value Meta) → List NameEvent
  | [] => []
  | v :: rest => v.nameEvents ++ Value.nameEventsAll rest

def Statement.nameEvents : Statement Meta → List NameEvent
  | ⟨_, v, _⟩ => v.nameEvents

def Statement.nameEventsAll : List (Statement Meta) → List NameEvent
  | [] => []
  | s :: rest => s.nameEvents ++ Statement.nameEventsAll rest

end

def Path.outer (path : Path) : Path := path.dropLast

/-- The events of a top-level declaration. Methods are declared around their own scope. -/
def TopLevel.nameEvents : TopLevel Meta → List NameEvent
  | .ofType d =>
    d.methods.flatMap fun s =>
      .declare (s.ann.scope.map Path.outer) s.symbolName (.signature s) ::
        s.params.map Param.nameEvent
  | .ofClass d =>
    .declare d.ann.scope "this" (.top (.ofClass d)) ::
      (d.attributes.flatMap fun a =>
        (match a.value with
          | some v => v.nameEvents
          | none => []) ++ [.declare a.ann.scope a.name (.attribute a)]) ++
      d.methods.flatMap fun m =>
        .declare (m.ann.scope.map Path.outer) m.signature.symbolName (.method m) ::
          (m.signature.params.map Param.nameEvent ++ Statement.nameEventsAll m.body)

/-- The name that a reference stands for: that of the call that it is linked to as its parent, or its
own. -/
def Store.nameOf (st : Store) (ref : Reference Meta) : Except Fault Text :=
  match st.relativesOf? ref.ann.id with
  | none => .error .notLinked
  | some place =>
    match place.parent?.map Relatives.node with
    | none => .error .outOfBounds
    | some (.value (.call _ called _ args)) => .ok (callName called.name args.length)
    | some _ => .ok ref.name

namespace NameEvent

/-- Declares a name in the scope at a path. The first declaration of a name in a scope is kept. -/
def declareName (path : Path) (name : Text) (n : Node Meta) : Check (List Diagnostic) := do
  match ← Check.findIn path (Name.ofText name) with
  | some previous => return [← Check.alreadyDefined name previous n]
  | none =>
    Check.declare path (Name.ofText name) (.named name (some n))
    Check.log ("declared " ++ name ++ " in " ++ Path.full path)
    return []

/-- Finds what a reference means, under the name that its place in the tree gives it. -/
def resolve (ref : Reference Meta) : Check (List Diagnostic) := do
  let name ← Check.orFault ((← Check.store).nameOf ref)
  match ← Check.find (← Check.scopeOf ref.ann) (Name.ofText name) with
  | [] =>
    let problem := if ref.forward then Problem.notFound name else Problem.notDefined name
    return [.ofNode problem (.reference ref)]
  | symbols =>
    Check.modifyStore (·.setRefs ref.ann.id symbols)
    return []

/-- Settles an event in its turn; a reference that may point forward is left for later. -/
def settle : NameEvent → Check (List Diagnostic)
  | .declare scope name n =>
    match scope with
    | some path => declareName path name n
    | none => throw .noScope
  | .refer ref _ => if ref.forward then return [] else resolve ref

/-- Settles an event that was left for later. -/
def settleLate : NameEvent → Check (List Diagnostic)
  | .declare .. => return []
  | .refer ref _ => if ref.forward then resolve ref else return []

end NameEvent

/-- Declares the names of a source and finds what its references mean. -/
def Root.resolveNames (r : Root Meta) : Check (List Diagnostic) :=
  Check.traced ("checkNames(" ++ r.fullName ++ ")") id do
    let events := r.top.nameEvents
    let errors ← Check.collect NameEvent.settle events
    return errors ++ (← Check.collect NameEvent.settleLate events)

end Assay
