import Assay.Store

/-! Shapes: what a type amounts to once its names are resolved, and the methods it has. -/

namespace Assay

/-- A method of a shape, known by its signature. -/
structure Member where
  name : Text
  params : List Text
  result : Text
deriving DecidableEq

/-- The text that tells methods apart. -/
def Member.signature (m : Member) : Text :=
  m.name ++ "(" ++ Text.join "," m.params ++ "): " ++ m.result

/-- What a type amounts to. -/
inductive Shape where
  /-- A class: its own methods, and those of the shape above it. -/
  | ofClass (name : Text) (super : Shape) (own : List Member)
  /-- A type declaration and its methods. -/
  | ofType (name : Text) (own : List Member)
  /-- Any one of several shapes. -/
  | union (types : List Shape)
  /-- Several shapes at once. -/
  | inter (types : List Shape)
  /-- Nothing is known of its methods. -/
  | empty

namespace Shape

/-- The methods of several lists, one for each signature, in the order of their signatures. -/
def merge (lists : List (List Member)) : List Member :=
  (Text.dedupBy Member.signature lists.flatten).mergeSort fun a b => Text.le a.signature b.signature

/-- The methods of the first list whose signature the second has too, in order of signatures. -/
def common (ms ns : List Member) : List Member :=
  (ms.filter fun m => ns.any (·.signature = m.signature)).mergeSort
    fun a b => Text.le a.signature b.signature

mutual

def name : Shape → Text
  | .ofClass name .. => name
  | .ofType name _ => name
  | .union types => "(" ++ Text.join " | " (names types) ++ ")"
  | .inter types => "(" ++ Text.join " & " (names types) ++ ")"
  | .empty => "[empty]"

def names : List Shape → List Text
  | [] => []
  | s :: rest => s.name :: names rest

end

mutual

/-- The methods of a shape, in the order of their signatures. -/
def methods : Shape → List Member
  | .ofClass _ super own => merge [own, super.methods]
  | .ofType _ own => merge [own]
  | .union types => merge (methodLists types)
  | .inter types =>
    match methodLists types with
    | [] => []
    | first :: rest => rest.foldl common first
  | .empty => []

def methodLists : List Shape → List (List Member)
  | [] => []
  | s :: rest => s.methods :: methodLists rest

end

/-- The methods of a class or a type declaration with the given name; other shapes promise none. -/
def find (s : Shape) (name : Text) : List Member :=
  match s with
  | .ofClass .. | .ofType .. => s.methods.filter (·.name = name)
  | _ => []

def same (s t : Shape) : Bool := s.name = t.name

/-- Shapes in the order of their canonical names. -/
def sorted (types : List Shape) : List Shape := types.mergeSort fun s t => Text.le s.name t.name

def unionOf (types : List Shape) : Shape := .union (sorted types)

def interOf (types : List Shape) : Shape := .inter (sorted types)

end Shape

namespace Symbol

/-- The full name that an alias stands for. -/
def target? : Symbol → Option Text
  | .alias _ target _ => some target
  | _ => none

/-- The full name of a type that a source declares. -/
def declaredName? : Symbol → Option Text
  | .type full (.declared _) => some full
  | _ => none

end Symbol

namespace Scope

/-- What `f` gives for the symbols of all scopes of a table. -/
def spelled (table : Scope) (f : Symbol → Option Text) : List Text :=
  ((table.walk []).flatMap fun (_, s) => s.symbols).filterMap fun (_, symbol) => f symbol

def aliasTargets (table : Scope) : List Text := table.spelled Symbol.target?

def typeNames (table : Scope) : List Text := table.spelled Symbol.declaredName?

/-- The symbol that a name means in the scope at a path after following aliases from the root, and
the path that the last name was looked up from; `none` if a name on the way does not have exactly
one symbol. It is a fault if more than `steps` aliases would have to be followed. -/
def chase (table : Scope) : (steps : Nat) → Path → Text → Except Fault (Option (Symbol × Path))
  | steps, path, name => do
    match ← table.find path (Name.ofText name) with
    | [.alias _ target _] =>
      match steps with
      | 0 => throw .exhausted
      | steps + 1 => chase table steps [] target
    | [symbol] => return some (symbol, path)
    | _ => return none

/-- The symbol that a name means, where no more aliases can be followed than there are. -/
def means (table : Scope) (path : Path) (name : Text) : Except Fault (Option (Symbol × Path)) :=
  table.chase table.aliasTargets.length path name

end Scope

namespace Shape

mutual

/-- The shape of a written type whose names, in the scope at a path, have the shapes that `named`
gives. -/
def ofSpecBy (named : Path → Text → Except Fault Shape) (path : Path) :
    TypeSpec Meta → Except Fault Shape
  | .simple _ name _ => named path name
  | .union _ types => do return unionOf (← ofSpecsBy named path types)
  | .inter _ types => do return interOf (← ofSpecsBy named path types)
  | .func .. => .ok .empty
  | .inferred _ => .ok .empty

def ofSpecsBy (named : Path → Text → Except Fault Shape) (path : Path) :
    List (TypeSpec Meta) → Except Fault (List Shape)
  | [] => .ok []
  | s :: rest => do return (← ofSpecBy named path s) :: (← ofSpecsBy named path rest)

end

/-- The method of a signature with the given result. -/
def member (s : Signature Meta) (result : TypeSpec Meta) : Member :=
  ⟨s.name, s.params.map (·.spec.toText), result.toText⟩

/-- The methods that a class declares; the result of a method is its inferred type, if it has
one. -/
def classMembers (st : Store) (d : ClassDecl Meta) : List Member :=
  d.methods.map fun m => member m.signature ((st.typeOf? m.ann.id).getD m.signature.result)

/-- The shape of a name in the scope at a path. A declaration that is being resolved already has the
empty shape, so a class may stand above itself. It is a fault if more than `depth` would have to be
resolved at once, and if aliases lead in a circle. -/
def named (st : Store) : (depth : Nat) → (busy : List Text) → Path → Text → Except Fault Shape
  | 0, _, _, _ => .error .exhausted
  | depth + 1, busy, path, name => do
    match ← st.table.means path name with
    | some (.type full (.declared id), path) =>
      if full ∈ busy then return .empty
      else
        match st.top? id with
        | some ⟨_, _, .ofClass d⟩ =>
          let super ← ofSpecBy (named st depth (full :: busy)) (d.ann.scope.getD path) d.super
          return .ofClass full super (classMembers st d)
        | some ⟨_, _, .ofType d⟩ => return .ofType full (d.methods.map fun m => member m m.result)
        | none => return .empty
    | _ => return .empty

/-- The shape of a written type in the scope at a path. No more declarations can be open at once than
the table has names for. -/
def ofSpec (st : Store) (path : Path) (s : TypeSpec Meta) : Except Fault Shape :=
  ofSpecBy (named st (st.table.typeNames.length + 1) []) path s

/-- The signatures of the methods that a name has, looked up from the root. -/
def methodSet (st : Store) (name : Text) : Except Fault (List Text) := do
  return (← ofSpec st [] (.simple ⟨0, none, none⟩ name [])).methods.map Member.signature

end Shape

end Assay
