import Assay.Check.Naming
import Assay.Overload

/-! Inference: the types of declarations and values. A declaration is typed when it is first
needed, so that a method can be called before its turn. While it is being typed it has no type yet;
what depends on it then has an unknown type. -/

namespace Assay

/-- A written type. -/
abbrev Spec := TypeSpec Meta

/-- How far inference has come in a source: the declarations that are typed, those that are being
typed, the nodes for which something is reported, and what is wrong. -/
structure Progress where
  done : List Nat
  visiting : List Nat
  reported : List Nat
  errors : List Diagnostic

def Progress.start : Progress := ⟨[], [], [], []⟩

/-- A step of inference. -/
abbrev Infer := StateT Progress Check

namespace Infer

/-- Reports a problem with a node, unless there is a report on it already. -/
def report (p : Problem) (n : Node Meta) : Infer Unit :=
  modify fun g =>
    if g.reported.contains n.ann.id then g
    else { g with reported := n.ann.id :: g.reported, errors := g.errors ++ [.ofNode p n] }

/-- The annotation of a type that stands nowhere in a source. -/
def newMeta : Fresh Meta := Meta.renew ⟨0, none, none⟩

def simple (name : Text) : Infer Spec := do
  return .simple (← liftM (Check.fresh newMeta)) name []

def library (name : Text) : Infer Spec := simple (librarySpace ++ "." ++ name)

/-- What has one of several types, in flat form. -/
def inter (types : List Spec) : Infer Spec :=
  liftM (Check.fresh (do TypeSpec.flatten (.inter (← newMeta) types)) : Check Spec)

def typeOf (id : Nat) : Infer (Option Spec) := do return (← Check.store).typeOf? id

/-- Gives a node its type, if that is known. -/
def setType (id : Nat) : Option Spec → Infer Unit
  | some t => Check.modifyStore (·.setType id t)
  | none => pure ()

/-- The written type of a declaration, or the inferred one if none is written. -/
def written (s : Spec) (inferred : Option Spec) : Option Spec :=
  if s.isInferred then inferred else some s

/-- Reports a node whose type is not known. -/
def needed (n : Node Meta) (t : Option Spec) : Infer (Option Spec) := do
  if t.isNone then report .notInferable n
  return t

/-- The node that a reference means, if it is a single one. -/
def target (ref : Reference Meta) : Infer (Option (Node Meta)) := do
  let st ← Check.store
  match st.refsOf? ref.ann.id with
  | some [symbol] => return st.decl? symbol
  | _ => return none

/-- The method that a call means, if its arguments pick a single one. Then the reference stands for
that one alone. -/
def callee (ref : Reference Meta) (args : List (Option Spec)) : Infer (Option (Node Meta)) := do
  let st ← Check.store
  match st.refsOf? ref.ann.id with
  | none => return none
  | some symbols =>
    match ← liftM (Check.orFault (Candidate.matching args (Candidate.ofSymbols st symbols))) with
    | [] =>
      report .noAlternatives (.reference ref)
      return none
    | [one] =>
      Check.modifyStore (·.setRefs ref.ann.id [one.symbol])
      Check.log (callName ref.name args.length ++ " resolved to " ++ one.symbol.toText)
      return some one.node
    | several =>
      report (.tooManyAlternatives several.length) (.reference ref)
      return none

section

variable (decl : Node Meta → Infer (Option Spec))

def params : List (Param Meta) → Infer Unit
  | [] => pure ()
  | p :: rest => do
    let _ ← decl (.param p)
    params rest

/-- The type of what a reference means, if that is known. -/
def reference (ref : Reference Meta) (n : Option (Node Meta)) : Infer (Option Spec) := do
  match n with
  | none => return none
  | some n =>
    let t ← decl n
    setType ref.ann.id t
    return t

/-- Widens the type of a declaration by that of a value assigned to it. -/
def widen (n : Node Meta) (t : Spec) : Infer Unit := do
  match ← decl n with
  | some old => setType n.ann.id (some (← inter [old, t]))
  | none => pure ()

mutual

/-- The type of a value, which is noted at its node. -/
def value (v : Value Meta) : Infer (Option Spec) := do
  let t ← match v with
    | .string .. => some <$> library "String"
    | .number .. => some <$> library "Number"
    | .boolean .. => some <$> library "Boolean"
    | .nothing _ => some <$> library "None"
    | .ident _ ref => do reference decl ref (← target ref)
    | .bind m mode name s v => do
      let t ← needed (.value (.bind m mode name s v)) (written s (← value v))
      modify fun g => { g with done := m.id :: g.done }
      pure t
    | .assign _ ref v => do
      let t ← value v
      match ← target ref, t with
      | some n, some t =>
        widen decl n t
        pure (some t)
      | _, _ => pure t
    | .assignMember _ receiver _ v => do
      let _ ← value receiver
      value v
    | .call _ ref _ args => do
      let args ← values args
      reference decl ref (← callee ref args)
    | .nested _ outer inner => do
      let _ ← value outer
      value inner
    | .function _ _ ps _ body => do
      params decl ps
      let _ ← statements body
      some <$> library "Function"
  setType v.ann.id t
  return t

def values : List (Value Meta) → Infer (List (Option Spec))
  | [] => return []
  | v :: rest => do
    let t ← value v
    return t :: (← values rest)

/-- The type of a body: that of its last statement. An empty body is of type `None`. -/
def statements : List (Statement Meta) → Infer (Option Spec)
  | [] => some <$> library "None"
  | s :: rest => do
    let t ← statement s
    if s.last then
      match t with
      | none => return none
      | some t => statementsAfter [t] rest
    else statementsAfter [] rest

/-- The type of a body, of which the given types of last statements are found. -/
def statementsAfter (lasts : List Spec) : List (Statement Meta) → Infer (Option Spec)
  | [] =>
    match lasts with
    | [t] => return some t
    | types => some <$> inter types
  | s :: rest => do
    let t ← statement s
    if s.last then
      match t with
      | none => return none
      | some t => statementsAfter (lasts ++ [t]) rest
    else statementsAfter lasts rest

/-- The type of a statement, which is noted at its node. -/
def statement : Statement Meta → Infer (Option Spec)
  | ⟨m, v, _⟩ => do
    let t ← value v
    setType m.id t
    return t

end

/-- The type of a node that declares something, from its parts. -/
def declaration (n : Node Meta) : Infer (Option Spec) := do
  match n with
  | .attribute a =>
    let t ← match a.value with
      | some v => value decl v
      | none => pure none
    needed n (written a.spec t)
  | .param p => needed n (written p.spec none)
  | .method m =>
    params decl m.signature.params
    let t := written m.signature.result (← statements decl m.body)
    setType m.signature.ann.id t
    return t
  | .signature s =>
    params decl s.params
    needed n (written s.result none)
  | .typeParam p => some <$> simple p.name
  | .top (.ofClass d) => typeOf d.ann.id
  | .value (.bind m ..) => typeOf m.id
  | .top (.ofType _) => return none
  | .use _ => return none
  | .spec (.simple ..) => return none
  | _ => throw (.notADeclaration n.kind)

end

/-- The type of a node that declares something, which is found once; while it is being found, the
type is not known. It is a fault if more than `depth` declarations are being typed at a time. -/
def decl : (depth : Nat) → Node Meta → Infer (Option Spec)
  | depth, n => do
    let id := n.ann.id
    let g ← get
    if g.done.contains id || g.visiting.contains id then typeOf id
    else
      match depth with
      | 0 => throw .exhausted
      | depth + 1 =>
        modify fun g => { g with visiting := id :: g.visiting }
        let t ← declaration (decl depth) n
        modify fun g => { g with visiting := g.visiting.filter (· ≠ id), done := id :: g.done }
        setType id t
        typeOf id

def decls (depth : Nat) : List (Node Meta) → Infer Unit
  | [] => pure ()
  | n :: rest => do
    let _ ← decl depth n
    decls depth rest

/-- Types what a source declares. A class is of its own type and of the one above it. -/
def top (r : Root Meta) : Infer Unit := do
  match r.top with
  | .ofType d => decls (← Check.store).next (d.methods.map .signature)
  | .ofClass d =>
    let own ← simple r.fullName
    setType d.ann.id (some (.union (← liftM (Check.fresh newMeta)) [d.super, own]))
    modify fun g => { g with done := d.ann.id :: g.done }
    decls (← Check.store).next (d.attributes.map .attribute ++ d.methods.map .method)

end Infer

/-- Changes the type of the node with the given number, if it has one that `change` replaces. -/
def Check.retype (change : Spec → Fresh (Option Spec)) (id : Nat) : Check Unit := do
  match (← Check.store).typeOf? id with
  | some t =>
    match ← Check.fresh (change t) with
    | some t => Check.modifyStore (·.setType id t)
    | none => pure ()
  | none => pure ()

def Check.flattenTypes : List (Node Meta) → Check Unit
  | [] => pure ()
  | n :: rest => do
    Check.retype TypeSpec.flatten? n.ann.id
    flattenTypes rest

namespace ClassDecl

/-- The methods that make an instance: those with the name of the class. -/
def constructors (d : ClassDecl Meta) : List (Method Meta) :=
  d.methods.filter (·.signature.name = d.name)

/-- Whether a statement assigns to the attribute whose node has the given number. -/
def assigns (st : Store) (id : Nat) (s : Statement Meta) : Bool :=
  match s.value with
  | .assign _ ref _ =>
    ((st.refsOf? ref.ann.id).getD []).any fun symbol =>
      match st.decl? symbol with
      | some (.attribute a) => a.ann.id = id
      | _ => false
  | _ => false

/-- Whether each way to make an instance assigns to an attribute, and there is one. -/
def isAlwaysAssigned (st : Store) (d : ClassDecl Meta) (a : Attribute Meta) : Bool :=
  !d.constructors.isEmpty && d.constructors.all fun m => m.body.any (assigns st a.ann.id)

/-- A type without the alternative that there is no value, if it has that one and others. -/
def withoutNone? : Spec → Fresh (Option Spec)
  | .inter m types => do
    let others := types.filter fun t => t.toText ≠ librarySpace ++ ".None"
    if others.isEmpty || others.length = types.length then return none
    else return some (← TypeSpec.flatten (.inter (← m.renew) others))
  | _ => return none

/-- Takes the alternative that there is no value from the types of those attributes that each way
to make an instance assigns to. -/
def removeNone (d : ClassDecl Meta) : List (Attribute Meta) → Check Unit
  | [] => pure ()
  | a :: rest => do
    if isAlwaysAssigned (← Check.store) d a then Check.retype withoutNone? a.ann.id
    removeNone d rest

end ClassDecl

/-- Finds the types of the declarations and values of a source. -/
def Root.infer (r : Root Meta) : Check (List Diagnostic) :=
  Check.traced ("inferTypes(" ++ r.fullName ++ ")") id do
    let (_, g) ← (Infer.top r).run .start
    Check.flattenTypes (Node.root r).nodes
    match r.top with
    | .ofClass d => d.removeNone d.attributes
    | .ofType _ => pure ()
    return g.errors

end Assay
