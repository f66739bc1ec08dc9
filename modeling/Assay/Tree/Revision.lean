import Assay.Spec.Qualified

/-! Revising the types of a tree. The nodes on the way to a type that changes are built anew, under
new numbers; all others are kept, so a part in which nothing changes is the same as before. -/

namespace Assay

/-- A revision: the new form of a thing, or `none` to keep it. -/
abbrev Revision (α : Type) := α → Revising (Option α)

/-- A revision of each element of a list. -/
def Revision.all {α : Type} (f : Revision α) : Revision (List α)
  | [] => return none
  | x :: rest => do
    match ← f x, ← Revision.all f rest with
    | none, none => return none
    | newHead, newRest => return some (newHead.getD x :: newRest.getD rest)

variable (f : Revision (TypeSpec Meta))

def Param.revise : Revision (Param Meta)
  | p => do
    match ← f p.spec with
    | some spec => return some { p with ann := ← p.ann.renew, spec }
    | none => return none

mutual

/-- A value with its outermost types revised. -/
def Value.revise : Revision (Value Meta)
  | .string .. => return none
  | .number .. => return none
  | .boolean .. => return none
  | .nothing _ => return none
  | .ident .. => return none
  | .bind m mode name spec value => do
    match ← f spec, ← value.revise with
    | none, none => return none
    | newSpec, newValue =>
      return some (.bind (← m.renew) mode name (newSpec.getD spec) (newValue.getD value))
  | .assign m ref value => do
    match ← value.revise with
    | some value => return some (.assign (← m.renew) ref value)
    | none => return none
  | .assignMember m receiver ref value => do
    match ← receiver.revise, ← value.revise with
    | none, none => return none
    | newReceiver, newValue =>
      return some (.assignMember (← m.renew) (newReceiver.getD receiver) ref (newValue.getD value))
  | .call m ref typeArgs args => do
    match ← Revision.all f typeArgs, ← Value.reviseAll args with
    | none, none => return none
    | newTypeArgs, newArgs =>
      return some (.call (← m.renew) ref (newTypeArgs.getD typeArgs) (newArgs.getD args))
  | .nested m outer inner => do
    match ← outer.revise, ← inner.revise with
    | none, none => return none
    | newOuter, newInner =>
      return some (.nested (← m.renew) (newOuter.getD outer) (newInner.getD inner))
  | .function m typeParams params result body => do
    match ← Revision.all (Param.revise f) params, ← f result, ← Statement.reviseAll body with
    | none, none, none => return none
    | newParams, newResult, newBody =>
      return some (.function (← m.renew) typeParams (newParams.getD params)
        (newResult.getD result) (newBody.getD body))

def Value.reviseAll : Revision (List (Value Meta))
  | [] => return none
  | v :: rest => do
    match ← v.revise, ← Value.reviseAll rest with
    | none, none => return none
    | newHead, newRest => return some (newHead.getD v :: newRest.getD rest)

def Statement.revise : Revision (Statement Meta)
  | ⟨m, value, last⟩ => do
    match ← value.revise with
    | some value => return some ⟨← m.renew, value, last⟩
    | none => return none

def Statement.reviseAll : Revision (List (Statement Meta))
  | [] => return none
  | s :: rest => do
    match ← s.revise, ← Statement.reviseAll rest with
    | none, none => return none
    | newHead, newRest => return some (newHead.getD s :: newRest.getD rest)

end

def Signature.revise : Revision (Signature Meta)
  | s => do
    match ← Revision.all (Param.revise f) s.params, ← f s.result with
    | none, none => return none
    | newParams, newResult =>
      return some { s with
        ann := ← s.ann.renew, params := newParams.getD s.params,
        result := newResult.getD s.result }

def Method.revise : Revision (Method Meta)
  | m => do
    match ← Signature.revise f m.signature, ← Statement.reviseAll f m.body with
    | none, none => return none
    | newSignature, newBody =>
      return some ⟨← m.ann.renew, newSignature.getD m.signature, newBody.getD m.body⟩

def Value.reviseOption : Revision (Option (Value Meta))
  | none => return none
  | some v => do return (← Value.revise f v).map some

def Attribute.revise : Revision (Attribute Meta)
  | a => do
    match ← f a.spec, ← Value.reviseOption f a.value with
    | none, none => return none
    | newSpec, newValue =>
      return some { a with
        ann := ← a.ann.renew, spec := newSpec.getD a.spec, value := newValue.getD a.value }

def TopLevel.revise : Revision (TopLevel Meta)
  | .ofType d => do
    match ← f d.super, ← Revision.all (Signature.revise f) d.methods with
    | none, none => return none
    | newSuper, newMethods =>
      return some (.ofType { d with
        ann := ← d.ann.renew, super := newSuper.getD d.super,
        methods := newMethods.getD d.methods })
  | .ofClass d => do
    match ← f d.super, ← Revision.all (Attribute.revise f) d.attributes,
        ← Revision.all (Method.revise f) d.methods with
    | none, none, none => return none
    | newSuper, newAttributes, newMethods =>
      return some (.ofClass { d with
        ann := ← d.ann.renew, super := newSuper.getD d.super,
        attributes := newAttributes.getD d.attributes, methods := newMethods.getD d.methods })

def Root.revise : Revision (Root Meta)
  | r => do
    match ← TopLevel.revise f r.top with
    | some top => return some { r with ann := ← r.ann.renew, top }
    | none => return none

/-- A source with the names of its types in full, or `none` if they are in full already. -/
def Root.qualify? (table : Scope) : Revision (Root Meta)
  | r => r.revise (TypeSpec.qualify? table r.space)

/-- A source with its types in flat form, or `none` if they are flat already. -/
def Root.flatten? : Revision (Root Meta)
  | r => r.revise fun s => liftM s.flatten?

end Assay
