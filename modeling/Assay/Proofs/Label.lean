import Mathlib
import Assay.Proofs.Nodes

/-! What a node says itself, beside its annotation and its children: its label. Label, annotation and
children together are the node, so a change of a tree can be described for nodes of all kinds at
once. -/

namespace Assay

variable {α : Type}

namespace Node

/-- What a node says itself, without its annotation and what is below it. -/
inductive Label where
  | root (space : Text)
  | use (source name : Text)
  | typeDecl (visibility : Visibility) (name : Text)
  | classDecl (visibility : Visibility) (name : Text)
  | attribute (mode : Mode) (name : Text)
  | method
  | signature (visibility : Visibility) (name : Text)
  | param (name : Text)
  | typeParam (name : Text)
  | statement (last : Bool)
  | reference (name : Text) (forward : Bool)
  | string (text : Text)
  | number (digits : Text)
  | boolean (truth : Bool)
  | nothing
  | ident
  | bind (mode : Mode) (name : Text)
  | assign
  | assignMember
  | call
  | nested
  | function
  | simple (name : Text)
  | union
  | inter
  | func
  | inferred
deriving DecidableEq

def label : Node α → Label
  | .root r => .root r.space
  | .use u => .use u.source u.name
  | .top (.ofType d) => .typeDecl d.visibility d.name
  | .top (.ofClass d) => .classDecl d.visibility d.name
  | .attribute a => .attribute a.mode a.name
  | .method _ => .method
  | .signature s => .signature s.visibility s.name
  | .param p => .param p.name
  | .typeParam p => .typeParam p.name
  | .statement s => .statement s.last
  | .reference r => .reference r.name r.forward
  | .value (.string _ text) => .string text
  | .value (.number _ digits) => .number digits
  | .value (.boolean _ truth) => .boolean truth
  | .value (.nothing _) => .nothing
  | .value (.ident ..) => .ident
  | .value (.bind _ mode name _ _) => .bind mode name
  | .value (.assign ..) => .assign
  | .value (.assignMember ..) => .assignMember
  | .value (.call ..) => .call
  | .value (.nested ..) => .nested
  | .value (.function ..) => .function
  | .spec (.simple _ name _) => .simple name
  | .spec (.union ..) => .union
  | .spec (.inter ..) => .inter
  | .spec (.func ..) => .func
  | .spec (.inferred _) => .inferred

/-- The node of a kind, as a thing of that kind. -/
def use? : Node α → Option (Use α)
  | .use u => some u
  | _ => none

@[inherit_doc use?]
def top? : Node α → Option (TopLevel α)
  | .top t => some t
  | _ => none

@[inherit_doc use?]
def attribute? : Node α → Option (Attribute α)
  | .attribute a => some a
  | _ => none

@[inherit_doc use?]
def method? : Node α → Option (Method α)
  | .method m => some m
  | _ => none

@[inherit_doc use?]
def signature? : Node α → Option (Signature α)
  | .signature s => some s
  | _ => none

@[inherit_doc use?]
def param? : Node α → Option (Param α)
  | .param p => some p
  | _ => none

@[inherit_doc use?]
def typeParam? : Node α → Option (TypeParam α)
  | .typeParam p => some p
  | _ => none

@[inherit_doc use?]
def statement? : Node α → Option (Statement α)
  | .statement s => some s
  | _ => none

@[inherit_doc use?]
def reference? : Node α → Option (Reference α)
  | .reference r => some r
  | _ => none

@[inherit_doc use?]
def value? : Node α → Option (Value α)
  | .value v => some v
  | _ => none

@[inherit_doc use?]
def spec? : Node α → Option (TypeSpec α)
  | .spec s => some s
  | _ => none

def build? (label : Label) (a : α) (kids : List (Node α)) : Option (Node α) :=
  let params := kids.filterMap param?
  let typeParams := kids.filterMap typeParam?
  let specs := kids.filterMap spec?
  let values := kids.filterMap value?
  let body := kids.filterMap statement?
  let refs := kids.filterMap reference?
  match label with
  | .root space =>
    (kids.filterMap top?).head?.map fun t => .root ⟨a, space, kids.filterMap use?, t⟩
  | .use source name => some (.use ⟨a, source, name⟩)
  | .typeDecl visibility name => specs.head?.map fun s =>
    .top (.ofType ⟨a, visibility, name, typeParams, s, kids.filterMap signature?⟩)
  | .classDecl visibility name => specs.head?.map fun s =>
    .top (.ofClass ⟨a, visibility, name, typeParams, s, kids.filterMap attribute?,
      kids.filterMap method?⟩)
  | .attribute mode name => specs.head?.map fun s => .attribute ⟨a, mode, name, s, values.head?⟩
  | .method => (kids.filterMap signature?).head?.map fun s => .method ⟨a, s, body⟩
  | .signature visibility name => specs.head?.map fun s =>
    .signature ⟨a, visibility, name, typeParams, params, s⟩
  | .param name => specs.head?.map fun s => .param ⟨a, name, s⟩
  | .typeParam name => some (.typeParam ⟨a, name⟩)
  | .statement last => values.head?.map fun v => .statement ⟨a, v, last⟩
  | .reference name forward => some (.reference ⟨a, name, forward⟩)
  | .string text => some (.value (.string a text))
  | .number digits => some (.value (.number a digits))
  | .boolean truth => some (.value (.boolean a truth))
  | .nothing => some (.value (.nothing a))
  | .ident => refs.head?.map fun ref => .value (.ident a ref)
  | .bind mode name => do return .value (.bind a mode name (← specs.head?) (← values.head?))
  | .assign => do return .value (.assign a (← refs.head?) (← values.head?))
  | .assignMember => do
    return .value (.assignMember a (← values.head?) (← refs.head?) (← values.getLast?))
  | .call => refs.head?.map fun ref => .value (.call a ref specs values)
  | .nested => do return .value (.nested a (← values.head?) (← values.getLast?))
  | .function => specs.head?.map fun s => .value (.function a typeParams params s body)
  | .simple name => some (.spec (.simple a name specs))
  | .union => some (.spec (.union a specs))
  | .inter => some (.spec (.inter a specs))
  | .func => specs.getLast?.map fun s => .spec (.func a specs.dropLast s)
  | .inferred => some (.spec (.inferred a))

theorem build?_label (n : Node α) : build? n.label n.ann n.children = some n := by
  cases n with
  | root r =>
    simp [build?, label, children, ann, List.filterMap_map, List.filterMap_cons, Function.comp_def,
      use?, top?]
  | top t =>
    cases t <;>
      simp [build?, label, children, ann, TopLevel.ann, List.filterMap_map, List.filterMap_cons,
        Function.comp_def, typeParam?, spec?, signature?, attribute?, method?]
  | value v =>
    cases v <;>
      simp [build?, label, children, ann, Value.ann, List.filterMap_map, List.filterMap_cons,
        Function.comp_def, typeParam?, spec?, param?, statement?, value?, reference?]
  | spec s =>
    cases s <;>
      simp [build?, label, children, ann, TypeSpec.ann, List.filterMap_map, Function.comp_def, spec?]
  | statement s =>
    cases s
    simp [build?, label, children, ann, value?]
  | _ =>
    simp [build?, label, children, ann, List.filterMap_map, List.filterMap_cons, Function.comp_def,
      signature?, statement?, value?, spec?, typeParam?, param?]

theorem eq_of_label {n n' : Node α} (hLabel : n.label = n'.label) (hAnn : n.ann = n'.ann)
    (hChildren : n.children = n'.children) : n = n' := by
  have h := build?_label n
  rw [hLabel, hAnn, hChildren, build?_label] at h
  exact (Option.some.inj h).symm

def Label.isSpec : Label → Bool
  | .simple _ | .union | .inter | .func | .inferred => true
  | _ => false

def Label.isReference : Label → Bool
  | .reference .. => true
  | _ => false

def Label.isValue : Label → Bool
  | .string _ | .number _ | .boolean _ | .nothing | .ident | .bind .. | .assign | .assignMember
  | .call | .nested | .function => true
  | _ => false

theorem isSpec_label (n : Node α) : n.label.isSpec = n.spec?.isSome := by
  cases n with
  | top t => cases t <;> rfl
  | value v => cases v <;> rfl
  | spec s => cases s <;> rfl
  | _ => rfl

theorem isReference_label (n : Node α) : n.label.isReference = n.reference?.isSome := by
  cases n with
  | top t => cases t <;> rfl
  | value v => cases v <;> rfl
  | spec s => cases s <;> rfl
  | _ => rfl

theorem isValue_label (n : Node α) : n.label.isValue = n.value?.isSome := by
  cases n with
  | top t => cases t <;> rfl
  | value v => cases v <;> rfl
  | spec s => cases s <;> rfl
  | _ => rfl

theorem spec?_eq_none_of_label {n n' : Node α} (h : n'.label = n.label) (hn : n.spec? = none) :
    n'.spec? = none := by
  have hSome : n'.spec?.isSome = false := by
    rw [← isSpec_label, h, isSpec_label, hn]
    rfl
  simpa using hSome

theorem label_map {β : Type} (f : α → β) (n : Node α) : (n.map f).label = n.label := by
  cases n with
  | top t => cases t <;> rfl
  | value v => cases v <;> rfl
  | spec s => cases s <;> rfl
  | statement s => cases s; rfl
  | _ => rfl

/-- Whether the nodes with a label each start with a token that no other of them starts with. -/
def Label.leads : Label → Bool
  | .use .. | .attribute .. | .signature .. | .param _ | .reference .. | .bind .. => true
  | _ => false

theorem leads_spec (s : TypeSpec α) : (Node.spec s).label.leads = false := by
  cases s <;> rfl

/-- What is noted at those nodes, at and below a node, that start with a token of their own. -/
def leading {β : Type} (f : α → β) (n : Node α) : List β :=
  (n.nodes.filter (·.label.leads)).map (f ·.ann)

section Leading

variable {β : Type} (f : α → β)

theorem leading_eq (n : Node α) :
    n.leading f = (if n.label.leads then [f n.ann] else []) ++ n.children.flatMap (leading f) := by
  rw [leading, nodes_eq, List.filter_cons, List.filter_flatMap]
  split <;> simp only [List.map_cons, List.map_flatMap, List.nil_append, List.singleton_append] <;>
    rfl

theorem leading_spec (s : TypeSpec α) : (Node.spec s).leading f = [] := by
  rw [leading, List.filter_eq_nil_iff.2, List.map_nil]
  intro k hk
  obtain ⟨s', rfl⟩ := spec_of_mem_nodes hk
  simp [leads_spec]

theorem leading_map {γ : Type} (g : γ → α) (n : Node γ) :
    (n.map g).leading f = n.leading (f ∘ g) := by
  simp only [leading, nodes_map, List.filter_map, List.map_map, Function.comp_def, label_map, ann_map]

theorem eq_of_leading {n k k' : Node α} (h : (n.leading f).Nodup) (hk : k ∈ n.nodes)
    (hk' : k' ∈ n.nodes) (hLeads : k.label.leads) (hLeads' : k'.label.leads)
    (hSame : f k.ann = f k'.ann) : k = k' :=
  List.inj_on_of_nodup_map h (List.mem_filter.2 ⟨hk, hLeads⟩) (List.mem_filter.2 ⟨hk', hLeads'⟩) hSame

end Leading

end Node

end Assay
