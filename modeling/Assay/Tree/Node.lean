import Assay.Tree.Printing

/-! Nodes of all kinds under one type, with their children in the order of the tree and the walk
over everything below a node. -/

namespace Assay

variable {α : Type}

/-- A node of the tree. -/
inductive Node (α : Type) where
  | root (r : Root α)
  | use (u : Use α)
  | top (t : TopLevel α)
  | attribute (a : Attribute α)
  | method (m : Method α)
  | signature (s : Signature α)
  | param (p : Param α)
  | typeParam (p : TypeParam α)
  | statement (s : Statement α)
  | reference (r : Reference α)
  | value (v : Value α)
  | spec (s : TypeSpec α)

namespace Node

def kind : Node α → Text
  | .root _ => "Root"
  | .use _ => "Use"
  | .top (.ofType _) => "Type"
  | .top (.ofClass _) => "Class"
  | .attribute _ => "Attribute"
  | .method _ => "Method"
  | .signature _ => "MethodSignature"
  | .param _ => "Parameter"
  | .typeParam _ => "TypeParameter"
  | .statement _ => "Statement"
  | .reference _ => "Reference"
  | .value (.string ..) => "StringValue"
  | .value (.number ..) => "NumberValue"
  | .value (.boolean ..) => "BooleanValue"
  | .value (.nothing ..) => "NoneValue"
  | .value (.ident ..) => "IdentifierValue"
  | .value (.bind ..) => "NewAssignmentValue"
  | .value (.assign ..) => "DirectAssignmentValue"
  | .value (.assignMember ..) => "IndirectAssignmentValue"
  | .value (.call ..) => "MethodCallValue"
  | .value (.nested ..) => "NestedValue"
  | .value (.function ..) => "FunctionValue"
  | .spec (.simple ..) => "TypeSpecSimple"
  | .spec (.union ..) => "TypeSpecUnion"
  | .spec (.inter ..) => "TypeSpecIntersection"
  | .spec (.func ..) => "TypeSpecFunction"
  | .spec (.inferred ..) => "TypeSpecInferred"

def ann : Node α → α
  | .root r => r.ann
  | .use u => u.ann
  | .top t => t.ann
  | .attribute a => a.ann
  | .method m => m.ann
  | .signature s => s.ann
  | .param p => p.ann
  | .typeParam p => p.ann
  | .statement s => s.ann
  | .reference r => r.ann
  | .value v => v.ann
  | .spec s => s.ann

/-- The nodes right below a node, in order. -/
def children : Node α → List (Node α)
  | .root r => r.uses.map .use ++ [.top r.top]
  | .use _ => []
  | .top (.ofType d) => d.typeParams.map .typeParam ++ [.spec d.super] ++ d.methods.map .signature
  | .top (.ofClass d) =>
    d.typeParams.map .typeParam ++ [.spec d.super] ++ d.attributes.map .attribute ++
      d.methods.map .method
  | .attribute a => .spec a.spec :: a.value.toList.map .value
  | .method m => .signature m.signature :: m.body.map .statement
  | .signature s => s.typeParams.map .typeParam ++ s.params.map .param ++ [.spec s.result]
  | .param p => [.spec p.spec]
  | .typeParam _ => []
  | .statement s => [.value s.value]
  | .reference _ => []
  | .value (.string ..) => []
  | .value (.number ..) => []
  | .value (.boolean ..) => []
  | .value (.nothing ..) => []
  | .value (.ident _ ref) => [.reference ref]
  | .value (.bind _ _ _ s v) => [.spec s, .value v]
  | .value (.assign _ ref v) => [.reference ref, .value v]
  | .value (.assignMember _ receiver ref v) => [.value receiver, .reference ref, .value v]
  | .value (.call _ ref typeArgs args) =>
    .reference ref :: typeArgs.map .spec ++ args.map .value
  | .value (.nested _ outer inner) => [.value outer, .value inner]
  | .value (.function _ typeParams params result body) =>
    typeParams.map .typeParam ++ params.map .param ++ [.spec result] ++ body.map .statement
  | .spec (.simple _ _ args) => args.map .spec
  | .spec (.union _ types) => types.map .spec
  | .spec (.inter _ types) => types.map .spec
  | .spec (.func _ params result) => params.map .spec ++ [.spec result]
  | .spec (.inferred _) => []

/-- A child is smaller than its parent, so a walk down the tree ends. -/
theorem sizeOf_lt_of_mem_children {n k : Node α} (h : k ∈ n.children) : sizeOf k < sizeOf n := by
  have member {β : Type} [SizeOf β] {x : β} {xs : List β} (hx : x ∈ xs) :
      sizeOf x < sizeOf xs := List.sizeOf_lt_of_mem hx
  -- The size of a node is more than the sizes of its parts, and each child is one of them.
  rcases n with ⟨⟨⟩⟩ | ⟨⟨⟩⟩ | ⟨⟨⟨⟩⟩ | ⟨⟨⟩⟩⟩ | ⟨⟨⟩⟩ | ⟨⟨⟩⟩ | ⟨⟨⟩⟩ | ⟨⟨⟩⟩ | ⟨⟨⟩⟩ | ⟨⟨⟩⟩ | ⟨⟨⟩⟩ | ⟨⟨⟩⟩ | ⟨⟨⟩⟩ <;>
    simp only [children, List.mem_append, List.mem_map, List.mem_cons, List.not_mem_nil, or_false,
      Option.mem_toList] at h <;>
    simp only [root.sizeOf_spec, top.sizeOf_spec, attribute.sizeOf_spec, method.sizeOf_spec,
      signature.sizeOf_spec, param.sizeOf_spec, statement.sizeOf_spec, value.sizeOf_spec,
      spec.sizeOf_spec, Root.mk.sizeOf_spec, TopLevel.ofType.sizeOf_spec, TypeDecl.mk.sizeOf_spec,
      TopLevel.ofClass.sizeOf_spec, ClassDecl.mk.sizeOf_spec, Attribute.mk.sizeOf_spec,
      Method.mk.sizeOf_spec, Signature.mk.sizeOf_spec, Param.mk.sizeOf_spec,
      Statement.mk.sizeOf_spec, Value.ident.sizeOf_spec, Value.bind.sizeOf_spec,
      Value.assign.sizeOf_spec, Value.assignMember.sizeOf_spec, Value.call.sizeOf_spec,
      Value.nested.sizeOf_spec, Value.function.sizeOf_spec, TypeSpec.simple.sizeOf_spec,
      TypeSpec.union.sizeOf_spec, TypeSpec.inter.sizeOf_spec, TypeSpec.func.sizeOf_spec] <;>
    grind [use.sizeOf_spec, top.sizeOf_spec, attribute.sizeOf_spec, method.sizeOf_spec,
      signature.sizeOf_spec, param.sizeOf_spec, typeParam.sizeOf_spec, statement.sizeOf_spec,
      reference.sizeOf_spec, value.sizeOf_spec, spec.sizeOf_spec, Option.some.sizeOf_spec]

/-- A node and everything below it, parents first and children in order; what lies below a node
that `enter` refuses is left out. -/
def walk (enter : Node α → Bool) (n : Node α) : List (Node α) :=
  n :: if enter n then n.children.attach.flatMap fun ⟨k, _⟩ => walk enter k else []
termination_by sizeOf n
decreasing_by exact sizeOf_lt_of_mem_children ‹_›

def nodes (n : Node α) : List (Node α) := n.walk fun _ => true

end Node

end Assay
