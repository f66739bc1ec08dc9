import Assay.Tree.Node

/-! A node together with the way to it from the root of its tree, so that its parent, its siblings
and the nodes around it can be found. -/

namespace Assay

variable {α : Type}

/-- A node, and the nodes above it, nearest first, each with the index of the child on the way. -/
structure Relatives (α : Type) where
  node : Node α
  above : List (Nat × Node α)

namespace Relatives

def ofRoot (n : Node α) : Relatives α := ⟨n, []⟩

def child? (r : Relatives α) (i : Nat) : Option (Relatives α) :=
  r.node.children[i]?.map fun k => ⟨k, (i, r.node) :: r.above⟩

/-- The node that a way of child indexes leads to. -/
def descend? (r : Relatives α) : List Nat → Option (Relatives α)
  | [] => some r
  | i :: rest => (r.child? i).bind fun k => k.descend? rest

def children (r : Relatives α) : List (Relatives α) :=
  r.node.children.mapIdx fun i k => ⟨k, (i, r.node) :: r.above⟩

/-- The parent, unless the node is the root. -/
def parent? (r : Relatives α) : Option (Relatives α) :=
  match r.above with
  | [] => none
  | (_, p) :: rest => some ⟨p, rest⟩

/-- The other children of the parent, in order. -/
def siblings (r : Relatives α) : List (Relatives α) :=
  match r.above with
  | [] => []
  | (i, p) :: rest => (children ⟨p, rest⟩).eraseIdx i

/-- The child of the parent that comes right after the node. -/
def next? (r : Relatives α) : Option (Relatives α) :=
  match r.above with
  | [] => none
  | (i, p) :: rest => child? ⟨p, rest⟩ (i + 1)

/-- The child of the parent that comes right before the node. -/
def previous? (r : Relatives α) : Option (Relatives α) :=
  match r.above with
  | (i + 1, p) :: rest => child? ⟨p, rest⟩ i
  | _ => none

/-- The nearest node above that satisfies `p`. -/
def enclosing? (r : Relatives α) (p : Node α → Bool) : Option (Node α) :=
  (r.above.map (·.2)).find? p

theorem node_mem_of_mem_children {r k : Relatives α} (h : k ∈ r.children) :
    k.node ∈ r.node.children := by
  obtain ⟨i, hi, rfl⟩ := List.mem_mapIdx.1 h
  exact List.getElem_mem hi

/-- The node and everything below it, parents first. -/
def nodes (r : Relatives α) : List (Relatives α) :=
  r :: r.children.attach.flatMap fun ⟨k, _⟩ => k.nodes
termination_by sizeOf r.node
decreasing_by exact Node.sizeOf_lt_of_mem_children (node_mem_of_mem_children ‹_›)

end Relatives

end Assay
