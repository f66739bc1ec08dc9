import Mathlib
import Assay.Symbol

/-! Facts about whole trees, said of all nodes at once: `All P n` for a node and everything below it.
A map of the annotations of a tree maps its nodes. -/

namespace Assay

variable {α β : Type}

theorem TypeSpec.mapList_eq (f : α → β) (ss : List (TypeSpec α)) :
    TypeSpec.mapList f ss = ss.map (TypeSpec.map f) := by
  induction ss with
  | nil => rfl
  | cons s rest ih => rw [TypeSpec.mapList, ih, List.map_cons]

theorem Value.mapList_eq (f : α → β) (vs : List (Value α)) :
    Value.mapList f vs = vs.map (Value.map f) := by
  induction vs with
  | nil => rfl
  | cons v rest ih => rw [Value.mapList, ih, List.map_cons]

theorem Statement.mapList_eq (f : α → β) (ss : List (Statement α)) :
    Statement.mapList f ss = ss.map (Statement.map f) := by
  induction ss with
  | nil => rfl
  | cons s rest ih => rw [Statement.mapList, ih, List.map_cons]

namespace Node

theorem nodes_eq (n : Node α) : n.nodes = n :: n.children.flatMap nodes := by
  have hAttach (xs : List (Node α)) : xs.attach.flatMap (fun k => nodes k.1) = xs.flatMap nodes := by
    rw [← List.flatMap_map, List.attach_map_subtype_val]
  conv_lhs => unfold nodes walk
  rw [if_pos rfl]
  exact congrArg _ (hAttach n.children)

theorem self_mem_nodes (n : Node α) : n ∈ n.nodes := by
  rw [nodes_eq]
  exact List.mem_cons_self

def All (P : Node α → Prop) (n : Node α) : Prop := ∀ k ∈ n.nodes, P k

theorem all_iff {P : Node α → Prop} {n : Node α} :
    n.All P ↔ P n ∧ ∀ k ∈ n.children, k.All P := by
  unfold All
  rw [nodes_eq]
  simp only [List.mem_cons, List.mem_flatMap, forall_eq_or_imp, forall_exists_index, and_imp]
  exact and_congr_right fun _ => ⟨fun h k hk j hj => h j k hk hj, fun h j k hk hj => h k hk j hj⟩

theorem All.self {P : Node α → Prop} {n : Node α} (h : n.All P) : P n := (all_iff.1 h).1

theorem All.child {P : Node α → Prop} {n k : Node α} (h : n.All P) (hk : k ∈ n.children) :
    k.All P :=
  (all_iff.1 h).2 k hk

theorem All.mono {P Q : Node α → Prop} {n : Node α} (h : n.All P) (hPQ : ∀ k, P k → Q k) :
    n.All Q :=
  fun k hk => hPQ k (h k hk)

theorem induct {P : Node α → Prop} (h : ∀ n : Node α, (∀ k ∈ n.children, P k) → P n)
    (n : Node α) : P n :=
  h n fun k _ => induct h k
termination_by sizeOf n
decreasing_by exact sizeOf_lt_of_mem_children ‹_›

theorem All.of_mem {P : Node α → Prop} {n k : Node α} (h : n.All P) (hk : k ∈ n.nodes) :
    k.All P := by
  induction n using induct with
  | _ n ih =>
    rw [nodes_eq, List.mem_cons, List.mem_flatMap] at hk
    obtain rfl | ⟨j, hj, hk⟩ := hk
    · exact h
    · exact ih j hj (h.child hj) hk

theorem nodes_subset {n k : Node α} (hk : k ∈ n.nodes) : k.nodes ⊆ n.nodes :=
  All.of_mem (P := (· ∈ n.nodes)) (fun _ hj => hj) hk

theorem mem_nodes_of_child {n k j : Node α} (hk : k ∈ n.nodes) (hj : j ∈ k.children) :
    j ∈ n.nodes := by
  refine nodes_subset hk ?_
  rw [nodes_eq]
  exact List.mem_cons_of_mem _ (List.mem_flatMap.2 ⟨j, hj, self_mem_nodes j⟩)

theorem exists_spec_of_mem_children {s : TypeSpec α} {n : Node α} (h : n ∈ (Node.spec s).children) :
    ∃ s', n = .spec s' := by
  cases s <;>
    simp only [children, List.mem_map, List.mem_append, List.mem_singleton, List.not_mem_nil] at h
  case func => obtain ⟨s', _, rfl⟩ | rfl := h <;> exact ⟨_, rfl⟩
  all_goals
    obtain ⟨s', _, rfl⟩ := h
    exact ⟨s', rfl⟩

theorem spec_of_mem_nodes {s : TypeSpec α} {n : Node α} (h : n ∈ (Node.spec s).nodes) :
    ∃ s', n = .spec s' := by
  have hAll (k : Node α) : (∃ s', k = .spec s') → k.All fun n => ∃ s', n = .spec s' := by
    induction k using induct with
    | _ k ih =>
      rintro ⟨s', rfl⟩
      exact all_iff.2 ⟨⟨s', rfl⟩, fun j hj => ih j hj (exists_spec_of_mem_children hj)⟩
  exact hAll _ ⟨s, rfl⟩ n h

theorem root_of_top_mem_children {n : Node α} {t : TopLevel α} (h : .top t ∈ n.children) :
    ∃ r, n = .root r ∧ t = r.top := by
  cases n with
  | root r => exact ⟨r, rfl, by simpa [children] using h⟩
  | top t => cases t <;> simp [children] at h
  | «attribute» a => cases hValue : a.value <;> simp [children, hValue] at h
  | value v => cases v <;> simp [children] at h
  | spec s => cases s <;> simp [children] at h
  | _ => simp [children] at h

theorem root_notMem_children (n : Node α) (r : Root α) : .root r ∉ n.children := by
  intro h
  cases n with
  | top t => cases t <;> simp [children] at h
  | «attribute» a => cases hValue : a.value <;> simp [children, hValue] at h
  | value v => cases v <;> simp [children] at h
  | spec s => cases s <;> simp [children] at h
  | _ => simp [children] at h

/-- A source has one top-level node. -/
theorem top_of_mem_nodes {r : Root α} {t : TopLevel α} (h : .top t ∈ (Node.root r).nodes) :
    t = r.top := by
  have hOnly (n : Node α) : .top t ∈ n.nodes → n = .top t ∨ ∃ r, n = .root r ∧ t = r.top := by
    induction n using induct with
    | _ n ih =>
      rw [nodes_eq, List.mem_cons, List.mem_flatMap]
      rintro (hEq | ⟨k, hk, ht⟩)
      · exact .inl hEq.symm
      · obtain rfl | ⟨r, rfl, -⟩ := ih k hk ht
        · exact .inr (root_of_top_mem_children hk)
        · exact absurd hk (root_notMem_children n r)
  obtain hEq | ⟨_, ⟨⟩, hTop⟩ := hOnly _ h
  · cases hEq
  · exact hTop

/-- The same node with every annotation replaced by its image. -/
def map (f : α → β) : Node α → Node β
  | .root r => .root (r.map f)
  | .use u => .use ⟨f u.ann, u.source, u.name⟩
  | .top t => .top (t.map f)
  | .attribute a => .attribute (a.map f)
  | .method m => .method (m.map f)
  | .signature s => .signature (s.map f)
  | .param p => .param (p.map f)
  | .typeParam p => .typeParam (p.map f)
  | .statement s => .statement (s.map f)
  | .reference r => .reference (r.map f)
  | .value v => .value (v.map f)
  | .spec s => .spec (s.map f)

theorem children_map (f : α → β) (n : Node α) : (n.map f).children = n.children.map (map f) := by
  cases n with
  | root r => simp [map, children, Root.map, Function.comp_def]
  | top t => cases t <;> simp [map, children, TopLevel.map, Function.comp_def]
  | «attribute» a =>
    obtain ⟨ann, mode, name, spec, value⟩ := a
    cases value <;> simp [map, children, Attribute.map]
  | method m => simp [map, children, Method.map, Statement.mapList_eq, Function.comp_def]
  | signature s => simp [map, children, Signature.map, Function.comp_def]
  | statement s =>
    obtain ⟨ann, v, last⟩ := s
    simp [map, children, Statement.map]
  | value v =>
    cases v <;>
      simp [map, children, Value.map, TypeSpec.mapList_eq, Value.mapList_eq, Statement.mapList_eq,
        Function.comp_def]
  | spec s =>
    cases s <;> simp [map, children, TypeSpec.map, TypeSpec.mapList_eq, Function.comp_def]
  | _ => rfl

theorem nodes_map (f : α → β) (n : Node α) : (n.map f).nodes = n.nodes.map (map f) := by
  induction n using induct with
  | _ n ih =>
    rw [nodes_eq, nodes_eq n, children_map, List.map_cons, List.flatMap_map, List.map_flatMap]
    exact congrArg _ (List.flatMap_congr fun k hk => ih k hk)

theorem all_map {f : α → β} {P : Node β → Prop} {n : Node α} :
    (n.map f).All P ↔ n.All fun k => P (k.map f) := by
  simp only [All, nodes_map, List.mem_map, forall_exists_index, and_imp, forall_apply_eq_imp_iff₂]

theorem ann_map (f : α → β) (n : Node α) : (n.map f).ann = f n.ann := by
  cases n with
  | top t => cases t <;> rfl
  | value v => cases v <;> rfl
  | spec s => cases s <;> rfl
  | statement s => cases s; rfl
  | _ => rfl

end Node

end Assay
