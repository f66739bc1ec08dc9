import Assay.Proofs.Placed

/-! The places of nodes in their trees. A store keeps one place for each number, the one linked
last. Once a tree whose nodes have numbers of their own is linked, the place of each of its nodes is
the one in this tree, and so are those of its parent, its children and its siblings: a node that the
tree shares with another one has no place there any more. -/

namespace Assay

variable {α : Type} {i : Nat} {p : Relatives Meta}

namespace Relatives

variable {α : Type} {r x p k : Relatives α}

theorem nodes_eq (r : Relatives α) : r.nodes = r :: r.children.flatMap nodes := by
  rw [nodes]
  simp

theorem map_node_children (r : Relatives α) : r.children.map node = r.node.children := by
  refine List.ext_getElem? fun i => ?_
  simp [children, Function.comp_def]

theorem parent?_of_mem_children (h : x ∈ p.children) : x.parent? = some p := by
  obtain ⟨i, hi, rfl⟩ := List.mem_mapIdx.1 h
  rfl

theorem map_node_nodes (r : Relatives α) : r.nodes.map node = r.node.nodes := by
  obtain ⟨n, above⟩ := r
  induction n using Node.induct generalizing above with
  | h n ih =>
    rw [nodes_eq, Node.nodes_eq, List.map_cons, List.map_flatMap, ← map_node_children ⟨n, above⟩,
      List.flatMap_map]
    refine congrArg (n :: ·) (List.flatMap_congr fun k hk => ?_)
    exact ih k.node (node_mem_of_mem_children hk) k.above

theorem map_id_nodes (n : Node Meta) :
    (ofRoot n).nodes.map (fun x => x.node.ann.id) = n.ids := by
  have h := congrArg (List.map fun k : Node Meta => k.ann.id) (map_node_nodes (ofRoot n))
  rwa [List.map_map] at h

theorem node_mem_nodes (h : x ∈ r.nodes) : x.node ∈ r.node.nodes := by
  rw [← map_node_nodes]
  exact List.mem_map_of_mem h

theorem eq_or_child_of_mem (h : x ∈ r.nodes) : x = r ∨ ∃ p ∈ r.nodes, x ∈ p.children := by
  obtain ⟨n, above⟩ := r
  induction n using Node.induct generalizing above with
  | h n ih =>
    rw [nodes_eq] at h ⊢
    obtain rfl | h := List.mem_cons.1 h
    · exact .inl rfl
    obtain ⟨k, hk, hx⟩ := List.mem_flatMap.1 h
    obtain rfl | ⟨p, hp, hx⟩ := ih k.node (node_mem_of_mem_children hk) k.above hx
    · exact .inr ⟨_, List.mem_cons_self, hk⟩
    · exact .inr ⟨p, List.mem_cons_of_mem _ (List.mem_flatMap.2 ⟨k, hk, hp⟩), hx⟩

theorem self_mem_nodes (r : Relatives α) : r ∈ r.nodes := by
  rw [nodes_eq]
  exact List.mem_cons_self

theorem child_mem_nodes (h : p ∈ r.nodes) (hx : x ∈ p.children) : x ∈ r.nodes := by
  obtain ⟨n, above⟩ := r
  induction n using Node.induct generalizing above with
  | h n ih =>
    rw [nodes_eq] at h ⊢
    refine List.mem_cons_of_mem _ (List.mem_flatMap.2 ?_)
    obtain rfl | h := List.mem_cons.1 h
    · exact ⟨x, hx, x.self_mem_nodes⟩
    · obtain ⟨k, hk, hp⟩ := List.mem_flatMap.1 h
      exact ⟨k, hk, ih k.node (node_mem_of_mem_children hk) k.above hp⟩

theorem parent_mem_nodes {n : Node α} (h : x ∈ (ofRoot n).nodes) (hp : x.parent? = some p) :
    p ∈ (ofRoot n).nodes ∧ x ∈ p.children := by
  obtain rfl | ⟨q, hq, hx⟩ := eq_or_child_of_mem h
  · simp [ofRoot, parent?] at hp
  · obtain rfl := Option.some.inj ((parent?_of_mem_children hx).symm.trans hp)
    exact ⟨hq, hx⟩

theorem above_mem_nodes {n : Node α} (h : x ∈ (ofRoot n).nodes) :
    ∀ a ∈ x.above, a.2 ∈ n.nodes := by
  obtain ⟨k, above⟩ := x
  induction above generalizing k with
  | nil => simp
  | cons a rest ih =>
    have hParent := parent_mem_nodes h (p := ⟨a.2, rest⟩) rfl
    refine List.forall_mem_cons.2 ⟨?_, ih a.2 hParent.1⟩
    exact node_mem_nodes hParent.1

end Relatives

theorem filter_key_ne {κ : Type} [DecidableEq κ] {key : α → κ} {l : List α} {x : α}
    (hKeys : (l.map key).Nodup) (hx : l[i]? = some x) :
    l.filter (fun a => key a ≠ key x) = l.eraseIdx i := by
  induction l generalizing i with
  | nil => simp at hx
  | cons a rest ih =>
    obtain ⟨hNew, hRest⟩ := List.nodup_cons.1 hKeys
    cases i with
    | zero =>
      obtain rfl := Option.some.inj hx
      have hAll : ∀ b ∈ rest, decide (key b ≠ key a) = true := fun b hb =>
        decide_eq_true fun hEq => hNew (hEq ▸ List.mem_map_of_mem hb)
      rw [List.filter_cons_of_neg (by simp), List.filter_eq_self.2 hAll]
      rfl
    | succ i =>
      have hMem : key x ∈ rest.map key := List.mem_map_of_mem (List.mem_of_getElem? hx)
      have hNe : key a ≠ key x := fun hEq => hNew (hEq ▸ hMem)
      rw [List.filter_cons_of_pos (by simpa using hNe), ih hRest hx]
      rfl

theorem findIdx?_key {κ : Type} [DecidableEq κ] (key : α → κ) {l : List α} {x : α}
    (hKeys : (l.map key).Nodup) (hx : l[i]? = some x) :
    l.findIdx? (fun a => key a = key x) = some i := by
  induction l generalizing i with
  | nil => simp at hx
  | cons a rest ih =>
    obtain ⟨hNew, hRest⟩ := List.nodup_cons.1 hKeys
    cases i with
    | zero =>
      obtain rfl := Option.some.inj hx
      simp [List.findIdx?_cons]
    | succ i =>
      have hMem : key x ∈ rest.map key := List.mem_map_of_mem (List.mem_of_getElem? hx)
      have hNe : key a ≠ key x := fun hEq => hNew (hEq ▸ hMem)
      simp [List.findIdx?_cons, hNe, ih hRest hx]

theorem lookup_key (key : α → Nat) {l : List α} (hKeys : (l.map key).Nodup) {x : α} (hx : x ∈ l)
    (rest : List (Nat × α)) : (l.map (fun a => (key a, a)) ++ rest).lookup (key x) = some x := by
  induction l with
  | nil => simp at hx
  | cons a l ih =>
    obtain ⟨hNew, hRest⟩ := List.nodup_cons.1 hKeys
    obtain rfl | hx := List.mem_cons.1 hx
    · simp
    · have hNe : key x ≠ key a := fun hEq => hNew (hEq ▸ List.mem_map_of_mem hx)
      simp only [List.map_cons, List.cons_append, List.lookup, beq_eq_false_iff_ne.2 hNe]
      exact ih hRest hx

namespace Store

/-- The children of a place, each in the place where it was linked last, if all of them were. -/
def childrenOf? (st : Store) (x : Relatives Meta) : Option (List (Relatives Meta)) :=
  x.node.children.mapM fun k => st.relativesOf? k.ann.id

/-- The children of the parent with other numbers, each in the place where it was linked last. -/
def siblingsOf? (st : Store) (x : Relatives Meta) : Option (List (Relatives Meta)) :=
  match x.parent? with
  | none => some []
  | some p => (st.childrenOf? p).map (·.filter fun k => k.node.ann.id ≠ x.node.ann.id)

/-- The child of the parent that stands `distance` after the first one with the number of the
node. -/
def siblingAt? (st : Store) (x : Relatives Meta) (distance : Int) :
    Option (Option (Relatives Meta)) :=
  match x.parent? with
  | none => some none
  | some p => (st.childrenOf? p).map fun kids => do
    let i ← kids.findIdx? (·.node.ann.id = x.node.ann.id)
    if 0 ≤ i + distance then kids[(i + distance).toNat]? else none

/-- A tree is linked: the place of each of its nodes is the one in this tree. -/
def Linked (st : Store) (n : Node Meta) : Prop :=
  ∀ x ∈ (Relatives.ofRoot n).nodes, st.relativesOf? x.node.ann.id = some x

theorem linked_link (st : Store) {n : Node Meta} (h : n.ids.Nodup) :
    (st.link n).Linked n := by
  intro x hx
  refine lookup_key (fun x : Relatives Meta => x.node.ann.id) ?_ hx st.links
  exact (Relatives.map_id_nodes n).symm ▸ h

theorem relativesOf?_link (st : Store) {n : Node Meta} (h : i ∉ n.ids) :
    (st.link n).relativesOf? i = st.relativesOf? i := by
  rw [← Relatives.map_id_nodes] at h
  unfold link relativesOf?
  simp only
  generalize (Relatives.ofRoot n).nodes = places at h
  induction places with
  | nil => rfl
  | cons x rest ih =>
    obtain ⟨hNe, hRest⟩ := List.ne_and_not_mem_of_not_mem_cons h
    have hFirst : (i == x.node.ann.id) = false := beq_eq_false_iff_ne.2 hNe
    simp only [List.map_cons, List.cons_append, List.lookup, hFirst]
    exact ih hRest

variable {st : Store} {n : Node Meta} {x : Relatives Meta}

theorem Linked.childrenOf? (h : st.Linked n) (hx : x ∈ (Relatives.ofRoot n).nodes) :
    st.childrenOf? x = some x.children := by
  have hAll : ∀ k ∈ x.children, st.relativesOf? k.node.ann.id = some k := fun k hk =>
    h k (Relatives.child_mem_nodes hx hk)
  rw [Store.childrenOf?, ← Relatives.map_node_children]
  generalize x.children = kids at hAll
  induction kids with
  | nil => rfl
  | cons k rest ih =>
    obtain ⟨hk, hRest⟩ := List.forall_mem_cons.1 hAll
    rw [List.map_cons, List.mapM_cons, hk, ih hRest]
    rfl

end Store

theorem Relatives.getElem?_children {x : Relatives Meta} (hx : x ∈ p.children) :
    ∃ i, x.above = (i, p.node) :: p.above ∧ p.children[i]? = some x := by
  obtain ⟨i, hi, rfl⟩ := List.mem_mapIdx.1 hx
  exact ⟨i, rfl, by simp [children, hi]⟩

theorem Relatives.child?_eq (p : Relatives Meta) (i : Nat) : p.child? i = p.children[i]? := by
  simp [child?, children]

namespace Node

variable {α : Type}

theorem nodes_sublist {n k : Node α} (hk : k ∈ n.nodes) : k.nodes.Sublist n.nodes := by
  induction n using Node.induct with
  | h n ih =>
    rw [nodes_eq] at hk
    obtain rfl | hk := List.mem_cons.1 hk
    · exact .refl _
    obtain ⟨j, hj, hk⟩ := List.mem_flatMap.1 hk
    rw [nodes_eq n]
    exact ((ih j hj hk).trans (List.sublist_flatten_of_mem (List.mem_map_of_mem hj))).cons _

theorem children_sublist (n : Node α) : n.children.Sublist n.nodes := by
  rw [nodes_eq]
  refine .cons _ ?_
  generalize n.children = kids
  induction kids with
  | nil => exact .slnil
  | cons k rest ih =>
    rw [List.flatMap_cons]
    exact (List.singleton_sublist.2 k.self_mem_nodes).append ih

end Node

namespace Store

variable {st : Store} {n : Node Meta} {x : Relatives Meta}

theorem child_index (hIds : n.ids.Nodup) (hp : p ∈ (Relatives.ofRoot n).nodes) (hx : x ∈ p.children) :
    ∃ i, x.above = (i, p.node) :: p.above ∧ p.children[i]? = some x ∧
      (p.children.map fun k => k.node.ann.id).Nodup := by
  obtain ⟨i, hAbove, hIndex⟩ := Relatives.getElem?_children hx
  refine ⟨i, hAbove, hIndex, ?_⟩
  have hSub := p.node.children_sublist.trans (Node.nodes_sublist (Relatives.node_mem_nodes hp))
  rw [← Relatives.map_node_children] at hSub
  have hKids : ((p.children.map Relatives.node).map (·.ann.id)).Nodup :=
    List.Nodup.sublist (hSub.map _) hIds
  rwa [List.map_map] at hKids

theorem Linked.siblingsOf? (h : st.Linked n) (hIds : n.ids.Nodup)
    (hx : x ∈ (Relatives.ofRoot n).nodes) : st.siblingsOf? x = some x.siblings := by
  cases hParent : x.parent? with
  | none =>
    obtain ⟨k, above⟩ := x
    cases above with
    | nil => rfl
    | cons a rest => simp [Relatives.parent?] at hParent
  | some p =>
    obtain ⟨hp, hChild⟩ := Relatives.parent_mem_nodes hx hParent
    obtain ⟨i, hAbove, hIndex, hKeys⟩ := child_index hIds hp hChild
    simp only [Store.siblingsOf?, hParent, h.childrenOf? hp, Option.map_some, Relatives.siblings,
      hAbove]
    exact congrArg some (filter_key_ne hKeys hIndex)

theorem Linked.siblingAt? (h : st.Linked n) (hIds : n.ids.Nodup)
    (hp : p ∈ (Relatives.ofRoot n).nodes) (hx : x ∈ p.children) :
    ∃ i, x.above = (i, p.node) :: p.above ∧ ∀ distance : Int, st.siblingAt? x distance =
      some (if 0 ≤ i + distance then p.children[(i + distance).toNat]? else none) := by
  obtain ⟨i, hAbove, hIndex, hKeys⟩ := child_index hIds hp hx
  refine ⟨i, hAbove, fun distance => ?_⟩
  have hFind := findIdx?_key (fun k : Relatives Meta => k.node.ann.id) hKeys hIndex
  simp only [Store.siblingAt?, Relatives.parent?_of_mem_children hx, h.childrenOf? hp,
    Option.map_some, hFind]
  rfl

theorem Linked.next? (h : st.Linked n) (hIds : n.ids.Nodup)
    (hx : x ∈ (Relatives.ofRoot n).nodes) : st.siblingAt? x 1 = some x.next? := by
  obtain rfl | ⟨p, hp, hChild⟩ := Relatives.eq_or_child_of_mem hx
  · rfl
  · obtain ⟨i, hAbove, hAt⟩ := h.siblingAt? hIds hp hChild
    have hIndex : ((i : Int) + 1).toNat = i + 1 := by omega
    rw [hAt, if_pos (by omega), Relatives.next?, hAbove, hIndex]
    exact congrArg some (Relatives.child?_eq p (i + 1)).symm

theorem Linked.previous? (h : st.Linked n) (hIds : n.ids.Nodup)
    (hx : x ∈ (Relatives.ofRoot n).nodes) : st.siblingAt? x (-1) = some x.previous? := by
  obtain rfl | ⟨p, hp, hChild⟩ := Relatives.eq_or_child_of_mem hx
  · rfl
  · obtain ⟨i, hAbove, hAt⟩ := h.siblingAt? hIds hp hChild
    rw [hAt, Relatives.previous?, hAbove]
    cases i with
    | zero => rfl
    | succ i =>
      have hIndex : (((i + 1 : Nat) : Int) + -1).toNat = i := by omega
      rw [if_pos (by omega), hIndex]
      exact congrArg some (Relatives.child?_eq p i).symm

end Store

end Assay
