import Mathlib
import Assay.Proofs.Apart

/-! What inference visits. Each attribute and each method of a source is typed once, when it is first
needed, and with it each value in it, in one go. Meanwhile other attributes and methods may be typed,
but these have nothing to do with what is typed in passing there. -/

namespace Assay

variable {k n u : Node Meta} {i : Nat} {r : Root Meta}

/-- In what is a body, only the last statement gives its value. -/
def Node.Closes : Node Meta → Prop
  | .method m => Statement.Closes m.body
  | .value (.function _ _ _ _ body) => Statement.Closes body
  | _ => True

namespace Node

/-- A node that is typed in passing, together with the attribute or method that it is in. -/
def Passing : Node Meta → Prop
  | .statement _ => True
  | .reference _ => True
  | .value _ => True
  | _ => False

/-- The number of a node that is typed in passing, at or below a node. -/
def Passes (n : Node Meta) (i : Nat) : Prop := ∃ k ∈ n.nodes, k.Passing ∧ k.ann.id = i

/-- The number of a node that is typed together with an attribute or method. -/
def Carries (u : Node Meta) (i : Nat) : Prop :=
  u.Passes i ∨ ∃ m, u = .method m ∧ i = m.signature.ann.id

theorem Passes.mono (h : k.Passes i) (hk : k ∈ n.nodes) : n.Passes i := by
  obtain ⟨j, hj, hPassing, hId⟩ := h
  exact ⟨j, nodes_subset hk hj, hPassing, hId⟩

theorem Passes.mem_ids (h : n.Passes i) : i ∈ n.ids := by
  obtain ⟨k, hk, -, rfl⟩ := h
  exact List.mem_map_of_mem hk

theorem mem_nodes_child (hk : k ∈ n.children) : k ∈ n.nodes :=
  mem_nodes_of_child (self_mem_nodes n) hk

theorem passes_self (h : n.Passing) : n.Passes n.ann.id :=
  ⟨n, self_mem_nodes n, h, rfl⟩

theorem ids_sublist (h : k ∈ n.nodes) : k.ids.Sublist n.ids :=
  (nodes_sublist h).map _

theorem id_notMem_of_child (h : n.ids.Nodup) (hk : k ∈ n.children) : n.ann.id ∉ k.ids := by
  rw [ids_eq, List.nodup_cons] at h
  exact fun hMem => h.1 (List.mem_flatMap.2 ⟨k, hk, hMem⟩)

theorem nodup_of_sublist {ks : List (Node Meta)} (h : n.ids.Nodup) (hks : ks.Sublist n.children) :
    (ks.flatMap ids).Nodup := by
  rw [ids_eq, List.nodup_cons, List.nodup_flatMap] at h
  exact List.nodup_flatMap.2 ⟨fun k hk => h.2.1 k (hks.subset hk), h.2.2.sublist hks⟩

theorem notMem_of_sublist {j : Node Meta} (h : n.ids.Nodup) (hks : [k, j].Sublist n.children)
    (hi : i ∈ k.ids) : i ∉ j.ids := by
  have hNodup := nodup_of_sublist h hks
  rw [List.flatMap_cons, List.flatMap_cons, List.flatMap_nil, List.append_nil] at hNodup
  exact fun hi' => List.disjoint_of_nodup_append hNodup hi hi'

def IsLocal : Node Meta → Prop
  | .param _ => True
  | .value (.bind ..) => True
  | _ => False

end Node

def Root.Inner (r : Root Meta) (i : Nat) : Prop :=
  ∃ n ∈ (Node.root r).nodes, n.Inner ∧ n.ann.id = i

namespace Root

def Declares (r : Root Meta) (n : Node Meta) : Prop :=
  n ∈ r.units ∨ n ∈ (Node.root r).nodes ∧ n.IsLocal

/-- What references can mean that have to do with a source: its own declarations, or what is not in
its body. -/
def Target (r : Root Meta) (n : Node Meta) : Prop :=
  n.Within (¬r.Inner ·) ∨ r.Declares n

/-- A source whose nodes have numbers of their own, and whose bodies end with their last statement. -/
structure Sane (r : Root Meta) : Prop where
  nodup : (Node.root r).ids.Nodup
  closes : (Node.root r).All Node.Closes

theorem mem_children_of_units (h : u ∈ r.units) : u ∈ (Node.top r.top).children := by
  unfold units at h
  cases hTop : r.top <;> rw [hTop] at h <;> simp only [Node.children, List.mem_append] at h ⊢ <;> grind

theorem mem_nodes_of_units (h : u ∈ r.units) : u ∈ (Node.root r).nodes :=
  Node.mem_nodes_of_child (k := .top r.top) (Node.mem_nodes_child (by simp [Node.children]))
    (mem_children_of_units h)

theorem units_cases (h : u ∈ r.units) :
    (∃ a, u = .attribute a) ∨ (∃ m, u = .method m) ∨
      (∃ s, u = .signature s) ∧ ∀ m, .method m ∉ r.units := by
  unfold units at h ⊢
  cases hTop : r.top with
  | ofType d =>
    rw [hTop] at h
    obtain ⟨s, _, rfl⟩ := List.mem_map.1 h
    exact .inr (.inr ⟨⟨s, rfl⟩, by simp⟩)
  | ofClass d =>
    rw [hTop] at h
    obtain h | h := List.mem_append.1 h
    · obtain ⟨a, _, rfl⟩ := List.mem_map.1 h
      exact .inl ⟨a, rfl⟩
    · obtain ⟨m, _, rfl⟩ := List.mem_map.1 h
      exact .inr (.inl ⟨m, rfl⟩)

end Root

namespace Root.Sane

variable {r : Root Meta} {n k u u' : Node Meta} {i : Nat}

theorem eq_of_id (h : r.Sane) (hn : n ∈ (Node.root r).nodes) (hk : k ∈ (Node.root r).nodes)
    (hId : n.ann.id = k.ann.id) : n = k :=
  List.inj_on_of_nodup_map h.nodup hn hk hId

theorem ids_nodup (h : r.Sane) (hu : u ∈ r.units) (hn : n ∈ u.nodes) : n.ids.Nodup :=
  h.nodup.sublist (Node.ids_sublist (Node.nodes_subset (mem_nodes_of_units hu) hn))

theorem inner_unit (hu : u ∈ r.units) : r.Inner u.ann.id := by
  refine ⟨u, mem_nodes_of_units hu, ?_, rfl⟩
  obtain ⟨_, rfl⟩ | ⟨_, rfl⟩ | ⟨⟨_, rfl⟩, _⟩ := units_cases hu <;> trivial

theorem exists_of_carries (hu : u ∈ r.units) (hi : u.Carries i) : ∃ n ∈ u.nodes, n.ann.id = i ∧
    n.Inner ∧ (n.Passing ∨ ∃ m, u = .method m ∧ n = .signature m.signature) := by
  obtain ⟨n, hn, hPassing, rfl⟩ | ⟨m, rfl, rfl⟩ := hi
  · refine ⟨n, hn, rfl, ?_, .inl hPassing⟩
    cases n <;> trivial
  · exact ⟨.signature m.signature, Node.mem_nodes_child (by simp [Node.children]), rfl, trivial,
      .inr ⟨m, rfl, rfl⟩⟩

theorem inner_of_carries (hu : u ∈ r.units) (hi : u.Carries i) : r.Inner i := by
  obtain ⟨n, hn, rfl, hInner, _⟩ := exists_of_carries hu hi
  exact ⟨n, Node.nodes_subset (mem_nodes_of_units hu) hn, hInner, rfl⟩

theorem unit_unique (h : r.Sane) (hu : u ∈ r.units) (hu' : u' ∈ r.units) (hi : i ∈ u.ids)
    (hi' : i ∈ u'.ids) : u = u' := by
  have hTop : (Node.top r.top).ids.Nodup := by
    refine List.Nodup.sublist ?_ h.nodup
    rw [Node.ids_eq (.root r)]
    refine List.Sublist.cons _ ?_
    simp only [Node.children, List.flatMap_append, List.flatMap_cons, List.flatMap_nil,
      List.append_nil]
    exact List.sublist_append_right _ _
  rw [Node.ids_eq, List.nodup_cons, List.nodup_flatMap] at hTop
  have : Std.Symm (Function.onFun List.Disjoint Node.ids) := ⟨fun _ _ h => h.symm⟩
  by_contra hNe
  exact hTop.2.2.forall (mem_children_of_units hu) (mem_children_of_units hu') hNe hi hi'

theorem mem_ids_of_carries (hi : u.Carries i) : i ∈ u.ids := by
  obtain hPasses | ⟨m, rfl, rfl⟩ := hi
  · exact hPasses.mem_ids
  · exact List.mem_map_of_mem (f := fun n : Node Meta => n.ann.id)
      (Node.mem_nodes_child (k := .signature m.signature) (by simp [Node.children]))

theorem carries_unique (h : r.Sane) (hu : u ∈ r.units) (hu' : u' ∈ r.units) (hi : u.Carries i)
    (hi' : u'.Carries i) : u = u' :=
  h.unit_unique hu hu' (mem_ids_of_carries hi) (mem_ids_of_carries hi')

theorem not_isLocal (hu : u ∈ r.units) : ¬u.IsLocal := by
  obtain ⟨_, rfl⟩ | ⟨_, rfl⟩ | ⟨⟨_, rfl⟩, _⟩ := units_cases hu <;> exact id

theorem not_typedBefore (hu : u ∈ r.units) : ¬u.TypedBefore := by
  obtain ⟨_, rfl⟩ | ⟨_, rfl⟩ | ⟨⟨_, rfl⟩, _⟩ := units_cases hu <;> exact id

theorem not_carries (h : r.Sane) (hu : u ∈ r.units) (hn : n ∈ r.units ∨ n ∈ (Node.root r).nodes ∧ ∃ q, n = .param q) :
    ¬u.Carries n.ann.id := by
  intro hi
  obtain ⟨k, hk, hId, -, hKind⟩ := exists_of_carries hu hi
  have hkRoot := Node.nodes_subset (mem_nodes_of_units hu) hk
  obtain hUnit | ⟨hnRoot, q, rfl⟩ := hn
  · obtain rfl := h.eq_of_id hkRoot (mem_nodes_of_units hUnit) hId
    obtain ⟨_, rfl⟩ | ⟨_, rfl⟩ | ⟨⟨_, rfl⟩, hNone⟩ := units_cases hUnit
    · simp [Node.Passing] at hKind
    · simp [Node.Passing] at hKind
    · obtain hPassing | ⟨m, rfl, _⟩ := hKind
      · exact hPassing
      · exact hNone m hu
  · obtain rfl := h.eq_of_id hkRoot hnRoot hId
    simp [Node.Passing] at hKind

end Root.Sane

namespace Infer

namespace Stage

variable (p : Stage)

@[simp] theorem visiting_report (problem : Problem) (n : Node Meta) :
    (p.report problem n).progress.visiting = p.progress.visiting := by
  unfold report
  split <;> rfl

@[simp] theorem done_report (problem : Problem) (n : Node Meta) :
    (p.report problem n).progress.done = p.progress.done := by
  unfold report
  split <;> rfl

@[simp] theorem visiting_needed (n : Node Meta) (t : Option Spec) :
    (p.needed n t).progress.visiting = p.progress.visiting := by
  cases t <;> simp [needed]

@[simp] theorem done_needed (n : Node Meta) (t : Option Spec) :
    (p.needed n t).progress.done = p.progress.done := by
  cases t <;> simp [needed]

theorem visiting_close (n : Node Meta) (t : Option Spec) :
    (p.close n t).progress.visiting = p.progress.visiting.filter (· ≠ n.ann.id) := by
  obtain hEq | ⟨-, -, -, hEq⟩ := p.conclude_eq n t <;> simp [close, leave, hEq]

theorem done_close (n : Node Meta) (t : Option Spec) :
    (p.close n t).progress.done = n.ann.id :: p.progress.done := by
  obtain hEq | ⟨-, -, -, hEq⟩ := p.conclude_eq n t <;> simp [close, leave, hEq]

@[simp] theorem progress_widen (n : Node Meta) (t : Spec) (old : Option Spec) :
    (p.widen n t old).progress = p.progress := by
  cases old <;> simp [widen, fresh]

end Stage

theorem Runs.visiting {a : Part} {p p' : Stage} {ts : List (Option Spec)} (h : Runs a p ts p') :
    p'.progress.visiting = p.progress.visiting := by
  induction h with
  | value _ ih => simpa using ih
  | ident _ _ ih => simpa using ih
  | bind _ ih => simpa [Stage.finish] using ih
  | assignUnknown _ _ ih => exact ih
  | assign _ _ _ ih ihDecl => simpa using ihDecl.trans ih
  | assignMember _ _ ih ih' => exact ih'.trans ih
  | unknownCall _ _ ih => exact ih
  | refusedCall _ _ _ ih => simpa using ih
  | ambiguousCall _ _ _ _ ih => simpa using ih
  | call _ _ _ _ ih ihDecl => simpa using ihDecl.trans ih
  | nested _ _ ih ih' => exact ih'.trans ih
  | function _ _ ih ih' => exact ih'.trans ih
  | values _ _ ih ih' => exact ih'.trans ih
  | statement _ ih => simpa using ih
  | statements _ ih => exact ih
  | unknownLast _ _ ih => exact ih
  | knownLast _ _ ih ih' => exact ih'.trans ih
  | rest _ _ ih ih' => exact ih'.trans ih
  | params _ _ ih ih' => exact ih'.trans ih
  | @decl n p p' t hDone hVisiting _ ih =>
    rw [Stage.visiting_close, ih, Stage.enter, List.filter_cons_of_neg (by simp)]
    refine List.filter_eq_self.2 fun i hi => ?_
    rw [decide_eq_true_iff]
    rintro rfl
    exact hVisiting hi
  | «attribute» _ _ ih => exact ih
  | method _ _ ih ih' => simpa using ih'.trans ih
  | signature _ ih => exact ih
  | _ => rfl

variable {r : Root Meta}

namespace Stage

def Started (p : Stage) (u : Node Meta) : Prop :=
  u.ann.id ∈ p.progress.done ∨ u.ann.id ∈ p.progress.visiting

/-- The number of a node that is typed together with an attribute or method the typing of which has
started. -/
def Closed (r : Root Meta) (p : Stage) (i : Nat) : Prop :=
  ∃ u ∈ r.units, p.Started u ∧ u.Carries i

/-- To type a declaration leads to another one, by references that mean a single one each. -/
def Reaches (p : Stage) : Node Meta → Node Meta → Prop :=
  Relation.ReflTransGen fun u u' => ∃ ref, .reference ref ∈ u.nodes ∧ p.target? ref = some u'

/-- What references mean is fit for a source, and parameters are typed at once. -/
structure Fair (r : Root Meta) (p : Stage) : Prop where
  targets : p.Targets fun i n => r.Target n ∧ (¬r.Inner i → n.Within (¬r.Inner ·))
  clean : ∀ q, .param q ∈ (Node.root r).nodes → q.ann.id ∉ p.progress.visiting

/-- An attribute or method is being typed, and everything else that is being typed leads to it. -/
structure At (r : Root Meta) (p : Stage) (u : Node Meta) : Prop where
  unit : u ∈ r.units
  visiting : u.ann.id ∈ p.progress.visiting
  reached : ∀ k ∈ r.units, k.ann.id ∈ p.progress.visiting → p.Reaches k u

variable {p p' : Stage}

theorem Later.target? (h : Later p p') {ref : Reference Meta} (hn : p.target? ref = some n) :
    p'.target? ref = some n := by
  obtain ⟨symbol, hRefs, hDecl⟩ := target?_mem hn
  unfold Stage.target?
  rw [h.single hRefs]
  exact (h.decl? symbol).trans hDecl

theorem Reaches.later {u' : Node Meta} (h : Later p p') (hu : p.Reaches u u') :
    p'.Reaches u u' := by
  induction hu with
  | refl => exact .refl
  | tail _ hEdge ih =>
    obtain ⟨ref, hRef, hTarget⟩ := hEdge
    exact ih.tail ⟨ref, hRef, h.target? hTarget⟩

theorem Fair.later (hp : p.Fair r) (h : Later p p')
    (hVisiting : p'.progress.visiting = p.progress.visiting) : p'.Fair r :=
  ⟨h.targets hp.targets, hVisiting.symm ▸ hp.clean⟩

theorem At.later (hu : p.At r u) (h : Later p p')
    (hVisiting : p'.progress.visiting = p.progress.visiting) : p'.At r u :=
  ⟨hu.unit, hVisiting.symm ▸ hu.visiting,
    fun k hk hv => (hu.reached k hk (hVisiting ▸ hv)).later h⟩

theorem Started.later (hu : p.Started u) (h : Later p p')
    (hVisiting : p'.progress.visiting = p.progress.visiting) : p'.Started u :=
  hu.imp (fun hi => h.done hi) fun hi => hVisiting.symm ▸ hi

theorem Closed.later (hi : p.Closed r i) (h : Later p p')
    (hVisiting : p'.progress.visiting = p.progress.visiting) : p'.Closed r i := by
  obtain ⟨u, hu, hStarted, hCarries⟩ := hi
  exact ⟨u, hu, hStarted.later h hVisiting, hCarries⟩

theorem At.closed (hu : p.At r u) (hi : u.Carries i) : p.Closed r i :=
  ⟨u, hu.unit, .inr hu.visiting, hi⟩

end Stage

end Infer

end Assay
