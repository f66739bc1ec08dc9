import Mathlib
import Assay.Check.Naming
import Assay.Proofs.Nodes

/-! The events of a source. Each node does at most one thing with a name, and what a source does is
what its nodes do, though not in the order of the tree. -/

namespace Assay

namespace Node

def event? : Node Meta → Option NameEvent
  | .param p => some p.nameEvent
  | .attribute a => some (.declare a.ann.scope a.name (.attribute a))
  | .method m =>
    some (.declare (m.ann.scope.map Path.outer) m.signature.symbolName (.method m))
  | .top (.ofClass d) => some (.declare d.ann.scope "this" (.top (.ofClass d)))
  | .value (.ident _ ref) => some (.refer ref ref.name)
  | .value (.bind m mode name s v) =>
    some (.declare m.scope name (.value (.bind m mode name s v)))
  | .value (.assign _ ref _) => some (.refer ref ref.name)
  | .value (.assignMember _ _ ref _) => some (.refer ref ref.name)
  | .value (.call _ ref _ args) => some (.refer ref (callName ref.name args.length))
  | _ => none

def events (n : Node Meta) : List NameEvent := n.nodes.filterMap event?

theorem events_eq (n : Node Meta) : n.events = n.event?.toList ++ n.children.flatMap events := by
  rw [events, nodes_eq, List.filterMap_cons, List.filterMap_flatMap]
  cases n.event? <;> rfl

@[simp] theorem events_spec (s : TypeSpec Meta) : (Node.spec s).events = [] := by
  have h (n : Node Meta) : ∀ s, n = .spec s → n.events = [] := by
    induction n using induct with
    | _ n ih =>
      rintro s rfl
      rw [events_eq, List.flatMap_eq_nil_iff.2]
      · rfl
      · intro k hk
        obtain ⟨s', rfl⟩ : ∃ s', k = .spec s' := by
          cases s <;> simp only [children, List.mem_append, List.mem_map, List.mem_singleton,
            List.not_mem_nil] at hk <;> grind
        exact ih _ hk s' rfl
  exact h _ s rfl

@[simp] theorem events_reference (ref : Reference Meta) : (Node.reference ref).events = [] := by
  rw [events_eq]
  rfl

@[simp] theorem events_typeParam (p : TypeParam Meta) : (Node.typeParam p).events = [] := by
  rw [events_eq]
  rfl

theorem flatMap_events_typeParam (ps : List (TypeParam Meta)) :
    (ps.flatMap fun p => (Node.typeParam p).events) = [] := by
  simp [List.flatMap_eq_nil_iff]

theorem flatMap_events_spec (ss : List (TypeSpec Meta)) :
    (ss.flatMap fun s => (Node.spec s).events) = [] := by
  simp [List.flatMap_eq_nil_iff]

@[simp] theorem events_param (p : Param Meta) : (Node.param p).events = [p.nameEvent] := by
  rw [events_eq]
  simp [event?, children]

theorem flatMap_events_param (ps : List (Param Meta)) :
    (ps.flatMap fun p => (Node.param p).events) = ps.map Param.nameEvent := by
  simp [← List.map_eq_flatMap]

end Node

mutual

theorem Value.nameEvents_perm : (v : Value Meta) → v.nameEvents.Perm (Node.value v).events
  | .string .. | .number .. | .boolean .. | .nothing _ | .ident .. => by
    rw [Node.events_eq]
    simp [Value.nameEvents, Node.event?, Node.children]
  | .bind m mode name s v => by
    rw [Node.events_eq]
    simp only [Value.nameEvents, Node.event?, Node.children, Option.toList_some, List.flatMap_cons,
      List.flatMap_nil, Node.events_spec, List.nil_append, List.append_nil]
    exact ((Value.nameEvents_perm v).append_right _).trans List.perm_append_comm
  | .assign m ref v => by
    rw [Node.events_eq]
    simpa [Value.nameEvents, Node.event?, Node.children] using Value.nameEvents_perm v
  | .assignMember m receiver ref v => by
    rw [Node.events_eq]
    simpa [Value.nameEvents, Node.event?, Node.children] using
      (Value.nameEvents_perm receiver).append (Value.nameEvents_perm v)
  | .call m ref types args => by
    rw [Node.events_eq]
    simp only [Value.nameEvents, Node.event?, Node.children, Option.toList_some,
      List.cons_append, List.nil_append, List.flatMap_cons, List.flatMap_append,
      Node.events_reference, Node.flatMap_events_spec, List.flatMap_map]
    exact .cons _ (Value.nameEventsAll_perm args)
  | .nested m outer inner => by
    rw [Node.events_eq]
    simp only [Value.nameEvents, Node.event?, Node.children, Option.toList_none, List.flatMap_cons,
      List.flatMap_nil, List.nil_append, List.append_nil]
    exact ((Value.nameEvents_perm inner).append (Value.nameEvents_perm outer)).trans List.perm_append_comm
  | .function m typeParams params result body => by
    rw [Node.events_eq]
    simp only [Value.nameEvents, Node.event?, Node.children, Option.toList_none, List.nil_append,
      List.flatMap_append, Node.flatMap_events_typeParam, Node.flatMap_events_param,
      List.flatMap_cons, List.flatMap_nil, Node.events_spec, List.append_nil, List.flatMap_map]
    exact (Statement.nameEventsAll_perm body).append_left _

theorem Value.nameEventsAll_perm : (vs : List (Value Meta)) →
    (Value.nameEventsAll vs).Perm (vs.flatMap fun v => (Node.value v).events)
  | [] => .refl []
  | v :: rest => by
    rw [Value.nameEventsAll, List.flatMap_cons]
    exact (Value.nameEvents_perm v).append (Value.nameEventsAll_perm rest)

theorem Statement.nameEvents_perm : (s : Statement Meta) →
    s.nameEvents.Perm (Node.statement s).events
  | ⟨m, v, last⟩ => by
    rw [Node.events_eq]
    simpa [Statement.nameEvents, Node.event?, Node.children] using Value.nameEvents_perm v

theorem Statement.nameEventsAll_perm : (ss : List (Statement Meta)) →
    (Statement.nameEventsAll ss).Perm (ss.flatMap fun s => (Node.statement s).events)
  | [] => .refl []
  | s :: rest => by
    rw [Statement.nameEventsAll, List.flatMap_cons]
    exact (Statement.nameEvents_perm s).append (Statement.nameEventsAll_perm rest)

end

theorem Signature.events_eq (s : Signature Meta) :
    (Node.signature s).events = s.params.map Param.nameEvent := by
  rw [Node.events_eq]
  simp only [Node.event?, Node.children, Option.toList_none, List.nil_append, List.flatMap_append,
    List.flatMap_map, Node.flatMap_events_typeParam, Node.flatMap_events_param, List.flatMap_cons,
    List.flatMap_nil, Node.events_spec, List.append_nil]

theorem ClassDecl.nameEvents_perm (d : ClassDecl Meta) :
    (TopLevel.ofClass d).nameEvents.Perm (Node.top (.ofClass d)).events := by
  rw [Node.events_eq]
  simp only [TopLevel.nameEvents, Node.event?, Node.children, Option.toList_some,
    List.flatMap_append, Node.flatMap_events_typeParam, List.flatMap_cons, List.flatMap_nil,
    Node.events_spec, List.append_nil, List.cons_append, List.nil_append, List.flatMap_map]
  refine .cons _ (.append ?_ ?_)
  · refine List.Perm.flatMap_left _ fun a _ => ?_
    rw [Node.events_eq]
    cases hValue : a.value with
    | none => simp [Node.event?, Node.children, hValue]
    | some v =>
      simp only [Node.event?, Node.children, hValue, Option.toList_some, List.map_cons, List.map_nil,
        List.flatMap_cons, List.flatMap_nil, Node.events_spec, List.nil_append, List.append_nil]
      exact (v.nameEvents_perm.append_right _).trans List.perm_append_comm
  · refine List.Perm.flatMap_left _ fun m _ => ?_
    rw [Node.events_eq]
    simp only [Node.event?, Node.children, Option.toList_some, List.flatMap_cons,
      Signature.events_eq, List.flatMap_map, List.cons_append, List.nil_append]
    exact .cons _ ((Statement.nameEventsAll_perm m.body).append_left _)

theorem TypeDecl.nameEvents_perm (d : TypeDecl Meta) :
    (TopLevel.ofType d).nameEvents.Perm ((d.methods.map fun s =>
      .declare (s.ann.scope.map Path.outer) s.symbolName (.signature s)) ++
        (Node.top (.ofType d)).events) := by
  rw [Node.events_eq]
  simp only [TopLevel.nameEvents, Node.event?, Node.children, Option.toList_none,
    List.flatMap_append, Node.flatMap_events_typeParam, List.flatMap_cons, List.flatMap_nil,
    Node.events_spec, List.append_nil, List.nil_append, List.flatMap_map, Signature.events_eq]
  rw [List.map_eq_flatMap]
  exact (List.flatMap_append_perm d.methods (fun s => [NameEvent.declare
    (s.ann.scope.map Path.outer) s.symbolName (.signature s)]) fun s => s.params.map Param.nameEvent).symm

def NameEvent.node : NameEvent → Node Meta
  | .declare _ _ n => n
  | .refer ref _ => .reference ref

theorem Node.node_of_event? {n : Node Meta} {e : NameEvent} (h : n.event? = some e) :
    e.node = n ∨ e.node ∈ n.children := by
  unfold Node.event? at h
  split at h <;> simp only [Option.some.injEq, reduceCtorEq] at h <;> subst h <;>
    simp [NameEvent.node, Node.children, Param.nameEvent]

/-- What a source does with a name, a node of it does. The methods of a type are declared with it. -/
theorem TopLevel.exists_event {t : TopLevel Meta} {e : NameEvent} (h : e ∈ t.nameEvents) :
    (∃ n ∈ (Node.top t).nodes, n.event? = some e) ∨ ∃ s, .signature s ∈ (Node.top t).nodes ∧
      e = .declare (s.ann.scope.map Path.outer) s.symbolName (.signature s) := by
  cases t with
  | ofClass d => exact .inl (List.mem_filterMap.1 (d.nameEvents_perm.mem_iff.1 h))
  | ofType d =>
    obtain h | h := List.mem_append.1 (d.nameEvents_perm.mem_iff.1 h)
    · obtain ⟨s, hs, rfl⟩ := List.mem_map.1 h
      exact .inr ⟨s, Node.mem_nodes_of_child (Node.self_mem_nodes _) (by simp [Node.children, hs]), rfl⟩
    · exact .inl (List.mem_filterMap.1 h)

theorem TopLevel.node_of_mem_nameEvents {t : TopLevel Meta} {e : NameEvent}
    (h : e ∈ t.nameEvents) : e.node ∈ (Node.top t).nodes := by
  obtain ⟨n, hn, he⟩ | ⟨s, hs, rfl⟩ := TopLevel.exists_event h
  · obtain hEq | hChild := Node.node_of_event? he
    · rwa [hEq]
    · exact Node.mem_nodes_of_child hn hChild
  · exact hs

end Assay
