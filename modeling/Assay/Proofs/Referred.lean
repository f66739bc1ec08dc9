import Mathlib
import Assay.Proofs.Typed

/-! What the references of a source come to. Each is settled once: it is given the symbols under its name
in the innermost scope around it that has any by then, or it is reported. Of several methods a call comes
to mean one, or there is a report. -/

namespace Assay

open Check (Goes)

/-- The symbols under a name in a single scope: the innermost one on a path that has an entry for it. -/
def Scope.Nearest (t : Scope) (path : Path) (name : Text) (symbols : List Symbol) : Prop :=
  ∃ key q s, (Name.ofText name).key = .ok key ∧ q <+: path ∧ t.at? q = some s ∧
    s.symbols? key = some symbols ∧ ∀ q', q' <+: path → q.length < q'.length → t.Free q' key

theorem Scope.nearest_of_find {t : Scope} {path : Path} {name : Text} {symbols : List Symbol}
    (hSimple : (Name.ofText name).isQualified = false)
    (h : t.find path (Name.ofText name) = .ok symbols) (hSome : symbols ≠ []) :
    t.Nearest path name symbols := by
  unfold Scope.find at h
  rw [hSimple, if_neg Bool.false_ne_true] at h
  cases hKey : (Name.ofText name).key with
  | error f => simp [hKey, Except.map] at h
  | ok key =>
    rw [hKey] at h
    cases hNearest : t.nearest? path key with
    | none => exact absurd (by simpa [Except.map, hNearest] using h.symm) hSome
    | some found =>
      obtain rfl : found = symbols := by simpa [Except.map, hNearest] using h
      obtain ⟨q, hq, ⟨s, hs, hFound⟩, hFree⟩ := nearest?_innermost hNearest
      exact ⟨key, q, s, hKey, hq, hs, hFound, hFree⟩

namespace Node

/-- A reference stands right below the value that refers by it. -/
theorem exists_event_of_reference {n : Node Meta} {ref : Reference Meta}
    (h : .reference ref ∈ n.nodes) : n = .reference ref ∨
      ∃ v, .value v ∈ n.nodes ∧ ∃ name, (Node.value v).event? = some (.refer ref name) := by
  induction n using induct with
  | _ n ih =>
    rw [nodes_eq, List.mem_cons, List.mem_flatMap] at h
    obtain hSelf | ⟨k, hk, hMem⟩ := h
    · exact .inl hSelf.symm
    refine .inr ?_
    obtain rfl | ⟨v, hv, hEvent⟩ := ih k hk hMem
    · obtain ⟨v, rfl, hEvent⟩ :
          ∃ v, n = .value v ∧ ∃ name, (Node.value v).event? = some (.refer ref name) := by
        unfold children at hk
        split at hk <;> simp only [List.mem_append, List.mem_map, List.mem_cons, List.not_mem_nil,
          or_false, reduceCtorEq, and_false, exists_false, false_or, Option.mem_toList,
          Node.reference.injEq] at hk <;> subst hk <;> exact ⟨_, rfl, _, rfl⟩
      exact ⟨v, self_mem_nodes _, hEvent⟩
    · exact ⟨v, nodes_subset (mem_nodes_child hk) hv, hEvent⟩

/-- What an event of a value that refers looks up: a word, or the name of a call. -/
theorem refer_cases {v : Value Meta} {ref : Reference Meta} {name : Text}
    (h : (Node.value v).event? = some (.refer ref name)) (hFormed : (Node.value v).Formed) :
    .reference ref ∈ (Node.value v).children ∧ (ref.forward = false ∧ name = ref.name ∨
      ref.forward = true ∧ ∃ m types args, v = .call m ref types args ∧
        name = callName ref.name args.length) := by
  cases v <;> simp only [event?, Option.some.injEq, reduceCtorEq, NameEvent.refer.injEq] at h <;>
    obtain ⟨rfl, rfl⟩ := h
  · exact ⟨by simp [children], .inl ⟨hFormed, rfl⟩⟩
  · exact ⟨by simp [children], .inl ⟨hFormed, rfl⟩⟩
  · exact ⟨by simp [children], .inl ⟨hFormed, rfl⟩⟩
  · exact ⟨by simp [children], .inr ⟨hFormed, _, _, _, rfl, rfl⟩⟩

end Node

namespace NameEvent

def refId? : NameEvent → Option Nat
  | .declare .. => none
  | .refer ref _ => some ref.ann.id

theorem filterMap_refId?_events (n : Node Meta) :
    n.events.filterMap refId? = n.referrals.map Prod.fst := by
  rw [Node.events, List.filterMap_filterMap, List.filterMap_eq_flatMap_toList, Node.referrals,
    List.map_flatMap]
  refine congrArg (List.flatMap · n.nodes) (funext fun k => ?_)
  cases k with
  | top t => cases t <;> rfl
  | value v => cases v <;> rfl
  | _ => rfl

theorem mem_nameEvents {r : Root Meta} {v : Value Meta} (hv : .value v ∈ (Node.root r).nodes)
    {e : NameEvent} (he : (Node.value v).event? = some e) : e ∈ inOrder r.top.nameEvents := by
  obtain ⟨u, hu, hv⟩ := Root.exists_unit hv trivial
  have hTop : e ∈ (Node.top r.top).events := List.mem_filterMap.2
    ⟨_, Node.nodes_subset (Node.mem_nodes_child (Root.mem_children_of_units hu)) hv, he⟩
  rw [mem_inOrder]
  cases hKind : r.top with
  | ofClass d => exact d.nameEvents_perm.mem_iff.2 (hKind ▸ hTop)
  | ofType d => exact d.nameEvents_perm.mem_iff.2 (List.mem_append_right _ (hKind ▸ hTop))

theorem refId?_nodup {r : Root Meta} (h : (Node.root r).ids.Nodup) :
    ((inOrder r.top.nameEvents).filterMap refId?).Nodup := by
  have hPerm : (inOrder r.top.nameEvents).Perm r.top.nameEvents :=
    List.perm_append_comm.trans (List.filter_append_perm isLate _)
  have hTop : (r.top.nameEvents.filterMap refId?).Perm ((Node.top r.top).referrals.map Prod.fst) := by
    rw [← filterMap_refId?_events]
    cases r.top with
    | ofClass d => exact d.nameEvents_perm.filterMap _
    | ofType d =>
      refine (d.nameEvents_perm.filterMap _).trans ?_
      rw [List.filterMap_append, List.filterMap_eq_nil_iff.2 (by simp [refId?]), List.nil_append]
  refine ((hPerm.filterMap _).trans hTop).nodup_iff.2 ?_
  obtain ⟨l, hl, hSub⟩ := Node.subperm_ids (.top r.top)
  exact hl.nodup_iff.1 ((h.sublist (Node.ids_sublist
    (Node.mem_nodes_child (by simp [Node.children])))).sublist hSub)

/-- A diagnostic that says of a reference that nothing was found. -/
def unresolved (ref : Reference Meta) (d : Diagnostic) : Bool :=
  d.isOn .notDefined (.reference ref) || d.isOn .notFound (.reference ref)

/-- The report on a reference for which nothing was found under a name. -/
def report (ref : Reference Meta) (name : Text) : Diagnostic :=
  .ofNode (if ref.forward then .notFound name else .notDefined name) (.reference ref)

theorem unresolved_ofNode {ref : Reference Meta} {q : Problem} {n : Node Meta} :
    unresolved ref (.ofNode q n) = true ↔
      (q.kind = .notDefined ∨ q.kind = .notFound) ∧ n.ann.id = ref.ann.id := by
  simp only [unresolved, Diagnostic.isOn, Bool.or_eq_true, Bool.and_eq_true, decide_eq_true_iff,
    ← or_and_right]
  exact and_congr_right fun _ => Option.some_inj

theorem unresolved_report {ref ref' : Reference Meta} {name : Text} :
    unresolved ref (report ref' name) = true ↔ ref'.ann.id = ref.ann.id := by
  rw [report, unresolved_ofNode]
  refine and_iff_right ?_
  cases ref'.forward <;> simp [Problem.kind]

theorem Settles.other {e : NameEvent} {errors : List Diagnostic} {w w' : World}
    (h : e.Settles w errors w') {ref : Reference Meta} (he : e.refId? ≠ some ref.ann.id) :
    errors.filter (unresolved ref) = [] ∧
      w'.store.refsOf? ref.ann.id = w.store.refsOf? ref.ann.id := by
  cases h with
  | known => exact ⟨by simp [unresolved_ofNode, Problem.kind], rfl⟩
  | declared => exact ⟨rfl, rfl⟩
  | @missing _ ref' path name =>
    refine ⟨List.filter_eq_nil_iff.2 (List.forall_mem_singleton.2 fun hOn => ?_), rfl⟩
    exact he (congrArg some (unresolved_report.1 hOn))
  | found =>
    exact ⟨rfl, Store.refsOf?_setRefs_of_ne _ _ fun hEq => he (congrArg some hEq.symm)⟩

theorem SettlesEach.others {es : List NameEvent} {errors : List Diagnostic} {w w' : World}
    (h : SettlesEach es w errors w') {ref : Reference Meta}
    (hes : ref.ann.id ∉ es.filterMap refId?) : errors.filter (unresolved ref) = [] ∧
      w'.store.refsOf? ref.ann.id = w.store.refsOf? ref.ann.id := by
  induction h with
  | nil => exact ⟨rfl, rfl⟩
  | cons h _ ih =>
    rw [List.mem_filterMap] at hes
    push Not at hes
    rw [List.forall_mem_cons] at hes
    obtain ⟨hErrors, hRefs⟩ := h.other hes.1
    obtain ⟨hMore, hRest⟩ := ih (by simpa using hes.2)
    exact ⟨by rw [List.filter_append, hErrors, hMore]; rfl, hRest.trans hRefs⟩

end NameEvent

open NameEvent (Settles SettlesEach)

/-- The table in which an event of a source is settled: the table `t`, after the events before it. -/
inductive Root.Settling (r : Root Meta) (t : Scope) (e : NameEvent) : Scope → Prop where
  | mk {before after : List NameEvent} {names : List Diagnostic} {w w' : World}
    (hOrder : NameEvent.inOrder r.top.nameEvents = before ++ e :: after) (hTable : w.store.table = t)
    (hBefore : SettlesEach before w names w') : Settling r t e w'.store.table

theorem NameEvent.SettlesEach.split {before after : List NameEvent} {e : NameEvent}
    {errors : List Diagnostic} {w w' : World} (h : SettlesEach (before ++ e :: after) w errors w') :
    ∃ w₁ w₂ names own more, SettlesEach before w names w₁ ∧ e.Settles w₁ own w₂ ∧
      SettlesEach after w₂ more w' ∧ errors = names ++ (own ++ more) := by
  induction before generalizing w errors with
  | nil =>
    obtain ⟨⟩ | ⟨h, hRest⟩ := h
    exact ⟨_, _, _, _, _, .nil, h, hRest, rfl⟩
  | cons e' before ih =>
    obtain ⟨⟩ | ⟨h, hRest⟩ := h
    obtain ⟨w₁, w₂, names, own, more, hBefore, hOwn, hMore, rfl⟩ := ih hRest
    exact ⟨w₁, w₂, _, own, more, .cons h hBefore, hOwn, hMore, (List.append_assoc ..).symm⟩

/-- What becomes of a reference that is settled in the table `t`. Either it means the symbols under the
name in the nearest scope that has any, of which a call may come to mean one, and no report says that
there are none; or it means nothing, and there is one report. -/
inductive Reference.Resolves (t : Scope) (st : Store) (errors : List Diagnostic) (name : Text)
    (ref : Reference Meta) : Prop where
  | meant {path : Path} {all symbols : List Symbol} (hScope : ref.ann.scope = some path)
    (hNearest : t.Nearest path name all) (hSome : symbols ≠ [])
    (hSymbols : symbols = all ∨ ref.forward = true ∧ ∃ symbol ∈ all, symbols = [symbol])
    (hRefs : st.refsOf? ref.ann.id = some symbols)
    (hErrors : errors.filter (NameEvent.unresolved ref) = [])
  | reported {path : Path} (hScope : ref.ann.scope = some path)
    (hNone : t.find path (Name.ofText name) = .ok []) (hRefs : st.refsOf? ref.ann.id = none)
    (hErrors : errors.filter (NameEvent.unresolved ref) = [NameEvent.report ref name])

namespace Root

variable {r : Root Meta}

/-- How a name that a source refers by is looked up: it is simple, and there is at most one symbol under
it, unless it is that of a call. -/
theorem Shapely.refer (h : r.Shapely) {v : Value Meta} {ref : Reference Meta} {name : Text}
    (hv : .value v ∈ (Node.root r).nodes) (he : (Node.value v).event? = some (.refer ref name)) :
    (Name.ofText name).isQualified = false ∧
      (ref.forward = false ∧ (∃ p, (Name.ofText name).key = .ok (.plain p)) ∧
        (∀ m types args, v ≠ .call m ref types args) ∨
      ref.forward = true ∧ ∃ m types args, v = .call m ref types args) := by
  obtain ⟨hRef, hKind⟩ := Node.refer_cases he (h.formed _ hv)
  have hWord : Text.isWord ref.name := h.spoken _ (Node.mem_nodes_of_child hv hRef) rfl
  obtain ⟨hForward, rfl⟩ | ⟨hForward, m, types, args, rfl, rfl⟩ := hKind
  · refine ⟨by rw [Name.ofText_of_isWord hWord]; rfl, .inl ⟨hForward, ?_, ?_⟩⟩
    · exact ⟨_, (Name.dotted_ofText (Text.isDotted_of_isWord hWord)).key⟩
    · rintro m types args rfl
      exact absurd ((h.formed _ hv : ref.forward = true).symm.trans hForward) (by simp)
  · exact ⟨by rw [(Name.key_callName hWord args.length).1]; rfl, .inr ⟨hForward, m, types, args, rfl⟩⟩

end Root

namespace Infer

variable {r : Root Meta} {p p' : Stage}

theorem Runs.length_values {vs : List (Value Meta)} {ts : List (Option Spec)}
    (h : Runs (.values vs) p ts p') : ts.length = vs.length := by
  induction vs generalizing p ts with
  | nil =>
    cases h
    rfl
  | cons v vs ih =>
    cases h with
    | values _ hRest => rw [List.length_cons, List.length_cons, ih hRest]

/-- Whatever is marked as reported is reported. -/
def Stage.Told (p : Stage) : Prop := p.progress.errors = [] → p.progress.reported = []

namespace Stage

theorem Told.report (hp : p.Told) (problem : Problem) (n : Node Meta) : (p.report problem n).Told := by
  unfold Stage.report
  split
  · exact hp
  · exact fun h => absurd h (by simp)

theorem Step.told {P : Nat → Prop} {Q : Node Meta → Prop} (h : Step P Q p p') (hp : p.Told) :
    p'.Told := by
  have hSame (h : p'.progress.errors = p.progress.errors)
      (h' : p'.progress.reported = p.progress.reported) : p'.Told := by
    rw [Told, h, h']
    exact hp
  cases h with
  | note | widen => exact hSame (by simp) (by simp)
  | narrow | grow | finish | enter | leave | start => exact hSame rfl rfl
  | report => exact hp.report _ _
  | @close n t =>
    have hConclude : (p.conclude n t).Told := by
      obtain hEq | ⟨-, -, -, hEq⟩ := p.conclude_eq n t
      · rw [hEq]
        exact hp
      · rw [hEq]
        exact hp.report _ _
    simpa [Told, Stage.close, Stage.leave] using hConclude

theorem Told.errors_report (hp : p.Told) (problem : Problem) (n : Node Meta) :
    (p.report problem n).progress.errors ≠ [] := by
  intro hNone
  have hReported := hp.report problem n hNone
  unfold Stage.report at hReported
  split at hReported
  · rename_i hMem
    rw [hReported] at hMem
    cases hMem
  · cases hReported

end Stage

/-- A call that is dealt with comes to mean one method, with as many parameters as there are arguments,
unless there is a report. -/
theorem Occurs.call {m : Meta} {ref : Reference Meta} {types : List Spec} {args : List (Value Meta)}
    {P : Nat → Prop} (h : Occurs r (.call m ref types args) P p p') (hp : p.Told)
    (hRefs : (p.store.refsOf? ref.ann.id).isSome) (hErrors : p'.progress.errors = []) :
    ∃ symbol n text, p'.store.refsOf? ref.ann.id = some [symbol] ∧
      p'.store.decl? symbol = some n ∧ n.arity? = some (text, args.length) := by
  obtain ⟨q, t, q', hFirst, hRuns, -, -, hLast⟩ := h
  have hq : q.Told := hFirst.keep (I := Stage.Told) Stage.Step.told hp
  -- A report would be left in the end.
  have hNone {p₁ : Stage} {problem : Problem} {ts : List (Option Spec)}
      (hArgs : Runs (.values args) q ts p₁) (hEq : q' = p₁.report problem (.reference ref)) : False := by
    have hp₁ : p₁.Told := hArgs.any_steps.keep (I := Stage.Told) Stage.Step.told hq
    obtain ⟨more, hMore⟩ := hLast.later.errors
    rw [hErrors, List.append_eq_nil_iff, hEq] at hMore
    exact hp₁.errors_report _ _ hMore.1
  cases hRuns with
  | value h =>
    cases h with
    | literal hName => exact nomatch hName
    | unknownCall hArgs hUnknown =>
      obtain hSame | ⟨_, _, _, _, hSome⟩ := (hFirst.later.trans hArgs.later).refs ref.ann.id
      · rw [← hSame, hUnknown] at hRefs
        cases hRefs
      · rw [hUnknown] at hSome
        cases hSome
    | refusedCall hArgs => exact (hNone hArgs rfl).elim
    | ambiguousCall hArgs => exact (hNone hArgs rfl).elim
    | @call _ _ _ _ _ p₁ p₂ ts symbols one t hArgs _ hMatching hDecl =>
      obtain ⟨hs, hNode, text, hArity⟩ := mem_of_matching_one hMatching (List.mem_singleton_self one)
      have hLater : Stage.Later (p₁.narrow ref.ann.id one.symbol) p' :=
        (hDecl.later.trans ((Stage.Later.note _ _ _).trans (.note _ _ _))).trans hLast.later
      refine ⟨one.symbol, one.node, text, hLater.single (Store.refsOf?_setRefs_self _ _ _), ?_, ?_⟩
      · exact (hLater.decl? _).trans hNode
      · rw [hArity, hArgs.length_values]

end Infer

namespace Root

variable {r : Root Meta} {t : Scope} {found errors names : List Diagnostic} {w w' : World}
  {v : Value Meta} {ref : Reference Meta} {name : Text}

/-- A reference is settled once among the events of a source. -/
theorem settles_refer (hNodup : (Node.root r).ids.Nodup)
    (h : SettlesEach (NameEvent.inOrder r.top.nameEvents) w names w')
    (hv : .value v ∈ (Node.root r).nodes) (he : (Node.value v).event? = some (.refer ref name)) :
    ∃ t path, r.Settling w.store.table (.refer ref name) t ∧ ref.ann.scope = some path ∧
      ((∃ all, t.find path (Name.ofText name) = .ok all ∧ all ≠ [] ∧
        w'.store.refsOf? ref.ann.id = some all ∧ names.filter (NameEvent.unresolved ref) = []) ∨
      t.find path (Name.ofText name) = .ok [] ∧
        w'.store.refsOf? ref.ann.id = w.store.refsOf? ref.ann.id ∧
          names.filter (NameEvent.unresolved ref) = [NameEvent.report ref name]) := by
  obtain ⟨before, after, hOrder⟩ := List.append_of_mem (NameEvent.mem_nameEvents hv he)
  have hOnce := NameEvent.refId?_nodup hNodup
  rw [hOrder, List.filterMap_append] at hOnce
  have hMem : ref.ann.id ∈ (.refer ref name :: after).filterMap NameEvent.refId? := by
    simp [NameEvent.refId?]
  have hBefore : ref.ann.id ∉ before.filterMap NameEvent.refId? :=
    fun hMem' => List.disjoint_of_nodup_append hOnce hMem' hMem
  have hAfter : ref.ann.id ∉ after.filterMap NameEvent.refId? :=
    (List.nodup_cons.1 (List.nodup_append.1 hOnce).2.1).1
  rw [hOrder] at h
  obtain ⟨w₁, w₂, early, own, late, hEarly, hOwn, hLate, rfl⟩ := h.split
  obtain ⟨hNoEarly, hRefsEarly⟩ := hEarly.others hBefore
  obtain ⟨hNoLate, hRefsLate⟩ := hLate.others hAfter
  rw [List.filter_append, List.filter_append, hNoEarly, hNoLate, hRefsLate, List.nil_append,
    List.append_nil]
  cases hOwn with
  | @missing _ _ path _ hScope hFind =>
    refine ⟨_, path, .mk hOrder rfl hEarly, hScope, .inr ⟨hFind, hRefsEarly, ?_⟩⟩
    exact List.filter_eq_self.2 (List.forall_mem_singleton.2 (NameEvent.unresolved_report.2 rfl))
  | @found _ _ path _ symbols hScope hFind hSome =>
    exact ⟨_, path, .mk hOrder rfl hEarly, hScope,
      .inl ⟨symbols, hFind, hSome, Store.refsOf?_setRefs_self _ _ _, rfl⟩⟩

theorem Untouched.refs (h : r.Untouched w) (hRef : .reference ref ∈ (Node.root r).nodes) :
    w.store.refsOf? ref.ann.id = none := by
  cases hRefs : w.store.refsOf? ref.ann.id with
  | none => rfl
  | some symbols => exact absurd ⟨_, hRef, trivial, rfl⟩ (h.avoids.within.refs hRefs).1.2

theorem told_begin (st : Store) (r : Root Meta) : (Infer.Stage.begin ⟨.start, st⟩ r).Told := by
  obtain ⟨done, -, hEq⟩ := Apt.begin_progress st r
  simp [Infer.Stage.Told, hEq]

/-- A diagnostic on a node that says that a symbol is not found or not defined only if the node is a
leading one of the source, and satisfies `P`. -/
def Owns (r : Root Meta) (P : Node Meta → Prop) (d : Diagnostic) : Prop :=
  ∃ q n, d = .ofNode q n ∧ (q.kind = .notDefined ∨ q.kind = .notFound →
    n ∈ (Node.root r).nodes ∧ n.label.leads ∧ P n)

theorem Owns.mono {P : Node Meta → Prop} {d : Diagnostic} (h : r.Owns P d) :
    r.Owns (fun _ => True) d := by
  obtain ⟨q, n, hEq, hOwn⟩ := h
  exact ⟨q, n, hEq, fun hKind => (hOwn hKind).imp_right fun h => ⟨h.1, trivial⟩⟩

def IsUse (n : Node Meta) : Prop := ∃ u, n = .use u

theorem owns_of_discovered {d : Diagnostic} (h : d.Discovered r) : r.Owns IsUse d := by
  obtain ⟨q, n, rfl, -, hNot, hUse⟩ := h
  refine ⟨q, n, rfl, fun hKind => ?_⟩
  cases q with
  | notDefined name => exact absurd rfl (hNot name)
  | notFound name =>
    obtain ⟨hn, u, rfl⟩ := hUse name rfl
    exact ⟨hn, rfl, u, rfl⟩
  | _ => simp [Problem.kind] at hKind

theorem owns_of_booked {p : Infer.Stage} (h : p.Booked r) :
    ∀ d ∈ p.progress.errors, r.Owns IsUse d := by
  intro d hd
  obtain ⟨q, n, rfl, hReportable, -⟩ := h d hd
  refine ⟨q, n, rfl, fun hKind => ?_⟩
  cases hReportable <;> simp [Problem.kind] at hKind

theorem owns_of_settles (h : SettlesEach (NameEvent.inOrder r.top.nameEvents) w names w') :
    ∀ d ∈ names, r.Owns (fun _ => True) d := by
  intro d hd
  obtain ⟨e, he, hFails⟩ := h.fails d hd
  cases e with
  | declare scope name n =>
    obtain ⟨place, rfl⟩ := hFails
    exact ⟨_, _, rfl, by simp [Problem.kind]⟩
  | refer ref name =>
    obtain ⟨_, rfl⟩ := hFails
    exact ⟨_, _, rfl, fun _ => ⟨node_of_event (NameEvent.mem_inOrder.1 he), rfl, trivial⟩⟩

theorem unresolved_eq_nil (hr : r.Sane) {ds : List Diagnostic} (h : ∀ d ∈ ds, r.Owns IsUse d)
    (hRef : .reference ref ∈ (Node.root r).nodes) : ds.filter (NameEvent.unresolved ref) = [] := by
  refine List.filter_eq_nil_iff.2 fun d hd hOn => ?_
  obtain ⟨q, n, rfl, hUse⟩ := h d hd
  rw [NameEvent.unresolved_ofNode] at hOn
  obtain ⟨hn, -, u, rfl⟩ := hUse hOn.1
  exact nomatch hr.eq_of_id hn hRef hOn.2

theorem Untouched.unresolved_sort (h : r.Untouched w) {ds : List Diagnostic}
    (hOwns : ∀ d ∈ ds, r.Owns (fun _ => True) d) (hRef : .reference ref ∈ (Node.root r).nodes)
    (hOne : ds.filter (NameEvent.unresolved ref) = [NameEvent.report ref name]) :
    (Diagnostic.sort ds).filter (NameEvent.unresolved ref) = [NameEvent.report ref name] := by
  have hOn : NameEvent.unresolved ref (NameEvent.report ref name) = true :=
    NameEvent.unresolved_report.2 rfl
  have hKind (q : Problem) (hq : q.kind = (NameEvent.report ref name).kind) :
      q.kind = .notDefined ∨ q.kind = .notFound := hq ▸ (NameEvent.unresolved_ofNode.1 hOn).1
  have hOwn (q : Problem) (m : Node Meta) (hMem : .ofNode q m ∈ ds)
      (hq : q.kind = (NameEvent.report ref name).kind) : m ∈ (Node.root r).nodes ∧ m.label.leads := by
    obtain ⟨q', m', hEq, hOwn⟩ := hOwns _ hMem
    obtain rfl : m = m' := Option.some.inj (congrArg Diagnostic.node hEq)
    have hSame : q.kind = q'.kind := congrArg Diagnostic.kind hEq
    exact (hOwn (hSame ▸ hKind q hq)).imp_right And.left
  have hProblems (d : Diagnostic) (hd : d ∈ ds) : ∃ q m, d = .ofNode q m := by
    obtain ⟨q, m, hEq, -⟩ := hOwns d hd
    exact ⟨q, m, hEq⟩
  obtain hKept | ⟨-, q, m, hq, hm, hMem, -⟩ := h.reported hProblems hRef rfl hOne
    (fun q hq => NameEvent.unresolved_ofNode.2 ⟨hKind q hq, rfl⟩) fun q m hMem hq _ => (hOwn q m hMem hq).2
  · exact hKept
  · exact absurd (hOwn q m (Diagnostic.mem_of_mem_sort hMem) hq).1 hm

namespace Finishes

theorem resolves (h : r.Finishes t found errors w) (hFound : ∀ e ∈ found, e.Discovered r)
    {ref : Reference Meta} (hRef : .reference ref ∈ (Node.root r).nodes) :
    ∃ v name t', .value v ∈ (Node.root r).nodes ∧ (Node.value v).event? = some (.refer ref name) ∧
      (ref.forward = true ↔ ∃ m types args, v = .call m ref types args) ∧
      r.Settling t (.refer ref name) t' ∧ ref.Resolves t' w.store errors name ∧
      (errors = [] → ∃ symbol, w.store.refsOf? ref.ann.id = some [symbol] ∧
        ∀ m types args, v = .call m ref types args → ∃ n text,
          w.store.decl? symbol = some n ∧ n.arity? = some (text, args.length)) := by
  obtain ⟨hUntouched, rfl, hNames, hTour, hTypes⟩ := h
  rename_i w₀ w₁ names p
  obtain hRoot | ⟨v, hv, name, he⟩ := Node.exists_event_of_reference hRef
  · cases hRoot
  obtain ⟨hSimple, hKind⟩ := hUntouched.shapely.refer hv he
  have hForward : ref.forward = true ↔ ∃ m types args, v = .call m ref types args := by
    obtain ⟨hForward, -, hNot⟩ | ⟨hForward, hCall⟩ := hKind
    · simp [hForward, hNot]
    · simp [hForward, hCall]
  obtain ⟨t', path, hSettling, hScope, hSettled⟩ :=
    settles_refer hUntouched.grounded.nodup hNames hv he
  have hBooked : p.Booked r := by
    refine hTour.steps.keep (I := fun p => p.Booked r) Infer.Stage.Step.booked ?_
    obtain ⟨done, -, hEq⟩ := Apt.begin_progress w₁.store r
    simp [Infer.Stage.Booked, hEq]
  have hLater := (Apt.begin_later w₁.store r).trans hTour.steps.later
  have hEnd : w.store.refsOf? ref.ann.id = p.store.refsOf? ref.ann.id := by
    rw [Store.refsOf?, Store.refsOf?, hTypes.refs]
  have hFilter : (found ++ names ++ p.progress.errors).filter (NameEvent.unresolved ref) =
      names.filter (NameEvent.unresolved ref) := by
    rw [List.filter_append, List.filter_append,
      unresolved_eq_nil hUntouched.sane (fun d hd => owns_of_discovered (hFound d hd)) hRef,
      unresolved_eq_nil hUntouched.sane (owns_of_booked hBooked) hRef, List.nil_append,
      List.append_nil]
  have hOwns : ∀ d ∈ found ++ names ++ p.progress.errors, r.Owns (fun _ => True) d :=
    List.forall_mem_append.2 ⟨List.forall_mem_append.2
      ⟨fun d hd => (owns_of_discovered (hFound d hd)).mono, owns_of_settles hNames⟩,
      fun d hd => (owns_of_booked hBooked d hd).mono⟩
  refine ⟨v, name, t', hv, he, hForward, hSettling, ?_, fun hNone => ?_⟩
  · obtain ⟨all, hFind, hSome, hRefs, hNone⟩ | ⟨hFind, hRefs, hOne⟩ := hSettled
    · have hNearest := Scope.nearest_of_find hSimple hFind hSome
      have hErrors := Diagnostic.filter_sort_eq_nil (hFilter.trans hNone)
      obtain hSame | ⟨symbols, symbol, hs, hOld, hNew⟩ := hLater.refs ref.ann.id
      · exact .meant hScope hNearest hSome (.inl rfl) (hEnd.trans (hSame.trans hRefs)) hErrors
      · obtain rfl := Option.some.inj (hOld.symm.trans hRefs)
        refine .meant hScope hNearest (by simp) ?_ (hEnd.trans hNew) hErrors
        obtain ⟨-, ⟨p, hKey⟩, -⟩ | ⟨hForward, -⟩ := hKind
        · obtain rfl | ⟨one, rfl⟩ := Scope.find_plain hFind hKey
          · cases hs
          · exact .inl (by rw [List.mem_singleton.1 hs])
        · exact .inr ⟨hForward, symbol, hs, rfl⟩
    · rw [hOne] at hFilter
      refine .reported hScope hFind ?_ ?_
      · rw [hUntouched.refs hRef] at hRefs
        obtain hSame | ⟨_, _, _, hOld, _⟩ := hLater.refs ref.ann.id
        · rw [hEnd, hSame, hRefs]
        · rw [hRefs] at hOld
          cases hOld
      · exact hUntouched.unresolved_sort hOwns hRef hFilter
  · have hAll : found ++ names ++ p.progress.errors = [] := by
      refine List.eq_nil_iff_forall_not_mem.2 fun d hd => ?_
      obtain ⟨e, he, -⟩ := Diagnostic.exists_mem_sort hd
      rw [hNone] at he
      cases he
    rw [List.append_eq_nil_iff, List.append_eq_nil_iff] at hAll
    obtain ⟨all, hFind, hSome, hRefs, -⟩ | ⟨-, -, hOne⟩ := hSettled
    · obtain ⟨-, ⟨key, hKey⟩, hNot⟩ | ⟨-, m, types, args, rfl⟩ := hKind
      · obtain rfl | ⟨one, rfl⟩ := Scope.find_plain hFind hKey
        · exact absurd rfl hSome
        · exact ⟨one, hEnd.trans (hLater.single hRefs), fun m types args h => absurd h (hNot m types args)⟩
      · obtain ⟨u, hu, hMem⟩ := exists_unit hv trivial
        have hIsSome : ((Infer.Stage.begin ⟨.start, w₁.store⟩ r).store.refsOf? ref.ann.id).isSome := by
          obtain hSame | ⟨_, _, _, _, hNew⟩ := (Apt.begin_later w₁.store r).refs ref.ann.id
          · rw [hSame]
            exact congrArg Option.isSome hRefs
          · rw [hNew]
            rfl
        obtain ⟨symbol, n, text, hRefs', hDecl, hArity⟩ :=
          (hTour.cover u hu _ hMem : Infer.Occurs ..).call (told_begin _ r) hIsSome hAll.2
        refine ⟨symbol, hEnd.trans hRefs', fun m' types' args' hEq => ?_⟩
        cases hEq
        exact ⟨n, text, (Infer.Stage.decl?_congr hTypes.tops symbol).trans hDecl, hArity⟩
    · rw [hAll.1.2] at hOne
      cases hOne

end Finishes

end Root

/-- Each reference of a source that is checked means symbols in the end, or there is one report on it.
They are found under its name, or under that of a call, in the nearest scope that has any when it is
settled, and of several methods a call comes to mean one or none. If nothing at all is reported, each
reference means one symbol, and that of a call is a method with as many parameters as the call has
arguments. -/
theorem references_resolved_or_reported {supplies : List Supply} {s s' : State}
    {space path text : Text} {r r' : Root Meta} {errors : List Diagnostic}
    (h : Root.Examined supplies s space path text r r' errors s') : ∃ found w,
    Goes (r.place.discover (Supply.chain supplies)) ((s.reading space path text).world.prepared r)
      found w ∧
    ∀ ref, .reference ref ∈ (Node.root r').nodes → ∃ v name t, .value v ∈ (Node.root r').nodes ∧
      (Node.value v).event? = some (.refer ref name) ∧
      (ref.forward = true ↔ ∃ m types args, v = .call m ref types args) ∧
      r'.Settling w.store.table (.refer ref name) t ∧ ref.Resolves t s'.store errors name ∧
      (errors = [] → ∃ symbol, s'.store.refsOf? ref.ann.id = some [symbol] ∧
        ∀ m types args, v = .call m ref types args → ∃ n base,
          s'.store.decl? symbol = some n ∧ n.arity? = some (base, args.length)) := by
  obtain ⟨found, w, hGoes, hFound, hFinishes⟩ := h.finishes
  exact ⟨found, w, hGoes, fun ref hRef => hFinishes.resolves hFound hRef⟩

/-- Whether some references of a source mean symbols in a state, and others nothing. -/
def Root.partlyMeant (r : Root Meta) (_ : List Diagnostic) (s : State) : Bool :=
  let refs := (Node.root r).nodes.filterMap Node.reference?
  refs.any (fun ref => (s.store.refsOf? ref.ann.id).isSome) &&
    refs.any fun ref => (s.store.refsOf? ref.ann.id).isNone

/-- A method that calls itself, and once with too many arguments. -/
theorem call_reported_beside_another :
    ∃ r r' errors s', Root.Examined [.units, .loaders [.library]] (.start .default) "p" "A.th"
        "class A { m(x: Number) { m(x) m(x, x) } }" r r' errors s' ∧
      (∃ ref, .reference ref ∈ (Node.root r').nodes ∧ (s'.store.refsOf? ref.ann.id).isSome ∧
        errors.filter (NameEvent.unresolved ref) = []) ∧
      ∃ ref name, .reference ref ∈ (Node.root r').nodes ∧ s'.store.refsOf? ref.ann.id = none ∧
        errors.filter (NameEvent.unresolved ref) = [NameEvent.report ref name] := by
  obtain ⟨r, r', errors, s', hExamined, hPartly⟩ :=
    Root.Examined.of_examines (s := .start .default) Root.partlyMeant .empty
      (State.start_avoids .default (by simp [Config.default]) []) Supply.treeless_library
      (show Root.examines _ _ "p" "A.th" "class A { m(x: Number) { m(x) m(x, x) } }" _ = true by
        decide +kernel)
  have hMem {ref : Reference Meta}
      (h : ref ∈ (Node.root r').nodes.filterMap Node.reference?) :
      .reference ref ∈ (Node.root r').nodes := by
    obtain ⟨n, hn, hRef⟩ := List.mem_filterMap.1 h
    cases n <;> cases hRef
    exact hn
  simp only [Root.partlyMeant, Bool.and_eq_true, List.any_eq_true, Option.isNone_iff_eq_none] at hPartly
  obtain ⟨⟨ref, hRef, hSome⟩, ref', hRef', hNone⟩ := hPartly
  obtain ⟨found, w, -, hAll⟩ := references_resolved_or_reported hExamined
  refine ⟨r, r', errors, s', hExamined, ⟨ref, hMem hRef, hSome, ?_⟩, ref', ?_⟩
  · obtain ⟨_, _, _, -, -, -, -, hResolves, -⟩ := hAll ref (hMem hRef)
    cases hResolves with
    | meant _ _ _ _ _ hErrors => exact hErrors
    | reported _ _ hRefs => simp [hRefs] at hSome
  · obtain ⟨_, name, _, -, -, -, -, hResolves, -⟩ := hAll ref' (hMem hRef')
    cases hResolves with
    | meant _ _ _ _ hRefs => simp [hRefs] at hNone
    | reported _ _ hRefs hErrors => exact ⟨name, hMem hRef', hRefs, hErrors⟩

end Assay
