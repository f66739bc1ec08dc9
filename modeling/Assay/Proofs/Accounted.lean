import Mathlib
import Assay.Proofs.Travelled

/-! What becomes of each declaration of a source. A step of inference that is not about a node leaves
what is known of it, or closes or widens it as a declaration. So in the end each declaration has a
type, or there is one report on it, and never both; and a type that was found is only widened. -/

namespace Assay

variable {n : Node Meta}

namespace Infer

theorem mem_alternatives_oneOf {types : List Spec} {k : Nat} {text : Text} :
    text ∈ ((oneOf types) k).1.alternatives ↔ ∃ s ∈ types, text ∈ s.alternatives := by
  have hFlat : ((oneOf types) k).1 = ((TypeSpec.flatten (.inter (newMeta k).1 types)) (newMeta k).2).1 :=
    rfl
  rw [hFlat, TypeSpec.alternatives_flatten]
  exact TypeSpec.mem_alternatives_inter

def Stage.errorsOn (p : Stage) (i : Nat) : List Diagnostic :=
  p.progress.errors.filter fun d => d.node.map (·.ann.id) = some i

namespace Stage

variable {P : Nat → Prop} {Q : Node Meta → Prop} {p p' p'' : Stage} {i : Nat}

/-- Nothing changes at a number. -/
structure Same (i : Nat) (p p' : Stage) : Prop where
  type : p'.store.typeOf? i = p.store.typeOf? i
  refs : p'.store.refsOf? i = p.store.refsOf? i
  reported : i ∈ p'.progress.reported ↔ i ∈ p.progress.reported
  done : i ∈ p'.progress.done ↔ i ∈ p.progress.done
  errors : p'.errorsOn i = p.errorsOn i

theorem Same.refl (i : Nat) (p : Stage) : Same i p p := ⟨rfl, rfl, .rfl, .rfl, rfl⟩

theorem Same.trans (h : Same i p p') (h' : Same i p' p'') : Same i p p'' where
  type := h'.type.trans h.type
  refs := h'.refs.trans h.refs
  reported := h'.reported.trans h.reported
  done := h'.done.trans h.done
  errors := h'.errors.trans h.errors

theorem same_note {j : Nat} (hNe : i ≠ j) (p : Stage) (t : Option Spec) : Same i p (p.note j t) := by
  cases t with
  | none => exact .refl i p
  | some t => exact ⟨Store.typeOf?_setType_of_ne _ _ hNe, rfl, .rfl, .rfl, rfl⟩

theorem same_leave {j : Nat} (hNe : i ≠ j) (p : Stage) : Same i p (p.leave j) :=
  ⟨rfl, rfl, .rfl, by simp [leave, hNe], rfl⟩

theorem same_report (hNe : i ≠ n.ann.id) (p : Stage) (problem : Problem) :
    Same i p (p.report problem n) := by
  unfold report
  split
  · exact .refl i p
  · refine ⟨rfl, rfl, by simp [hNe], .rfl, ?_⟩
    simp [errorsOn, List.filter_append, Diagnostic.ofNode, hNe.symm]

theorem errorsOn_report (h : n.ann.id ∉ p.progress.reported) (problem : Problem) :
    (p.report problem n).errorsOn n.ann.id = p.errorsOn n.ann.id ++ [.ofNode problem n] := by
  simp [report, h, errorsOn, List.filter_append, Diagnostic.ofNode]

theorem same_close (hNe : i ≠ n.ann.id) (p : Stage) (t : Option Spec) : Same i p (p.close n t) := by
  have hConclude : Same i p (p.conclude n t) := by
    obtain hEq | ⟨-, -, -, hEq⟩ := p.conclude_eq n t
    · rw [hEq]
      exact .refl i p
    · rw [hEq]
      exact same_report hNe p _
  exact (hConclude.trans (same_leave hNe _)).trans (same_note hNe _ t)

theorem Step.touch (h : Step P Q p p') (hi : ¬P i) : Same i p p' ∨ ∃ n, Q n ∧ n.ann.id = i ∧
    ((∃ t, i ∉ p.progress.done ∧ (n.TypedBefore → t = p.store.typeOf? i) ∧ p' = p.close n t) ∨
      ∃ old t, p.store.typeOf? i = some old ∧ p' = p.widen n t (some old)) := by
  have hNe {j : Nat} (hj : P j) : i ≠ j := fun hEq => hi (hEq ▸ hj)
  cases h with
  | note h t => exact .inl (same_note (hNe h) p t)
  | narrow h => exact .inl ⟨rfl, Store.refsOf?_setRefs_of_ne _ _ (hNe h), .rfl, .rfl, rfl⟩
  | report h => exact .inl (same_report (hNe h) p _)
  | grow => exact .inl ⟨rfl, rfl, .rfl, .rfl, rfl⟩
  | finish h =>
    refine .inl ⟨rfl, rfl, .rfl, ?_, rfl⟩
    rw [Stage.finish, List.mem_cons, or_iff_right (hNe h)]
  | enter | start => exact .inl ⟨rfl, rfl, .rfl, .rfl, rfl⟩
  | leave h => exact .inl (same_leave (hNe h) p)
  | @close n t h hDone hBefore =>
    by_cases hId : n.ann.id = i
    · exact .inr ⟨n, h, hId, .inl ⟨t, hId ▸ hDone, hId ▸ hBefore, rfl⟩⟩
    · exact .inl (same_close (fun hEq => hId hEq.symm) p t)
  | @widen n old h hOld t =>
    by_cases hId : n.ann.id = i
    · exact .inr ⟨n, h, hId, .inr ⟨old, t, hId ▸ hOld, rfl⟩⟩
    · have hGrown : Same i p (p.fresh (oneOf [old, t])).2 := ⟨rfl, rfl, .rfl, .rfl, rfl⟩
      exact .inl (hGrown.trans (same_note (fun hEq => hId hEq.symm) _ (some _)))

/-- What is known of a number stays, but that its type may be widened. -/
structure Kept (i : Nat) (p p' : Stage) : Prop where
  typed : (p'.store.typeOf? i).isSome = (p.store.typeOf? i).isSome
  grows : ∀ t, p.store.typeOf? i = some t →
    ∃ t', p'.store.typeOf? i = some t' ∧ t.alternatives ⊆ t'.alternatives
  reported : i ∈ p'.progress.reported ↔ i ∈ p.progress.reported
  errors : p'.errorsOn i = p.errorsOn i

theorem Same.kept (h : Same i p p') : Kept i p p' where
  typed := by rw [h.type]
  grows t ht := ⟨t, h.type.trans ht, List.Subset.refl _⟩
  reported := h.reported
  errors := h.errors

theorem Kept.trans (h : Kept i p p') (h' : Kept i p' p'') : Kept i p p'' where
  typed := h'.typed.trans h.typed
  grows t ht := by
    obtain ⟨t', ht', hSub⟩ := h.grows t ht
    obtain ⟨t'', ht'', hSub'⟩ := h'.grows t' ht'
    exact ⟨t'', ht'', List.Subset.trans hSub hSub'⟩
  reported := h'.reported.trans h.reported
  errors := h'.errors.trans h.errors

theorem widen_grows (p : Stage) (n : Node Meta) (old t : Spec) :
    ∃ t', (p.widen n t (some old)).store.typeOf? n.ann.id = some t' ∧
      old.alternatives ⊆ t'.alternatives ∧ t.alternatives ⊆ t'.alternatives := by
  refine ⟨((oneOf [old, t]) p.store.next).1, Store.typeOf?_setType_self _ _ _, fun text h => ?_,
    fun text h => ?_⟩
  · rw [mem_alternatives_oneOf]
    exact ⟨old, List.mem_cons_self, h⟩
  · rw [mem_alternatives_oneOf]
    exact ⟨t, List.mem_cons_of_mem _ List.mem_cons_self, h⟩

theorem kept_widen {old : Spec} (hOld : p.store.typeOf? n.ann.id = some old) (t : Spec) :
    Kept n.ann.id p (p.widen n t (some old)) := by
  obtain ⟨t', ht', hSub, _⟩ := p.widen_grows n old t
  refine ⟨by rw [ht', hOld]; rfl, fun t₁ ht₁ => ?_, by simp, rfl⟩
  rw [hOld] at ht₁
  obtain rfl := Option.some.inj ht₁
  exact ⟨t', ht', hSub⟩

theorem kept_close (hn : n.TypedBefore) :
    Kept n.ann.id p (p.close n (p.store.typeOf? n.ann.id)) := by
  have hConclude : p.conclude n (p.store.typeOf? n.ann.id) = p := by
    obtain hEq | ⟨-, hNot, -⟩ := p.conclude_eq n (p.store.typeOf? n.ann.id)
    · exact hEq
    · exact absurd hn hNot
  have hType : (p.close n (p.store.typeOf? n.ann.id)).store.typeOf? n.ann.id =
      p.store.typeOf? n.ann.id := by
    rw [close, hConclude]
    cases hOld : p.store.typeOf? n.ann.id with
    | none => exact hOld
    | some t => exact Store.typeOf?_setType_self _ _ _
  refine ⟨by rw [hType], fun t ht => ⟨t, hType.trans ht, List.Subset.refl _⟩, ?_, ?_⟩
  · rw [close, hConclude, progress_note]
    rfl
  · rw [close, hConclude, errorsOn, progress_note]
    rfl

theorem Steps.kept (h : Steps P Q p p') (hi : ¬P i)
    (hClosed : ∀ n, Q n → n.ann.id = i → n.TypedBefore ∨ i ∈ p.progress.done) : Kept i p p' := by
  induction h with
  | refl => exact (Same.refl i p).kept
  | tail hSteps hStep ih =>
    refine ih.trans ?_
    obtain hSame | ⟨n, hn, rfl, ⟨t, hDone, hBefore, rfl⟩ | ⟨old, t, hOld, rfl⟩⟩ := hStep.touch hi
    · exact hSame.kept
    · obtain hTyped | hDone' := hClosed n hn rfl
      · rw [hBefore hTyped]
        exact kept_close hTyped
      · exact absurd (Steps.later hSteps |>.done hDone') hDone
    · exact kept_widen hOld t

/-- Nothing is known of a number. -/
structure Blank (p : Stage) (i : Nat) : Prop where
  type : p.store.typeOf? i = none
  reported : i ∉ p.progress.reported
  errors : p.errorsOn i = []

/-- A declaration has a type and there is no report on it, or it has none and there is one report, which
says so. -/
def Answered (p : Stage) (n : Node Meta) : Prop :=
  (p.store.typeOf? n.ann.id).isSome ∧ p.errorsOn n.ann.id = [] ∨
    p.store.typeOf? n.ann.id = none ∧ p.errorsOn n.ann.id = [.ofNode .notInferable n]

theorem Kept.blank (h : Kept i p p') (hp : p.Blank i) : p'.Blank i := by
  refine ⟨?_, fun hi => hp.reported (h.reported.1 hi), h.errors.trans hp.errors⟩
  have hTyped := h.typed
  rw [hp.type] at hTyped
  exact Option.isNone_iff_eq_none.1 (by simpa using hTyped)

theorem Kept.answered (h : Kept n.ann.id p p') (hp : p.Answered n) : p'.Answered n := by
  obtain ⟨hTyped, hNone⟩ | ⟨hNone, hOne⟩ := hp
  · exact .inl ⟨h.typed.trans hTyped, h.errors.trans hNone⟩
  · refine .inr ⟨?_, h.errors.trans hOne⟩
    have hTyped := h.typed
    rw [hNone] at hTyped
    exact Option.isNone_iff_eq_none.1 (by simpa using hTyped)

/-- Every diagnostic is on the node that it is about, and those on types that are not known are on
declarations that the source has to do with. -/
def Booked (r : Root Meta) (p : Stage) : Prop :=
  ∀ d ∈ p.progress.errors, ∃ problem n, d = .ofNode problem n ∧ Reportable problem n ∧
    (problem = .notInferable → r.Target n)

variable {r : Root Meta}

theorem Booked.report (hp : p.Booked r) {problem : Problem} (hn : Reportable problem n)
    (hOn : problem = .notInferable → r.Target n) : (p.report problem n).Booked r := by
  unfold Stage.report
  split
  · exact hp
  · exact List.forall_mem_append.2 ⟨hp, List.forall_mem_singleton.2 ⟨problem, n, rfl, hn, hOn⟩⟩

theorem Step.booked (h : Step P r.Target p p') (hp : p.Booked r) : p'.Booked r := by
  have hErrors (h : p'.progress.errors = p.progress.errors) : p'.Booked r := fun d hd =>
    hp d (h ▸ hd)
  cases h with
  | note | widen => exact hErrors (by simp)
  | narrow | grow | finish | enter | leave | start => exact hErrors rfl
  | report _ hn hOn => exact hp.report hn hOn
  | @close n t hn =>
    have hConclude : (p.conclude n t).Booked r := by
      obtain hEq | ⟨hInferable, -, -, hEq⟩ := p.conclude_eq n t
      · rw [hEq]
        exact hp
      · rw [hEq]
        exact hp.report (.notInferable hInferable) fun _ => hn
    exact fun d hd => hConclude d (by simpa [Stage.close, Stage.leave] using hd)

end Stage

end Infer

namespace Root.Sane

variable {r : Root Meta} {n m : Node Meta}

theorem eq_of_target (h : r.Sane) (hm : r.Target m) (hn : n ∈ (Node.root r).nodes)
    (hInner : n.Inner) (hId : m.ann.id = n.ann.id) : m = n := by
  have hMem : m ∈ (Node.root r).nodes := by
    obtain hOther | hUnit | ⟨hMem, _⟩ := hm
    · exact absurd ⟨n, hn, hInner, hId.symm⟩ hOther.1
    · exact mem_nodes_of_units hUnit
    · exact hMem
  exact h.eq_of_id hMem hn hId

end Root.Sane

/-- A declaration whose type is needed once it is closed. -/
def Node.Concluded (n : Node Meta) : Prop := n.Inferable ∧ ¬n.TypedBefore

namespace Infer

open Stage (Step Steps Kept Blank)

variable {r : Root Meta} {p p' : Stage}

theorem concluded_facts (hn : r.Declares n) (hConcluded : n.Concluded) :
    n ∈ (Node.root r).nodes ∧ n.Inner ∧ (n ∈ r.units ∨ ∃ q, n = .param q) := by
  obtain hUnit | ⟨hMem, hLocal⟩ := hn
  · refine ⟨Root.mem_nodes_of_units hUnit, ?_, .inl hUnit⟩
    obtain ⟨_, rfl⟩ | ⟨_, rfl⟩ | ⟨⟨_, rfl⟩, _⟩ := Root.units_cases hUnit <;> trivial
  · obtain ⟨hInferable, hBefore⟩ := hConcluded
    cases n with
    | param q => exact ⟨hMem, trivial, .inr ⟨q, rfl⟩⟩
    | value v => cases v <;> first | exact absurd trivial hBefore | exact hLocal.elim
    | _ => exact hLocal.elim

/-- The attributes, parameters and signatures of a source that are closed are typed or reported, and
nothing is known of the others. -/
def Stage.Accounts (r : Root Meta) (p : Stage) : Prop :=
  ∀ n, r.Declares n → n.Concluded →
    (n.ann.id ∉ p.progress.done → p.Blank n.ann.id) ∧ (n.ann.id ∈ p.progress.done → p.Answered n)

theorem Stage.Step.accounts (hr : r.Sane) (h : Step (Aside r) r.Target p p') (hp : p.Accounts r) :
    p'.Accounts r := by
  intro n hn hConcluded
  obtain ⟨hMem, hInner, hKind⟩ := concluded_facts hn hConcluded
  have hAside : ¬Aside r n.ann.id := by
    rintro (hNot | ⟨u, hu, hCarries⟩)
    · exact hNot ⟨n, hMem, hInner, rfl⟩
    · exact hr.not_carries hu (hKind.imp_right fun hParam => ⟨hMem, hParam⟩) hCarries
  obtain ⟨hOpen, hClosed⟩ := hp n hn hConcluded
  obtain hSame | ⟨m, hm, hId, hTouch⟩ := h.touch hAside
  · rw [hSame.done]
    exact ⟨fun hDone => hSame.kept.blank (hOpen hDone),
      fun hDone => hSame.kept.answered (hClosed hDone)⟩
  obtain rfl := hr.eq_of_target hm hMem hInner hId
  obtain ⟨t, hDone, -, rfl⟩ | ⟨old, t, hOld, rfl⟩ := hTouch
  · refine ⟨fun hNot => absurd ?_ hNot, fun _ => ?_⟩
    · rw [Stage.done_close]
      exact List.mem_cons_self
    obtain ⟨hType, hReported, hErrors⟩ := hOpen hDone
    cases t with
    | some t =>
      refine .inl ⟨?_, ?_⟩
      · rw [Stage.close, Stage.note, Store.typeOf?_setType_self]
        rfl
      · obtain hEq | ⟨-, -, hNone, -⟩ := p.conclude_eq m (some t)
        · rw [Stage.close, hEq]
          exact hErrors
        · cases hNone
    | none =>
      have hEq : p.conclude m none = p.report .notInferable m := by
        obtain ⟨hInferable, hBefore⟩ := hConcluded
        cases m with
        | «attribute» | param | signature => rfl
        | value v => cases v <;> first | exact absurd trivial hBefore | exact hInferable.elim
        | _ => exact hInferable.elim
      refine .inr ⟨?_, ?_⟩
      · rw [Stage.close, hEq]
        exact (congrArg (Store.typeOf? · _) (p.store_report _ m)).trans hType
      · have hOne := p.errorsOn_report hReported .notInferable
        rw [hErrors, List.nil_append] at hOne
        rw [Stage.close, hEq]
        exact hOne
  · have hKept := Stage.kept_widen hOld t
    rw [Stage.progress_widen]
    exact ⟨fun hDone => hKept.blank (hOpen hDone), fun hDone => hKept.answered (hClosed hDone)⟩

theorem Occurs.answered (hr : r.Sane) {m : Meta} {mode : Mode} {name : Text} {s : Spec}
    {v : Value Meta} (h : Occurs r (.bind m mode name s v) (Aside r) p p') (hp : p.Blank m.id) :
    p'.Answered (.value (.bind m mode name s v)) := by
  obtain ⟨q, t, q', hFirst, hRuns, hFair, ⟨u, hu, hMem⟩, hLast⟩ := h
  have hRoot := Node.nodes_subset (Root.mem_nodes_of_units hu.unit) hMem
  have hPasses : (Node.value (.bind m mode name s v)).Passes m.id :=
    Node.passes_self (n := .value (.bind m mode name s v)) trivial
  have hKept {P : Nat → Prop} {p p' : Stage} (h : Steps P r.Target p p') (hm : ¬P m.id) :
      Kept m.id p p' := by
    refine h.kept hm fun n hn hId => .inl ?_
    rw [hr.eq_of_target hn hRoot trivial hId]
    trivial
  have hq := (hKept hFirst fun hi => hi.2 hPasses).blank hp
  refine Kept.answered (n := .value (.bind m mode name s v)) (hKept hLast fun hi => hi.2 hPasses) ?_
  cases hRuns with
  | value h =>
    cases h with
    | literal hName => exact nomatch hName
    | @bind _ _ _ _ _ _ q₁ t h =>
      have hChild : Node.value v ∈ (Node.value (.bind m mode name s v)).children := by
        simp [Node.children]
      have hTrip := h.trip hr hFair ⟨u, hu, Node.mem_nodes_of_child hMem hChild⟩
      have hBlank : q₁.Blank m.id := by
        refine (hKept hTrip.steps fun hi => ?_).blank hq
        obtain hi | hi | hi := hi
        · exact Node.id_notMem_of_child (hr.ids_nodup hu.unit hMem) hChild hi.mem_ids
        · exact hi ⟨_, hRoot, trivial, rfl⟩
        · exact hi.1 (hu.closed (.inl (hPasses.mono hMem)))
      cases written s t with
      | some t =>
        refine .inl ⟨?_, hBlank.errors⟩
        exact congrArg Option.isSome (Store.typeOf?_setType_self _ _ _)
      | none =>
        have hOne := q₁.errorsOn_report (n := .value (.bind m mode name s v)) hBlank.reported
          .notInferable
        refine .inr ⟨?_, ?_⟩
        · exact (congrArg (Store.typeOf? · m.id) (q₁.store_report _ _)).trans hBlank.type
        · exact hOne.trans (congrArg (· ++ [Diagnostic.ofNode _ _]) hBlank.errors)

end Infer

/-- A node that stands in an attribute or method, or in a signature. -/
def Node.Deep : Node Meta → Prop
  | .root _ => False
  | .use _ => False
  | .top _ => False
  | .attribute _ => False
  | .method _ => False
  | _ => True

theorem Node.deep_child {k : Node Meta} (hk : k ∈ n.children)
    (hn : n.Deep ∨ (∃ a, n = .attribute a) ∨ ∃ m, n = .method m) : k.Deep := by
  unfold children at hk
  split at hk <;> simp only [List.mem_append, List.mem_map, List.mem_cons, List.not_mem_nil, or_false,
    Option.mem_toList] at hk <;> grind [Node.Deep]

theorem Node.Deep.of_mem {k : Node Meta} (hn : n.Deep) (hk : k ∈ n.nodes) : k.Deep := by
  have hAll (n : Node Meta) : n.Deep → n.All Node.Deep := by
    induction n using induct with
    | _ n ih => exact fun hn => all_iff.2 ⟨hn, fun j hj => ih j hj (deep_child hj (.inl hn))⟩
  exact hAll n hn k hk

namespace Root

variable {r : Root Meta} {n : Node Meta}

theorem exists_unit (hn : n ∈ (Node.root r).nodes) (h : n.Inner) : ∃ u ∈ r.units, n ∈ u.nodes := by
  rw [Node.nodes_eq, List.mem_cons, List.mem_flatMap] at hn
  obtain rfl | ⟨k, hk, hn⟩ := hn
  · exact h.elim
  simp only [Node.children, List.mem_append, List.mem_map, List.mem_singleton] at hk
  obtain ⟨u, _, rfl⟩ | rfl := hk
  · rw [Node.nodes_eq, Node.children, List.flatMap_nil, List.mem_singleton] at hn
    exact (hn ▸ h).elim
  rw [Node.nodes_eq, List.mem_cons, List.mem_flatMap] at hn
  obtain rfl | ⟨k, hk, hn⟩ := hn
  · exact h.elim
  have hBare (hk : (∃ q, k = .typeParam q) ∨ ∃ s, k = .spec s) : False := by
    obtain ⟨q, rfl⟩ | ⟨s, rfl⟩ := hk
    · rw [Node.nodes_eq, Node.children, List.flatMap_nil, List.mem_singleton] at hn
      subst hn
      exact h
    · obtain ⟨s', rfl⟩ := Node.spec_of_mem_nodes hn
      exact h
  refine ⟨k, ?_, hn⟩
  unfold units
  cases hTop : r.top <;> rw [hTop] at hk <;>
    simp only [Node.children, List.mem_append, List.mem_map, List.mem_singleton] at hk ⊢ <;> grind

theorem mem_units (hn : n ∈ (Node.root r).nodes)
    (h : (∃ a, n = .attribute a) ∨ ∃ m, n = .method m) : n ∈ r.units := by
  obtain ⟨u, hu, hMem⟩ := exists_unit hn (by obtain ⟨_, rfl⟩ | ⟨_, rfl⟩ := h <;> trivial)
  rw [Node.nodes_eq, List.mem_cons, List.mem_flatMap] at hMem
  obtain rfl | ⟨k, hk, hMem⟩ := hMem
  · exact hu
  · have hDeep : k.Deep := by
      refine Node.deep_child hk ?_
      obtain ⟨a, rfl⟩ | ⟨m, rfl⟩ | ⟨⟨s, rfl⟩, _⟩ := units_cases hu
      · exact .inr (.inl ⟨a, rfl⟩)
      · exact .inr (.inr ⟨m, rfl⟩)
      · exact .inl trivial
    have hn := hDeep.of_mem hMem
    obtain ⟨_, rfl⟩ | ⟨_, rfl⟩ := h <;> exact hn.elim

/-- A declaration of a source whose type may be left to inference: an attribute, a variable, a
parameter, or a signature of a type. -/
def Infers (r : Root Meta) (n : Node Meta) : Prop :=
  n ∈ (Node.root r).nodes ∧ n.Inferable ∧ ∀ s, n = .signature s → n ∈ r.units

theorem Infers.inner (h : r.Infers n) : n.Inner := by
  obtain ⟨_, hInferable, _⟩ := h
  cases n with
  | «attribute» | param | signature | value => trivial
  | _ => exact hInferable.elim

theorem infers_of_target (hn : n ∈ (Node.root r).nodes) (hInferable : n.Inferable)
    (hTarget : r.Target n) : r.Infers n := by
  refine ⟨hn, hInferable, fun s hs => ?_⟩
  subst hs
  obtain hOther | hUnit | ⟨_, hLocal⟩ := hTarget
  · exact absurd ⟨_, hn, trivial, rfl⟩ hOther.1
  · exact hUnit
  · exact hLocal.elim

end Root

namespace Infer

variable {r : Root Meta} {p p' : Stage}

theorem Tour.answered (hr : r.Sane) (h : Tour r p p') (hp : ∀ i, r.Inner i → p.Blank i)
    (hNew : ∀ i, r.Inner i → i ∉ p.progress.done) (hn : r.Infers n) : p'.Answered n := by
  have hInner := hn.inner
  obtain ⟨hMem, hInferable, hSign⟩ := hn
  have hAccounts : p'.Accounts r := by
    refine h.steps.keep (I := fun p => p.Accounts r) (Stage.Step.accounts hr) fun n hn hConcluded => ?_
    obtain ⟨hMem, hInner, _⟩ := concluded_facts hn hConcluded
    exact ⟨fun _ => hp _ ⟨n, hMem, hInner, rfl⟩,
      fun hDone => absurd hDone (hNew _ ⟨n, hMem, hInner, rfl⟩)⟩
  obtain ⟨u, hu, hUnit⟩ := Root.exists_unit hMem hInner
  cases n with
  | «attribute» a =>
    have hDeclares := Root.mem_units hMem (.inl ⟨a, rfl⟩)
    exact (hAccounts _ (.inl hDeclares) ⟨trivial, id⟩).2 (h.done _ hDeclares)
  | signature s =>
    exact (hAccounts _ (.inl (hSign s rfl)) ⟨trivial, id⟩).2 (h.done _ (hSign s rfl))
  | param q =>
    exact (hAccounts _ (.inr ⟨hMem, trivial⟩) ⟨trivial, id⟩).2 (h.cover u hu _ hUnit)
  | value v =>
    cases v with
    | bind m mode name s v => exact Occurs.answered hr (h.cover u hu _ hUnit) (hp _ ⟨_, hMem, trivial, rfl⟩)
    | _ => exact hInferable.elim
  | _ => exact hInferable.elim

end Infer

end Assay
