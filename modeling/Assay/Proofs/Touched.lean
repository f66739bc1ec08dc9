import Mathlib
import Assay.Proofs.Retyped

/-! What inference touches. A run of inference is a chain of small steps, each of which changes what is
known of one node. If neither the part that is typed nor anything that references mean has to do with
some nodes, no step has. -/

namespace Assay

def Node.Inferable : Node Meta → Prop
  | .attribute _ => True
  | .param _ => True
  | .signature _ => True
  | .value (.bind ..) => True
  | _ => False

/-- The number of a node satisfies `P`, and so do those of all that is typed with it. -/
def Node.Within (P : Nat → Prop) (n : Node Meta) : Prop :=
  P n.ann.id ∧ (n.IsType ∨ n.All (P ·.ann.id))

namespace Infer

/-- What inference may report of a node. -/
inductive Reportable : Problem → Node Meta → Prop where
  | notInferable {n : Node Meta} (h : n.Inferable) : Reportable .notInferable n
  | noAlternatives (ref : Reference Meta) : Reportable .noAlternatives (.reference ref)
  | tooManyAlternatives (count : Nat) (ref : Reference Meta) :
    Reportable (.tooManyAlternatives count) (.reference ref)

namespace Stage

variable {P P' : Nat → Prop} {Q Q' : Node Meta → Prop} {R : Nat → Node Meta → Prop} {p p' p'' : Stage}

/-- A small step of inference. It has to do with a node whose number satisfies `P`, or it is one of
those that a reference can cause, and has to do with a declaration that satisfies `Q`. So does one
that is reported since its type is not known. -/
inductive Step (P : Nat → Prop) (Q : Node Meta → Prop) (p : Stage) : Stage → Prop where
  | note {id : Nat} (h : P id) (t : Option Spec) : Step P Q p (p.note id t)
  | narrow {id : Nat} {symbols : List Symbol} {symbol : Symbol} (h : P id)
    (hRefs : p.store.refsOf? id = some symbols) (hs : symbol ∈ symbols) :
    Step P Q p (p.narrow id symbol)
  | report {problem : Problem} {n : Node Meta} (h : P n.ann.id) (hn : Reportable problem n)
    (hOn : problem = .notInferable → Q n) : Step P Q p (p.report problem n)
  | grow {next : Nat} (h : p.store.next ≤ next) :
    Step P Q p { p with store := { p.store with next } }
  | finish {id : Nat} (h : P id) : Step P Q p (p.finish id)
  | enter {id : Nat} (h : P id) : Step P Q p (p.enter id)
  | leave {id : Nat} (h : P id) : Step P Q p (p.leave id)
  | start {n : Node Meta} (h : Q n) : Step P Q p (p.enter n.ann.id)
  | close {n : Node Meta} {t : Option Spec} (h : Q n) (hDone : n.ann.id ∉ p.progress.done)
    (hBefore : n.TypedBefore → t = p.store.typeOf? n.ann.id) : Step P Q p (p.close n t)
  | widen {n : Node Meta} {old : Spec} (h : Q n) (hOld : p.store.typeOf? n.ann.id = some old)
    (t : Spec) : Step P Q p (p.widen n t (some old))

theorem Step.mono (h : Step P Q p p') (hP : ∀ i, P i → P' i) (hQ : ∀ n, Q n → Q' n) :
    Step P' Q' p p' := by
  cases h with
  | note h t => exact .note (hP _ h) t
  | narrow h hRefs hs => exact .narrow (hP _ h) hRefs hs
  | report h hn hOn => exact .report (hP _ h) hn fun hEq => hQ _ (hOn hEq)
  | grow h => exact .grow h
  | finish h => exact .finish (hP _ h)
  | enter h => exact .enter (hP _ h)
  | leave h => exact .leave (hP _ h)
  | start h => exact .start (hQ _ h)
  | close h hDone hBefore => exact .close (hQ _ h) hDone hBefore
  | widen h hOld t => exact .widen (hQ _ h) hOld t

def Steps (P : Nat → Prop) (Q : Node Meta → Prop) : Stage → Stage → Prop :=
  Relation.ReflTransGen (Step P Q)

theorem Steps.refl (p : Stage) : Steps P Q p p := Relation.ReflTransGen.refl

theorem Steps.trans (h : Steps P Q p p') (h' : Steps P Q p' p'') : Steps P Q p p'' :=
  Relation.ReflTransGen.trans h h'

theorem Steps.tail (h : Steps P Q p p') (h' : Step P Q p' p'') : Steps P Q p p'' :=
  Relation.ReflTransGen.tail h h'

theorem Step.steps (h : Step P Q p p') : Steps P Q p p' := Relation.ReflTransGen.single h

theorem Steps.mono (h : Steps P Q p p') (hP : ∀ i, P i → P' i) (hQ : ∀ n, Q n → Q' n) :
    Steps P' Q' p p' := by
  induction h with
  | refl => exact .refl p
  | tail _ h ih => exact ih.tail (h.mono hP hQ)

theorem Steps.keep {I : Stage → Prop} (hStep : ∀ {p p'}, Step P Q p p' → I p → I p')
    (h : Steps P Q p p') (hI : I p) : I p' := by
  induction h with
  | refl => exact hI
  | tail _ h ih => exact hStep h ih

theorem Steps.lift {R : Stage → Stage → Prop} (hRefl : ∀ p, R p p)
    (hTrans : ∀ {p p' p''}, R p p' → R p' p'' → R p p'')
    (hStep : ∀ {p p'}, Step P Q p p' → R p p') (h : Steps P Q p p') : R p p' := by
  induction h with
  | refl => exact hRefl p
  | tail _ h ih => exact hTrans ih (hStep h)

/-- What the reference with a number means satisfies `R` together with the number. -/
def Targets (R : Nat → Node Meta → Prop) (p : Stage) : Prop :=
  ∀ i symbols, p.store.refsOf? i = some symbols → ∀ symbol ∈ symbols, ∀ n,
    p.store.decl? symbol = some n → R i n

@[simp] theorem refsOf?_note (p : Stage) (id : Nat) (t : Option Spec) (i : Nat) :
    (p.note id t).store.refsOf? i = p.store.refsOf? i := by
  cases t <;> rfl

@[simp] theorem tops_note (p : Stage) (id : Nat) (t : Option Spec) :
    (p.note id t).store.tops = p.store.tops := by
  cases t <;> rfl

@[simp] theorem table_note (p : Stage) (id : Nat) (t : Option Spec) :
    (p.note id t).store.table = p.store.table := by
  cases t <;> rfl

@[simp] theorem links_note (p : Stage) (id : Nat) (t : Option Spec) :
    (p.note id t).store.links = p.store.links := by
  cases t <;> rfl

@[simp] theorem next_note (p : Stage) (id : Nat) (t : Option Spec) :
    (p.note id t).store.next = p.store.next := by
  cases t <;> rfl

@[simp] theorem progress_note (p : Stage) (id : Nat) (t : Option Spec) :
    (p.note id t).progress = p.progress := by
  cases t <;> rfl

@[simp] theorem store_report (p : Stage) (problem : Problem) (n : Node Meta) :
    (p.report problem n).store = p.store := by
  unfold report
  split <;> rfl

theorem decl?_congr {st st' : Store} (h : st'.tops = st.tops) (symbol : Symbol) :
    st'.decl? symbol = st.decl? symbol := by
  cases symbol with
  | type name origin =>
    cases origin with
    | declared id => simp only [Store.decl?, Store.top?, h]
    | _ => rfl
  | _ => rfl

/-- What only moves on in the course of inference: references may come to mean fewer symbols. -/
structure Later (p p' : Stage) : Prop where
  table : p'.store.table = p.store.table
  tops : p'.store.tops = p.store.tops
  links : p'.store.links = p.store.links
  next : p.store.next ≤ p'.store.next
  done : p.progress.done ⊆ p'.progress.done
  errors : p.progress.errors <+: p'.progress.errors
  refs : ∀ i, p'.store.refsOf? i = p.store.refsOf? i ∨ ∃ symbols, ∃ symbol ∈ symbols,
    p.store.refsOf? i = some symbols ∧ p'.store.refsOf? i = some [symbol]

namespace Later

theorem refl (p : Stage) : Later p p :=
  ⟨rfl, rfl, rfl, Nat.le_refl _, fun _ => id, List.prefix_refl _, fun _ => .inl rfl⟩

theorem trans (h : Later p p') (h' : Later p' p'') : Later p p'' where
  table := h'.table.trans h.table
  tops := h'.tops.trans h.tops
  links := h'.links.trans h.links
  next := h.next.trans h'.next
  done _ hi := h'.done (h.done hi)
  errors := h.errors.trans h'.errors
  refs i := by
    obtain hSame | ⟨symbols, symbol, hs, hOld, hNew⟩ := h.refs i
    · rw [← hSame]
      exact h'.refs i
    · refine .inr ⟨symbols, symbol, hs, hOld, ?_⟩
      obtain hSame | ⟨symbols', symbol', hs', hOld', hNew'⟩ := h'.refs i
      · rw [hSame, hNew]
      · rw [hNew] at hOld'
        obtain rfl := Option.some.inj hOld'
        rw [hNew', List.mem_singleton.1 hs']

theorem decl? (h : Later p p') (symbol : Symbol) :
    p'.store.decl? symbol = p.store.decl? symbol :=
  decl?_congr h.tops symbol

theorem single (h : Later p p') {i : Nat} {symbol : Symbol}
    (hRefs : p.store.refsOf? i = some [symbol]) : p'.store.refsOf? i = some [symbol] := by
  obtain hSame | ⟨symbols, symbol', hs, hOld, hNew⟩ := h.refs i
  · rw [hSame, hRefs]
  · rw [hRefs] at hOld
    obtain rfl := Option.some.inj hOld
    rw [hNew, List.mem_singleton.1 hs]

theorem targets (h : Later p p') (hTargets : p.Targets R) : p'.Targets R := by
  intro i symbols hRefs symbol hs n hn
  rw [h.decl?] at hn
  obtain hSame | ⟨old, symbol', hs', hOld, hNew⟩ := h.refs i
  · exact hTargets i symbols (hSame ▸ hRefs) symbol hs n hn
  · rw [hNew] at hRefs
    obtain rfl := Option.some.inj hRefs
    exact hTargets i old hOld symbol (List.mem_singleton.1 hs ▸ hs') n hn

end Later

theorem Later.note (p : Stage) (id : Nat) (t : Option Spec) : Later p (p.note id t) :=
  ⟨by simp, by simp, by simp, by simp, by simp, by simp, by simp⟩

theorem Later.report (p : Stage) (problem : Problem) (n : Node Meta) :
    Later p (p.report problem n) := by
  unfold Stage.report
  split
  · exact .refl p
  · exact ⟨rfl, rfl, rfl, Nat.le_refl _, fun _ => id, List.prefix_append _ _, fun _ => .inl rfl⟩

theorem Later.leave (p : Stage) (id : Nat) : Later p (p.leave id) :=
  ⟨rfl, rfl, rfl, Nat.le_refl _, fun _ hi => List.mem_cons_of_mem _ hi, List.prefix_refl _,
    fun _ => .inl rfl⟩

theorem conclude_eq (p : Stage) (n : Node Meta) (t : Option Spec) :
    p.conclude n t = p ∨ n.Inferable ∧ ¬n.TypedBefore ∧ t = none ∧
      p.conclude n t = p.report .notInferable n := by
  cases t with
  | none =>
    cases n with
    | «attribute» | param | signature => exact .inr ⟨trivial, id, rfl, rfl⟩
    | _ => exact .inl rfl
  | some t => cases n <;> exact .inl rfl

theorem Later.close (p : Stage) (n : Node Meta) (t : Option Spec) : Later p (p.close n t) := by
  have hConclude : Later p (p.conclude n t) := by
    obtain hEq | ⟨-, -, -, hEq⟩ := p.conclude_eq n t
    · rw [hEq]
      exact .refl p
    · rw [hEq]
      exact .report p _ n
  exact (hConclude.trans (.leave _ _)).trans (.note _ _ _)

theorem Later.fresh_oneOf (p : Stage) (types : List Spec) : Later p (p.fresh (oneOf types)).2 :=
  ⟨rfl, rfl, rfl, (inter_gives types _).1, fun _ => id, List.prefix_refl _, fun _ => .inl rfl⟩

theorem Step.later (h : Step P Q p p') : Later p p' := by
  cases h with
  | note => exact .note p _ _
  | @narrow id symbols symbol _ hRefs hs =>
    refine ⟨rfl, rfl, rfl, Nat.le_refl _, fun _ h => h, List.prefix_refl _, fun i => ?_⟩
    by_cases hi : i = id
    · subst hi
      exact .inr ⟨symbols, symbol, hs, hRefs, Store.refsOf?_setRefs_self ..⟩
    · exact .inl (Store.refsOf?_setRefs_of_ne _ _ hi)
  | report => exact .report p _ _
  | grow h => exact ⟨rfl, rfl, rfl, h, fun _ => id, List.prefix_refl _, fun _ => .inl rfl⟩
  | finish | leave =>
    exact ⟨rfl, rfl, rfl, Nat.le_refl _, fun _ hi => List.mem_cons_of_mem _ hi, List.prefix_refl _,
      fun _ => .inl rfl⟩
  | enter | start =>
    exact ⟨rfl, rfl, rfl, Nat.le_refl _, fun _ => id, List.prefix_refl _, fun _ => .inl rfl⟩
  | close => exact .close p _ _
  | @widen n old _ _ t => exact (Later.fresh_oneOf p [old, t]).trans (.note _ _ (some _))

theorem Steps.later (h : Steps P Q p p') : Later p p' := h.lift .refl .trans Step.later

theorem target?_mem {ref : Reference Meta} {n : Node Meta} (h : p.target? ref = some n) :
    ∃ symbol, p.store.refsOf? ref.ann.id = some [symbol] ∧ p.store.decl? symbol = some n := by
  unfold target? at h
  split at h
  · rename_i symbol hRefs
    exact ⟨symbol, hRefs, h⟩
  · cases h

theorem Targets.target? (h : p.Targets R) {ref : Reference Meta} {n : Node Meta}
    (hn : p.target? ref = some n) : R ref.ann.id n := by
  obtain ⟨symbol, hRefs, hDecl⟩ := target?_mem hn
  exact h _ _ hRefs symbol (List.mem_singleton_self _) n hDecl

theorem fresh_named_step (p : Stage) (name : Text) : Step P Q p (p.fresh (named name)).2 :=
  .grow (Nat.le_succ _)

theorem fresh_oneOf_step (p : Stage) (types : List Spec) : Step P Q p (p.fresh (oneOf types)).2 :=
  .grow (inter_gives types _).1

theorem needed_steps {n : Node Meta} (h : P n.ann.id) (hQ : Q n) (hn : n.Inferable) (t : Option Spec) :
    Steps P Q p (p.needed n t) := by
  cases t with
  | none => exact (Step.report h (.notInferable hn) fun _ => hQ).steps
  | some t => exact .refl p

theorem widen_steps {n : Node Meta} (h : P n.ann.id) (t : Spec) (old : Option Spec) :
    Steps P Q p (p.widen n t old) := by
  cases old with
  | none => exact .refl p
  | some old => exact (fresh_oneOf_step p [old, t]).steps.tail (.note h (some _))

theorem close_steps {n : Node Meta} (h : P n.ann.id) (hQ : Q n) (t : Option Spec) :
    Steps P Q p (p.close n t) := by
  have hConclude : Steps P Q p (p.conclude n t) := by
    obtain hEq | ⟨hn, -, -, hEq⟩ := p.conclude_eq n t
    · rw [hEq]
      exact .refl p
    · rw [hEq]
      exact (Step.report h (.notInferable hn) fun _ => hQ).steps
  exact (hConclude.tail (.leave h)).tail (.note h t)

end Stage

/-- The numbers of all that is typed with a part satisfy `P`. -/
def Part.Within (P : Nat → Prop) : Part → Prop
  | .value v => (Node.value v).All (P ·.ann.id)
  | .content v => (Node.value v).All (P ·.ann.id)
  | .values vs => ∀ v ∈ vs, (Node.value v).All (P ·.ann.id)
  | .statement s => (Node.statement s).All (P ·.ann.id)
  | .statements ss => ∀ s ∈ ss, (Node.statement s).All (P ·.ann.id)
  | .rest _ ss => ∀ s ∈ ss, (Node.statement s).All (P ·.ann.id)
  | .params ps => ∀ q ∈ ps, (Node.param q).All (P ·.ann.id)
  | .decl n => n.Within P
  | .declaration n => n.Within P

open Stage (Step Steps)

variable {P : Nat → Prop} {Q : Node Meta → Prop}

theorem mem_of_matching_one {ts : List (Option Spec)} {st : Store} {symbols : List Symbol}
    {found : List Candidate}
    (h : Candidate.matching ts (Candidate.ofSymbols st symbols) = .ok found) {c : Candidate}
    (hc : c ∈ found) : c.symbol ∈ symbols ∧ st.decl? c.symbol = some c.node ∧
      ∃ text, c.node.arity? = some (text, ts.length) := by
  have hEnds : Ends (fun _ => True) _ (Candidate.matching ts (Candidate.ofSymbols st symbols)) :=
    matching_spec fun _ _ _ => trivial
  rw [h] at hEnds
  obtain ⟨hMem, hLength⟩ := hEnds c hc
  exact hLength ▸ mem_ofSymbols hMem

theorem Node.Within.all {n : Node Meta} (h : n.Within P) (hn : ¬n.IsType) : n.All (P ·.ann.id) :=
  h.2.resolve_left hn

/-- A part that is typed touches only nodes whose numbers satisfy `P`, if it has none but these, and
what references mean has none but these. -/
theorem Runs.steps {a : Part} {p p' : Stage} {ts : List (Option Spec)} (h : Runs a p ts p')
    (hQ : ∀ n, n.Within P → Q n) (ha : a.Within P) (hp : p.Targets fun i n => P i → n.Within P) :
    Steps P Q p p' := by
  induction h with
  | value h ih => exact (ih ha hp).tail (.note ha.self _)
  | literal => exact (Stage.fresh_named_step _ _).steps
  | unknownIdent => exact .refl _
  | @ident m ref n p p' t hTarget h ih =>
    have hRef : P ref.ann.id := (ha.child (k := .reference ref) (by simp [Node.children])).self
    exact (ih (hp.target? hTarget hRef) hp).tail (.note hRef _)
  | bind h ih =>
    have hValue := ih (ha.child (by simp [Node.children])) hp
    have hOn : Q (.value (.bind _ _ _ _ _)) := hQ _ ⟨ha.self, .inr ha⟩
    exact (hValue.trans (Stage.needed_steps ha.self hOn trivial _)).tail (.finish ha.self)
  | assignUnknown h _ ih => exact ih (ha.child (by simp [Node.children])) hp
  | @assign m ref v n p p₁ p₂ t old h hTarget hDecl ih ihDecl =>
    have hRef : P ref.ann.id := (ha.child (k := .reference ref) (by simp [Node.children])).self
    have hValue := ih (ha.child (by simp [Node.children])) hp
    have hp₁ := hValue.later.targets hp
    have hn := hp₁.target? hTarget hRef
    exact (hValue.trans (ihDecl hn hp₁)).trans (Stage.widen_steps hn.1 _ _)
  | assignMember hReceiver h ihReceiver ih =>
    have hFirst := ihReceiver (ha.child (by simp [Node.children])) hp
    exact hFirst.trans (ih (ha.child (by simp [Node.children])) (hFirst.later.targets hp))
  | unknownCall hArgs _ ih => exact ih (fun v hv => ha.child (by simp [Node.children, hv])) hp
  | refusedCall hArgs _ _ ih =>
    exact (ih (fun v hv => ha.child (by simp [Node.children, hv])) hp).tail
      (.report (ha.child (by simp [Node.children])).self (.noAlternatives _) nofun)
  | ambiguousCall hArgs _ _ _ ih =>
    exact (ih (fun v hv => ha.child (by simp [Node.children, hv])) hp).tail
      (.report (ha.child (by simp [Node.children])).self (.tooManyAlternatives _ _) nofun)
  | @call m ref types args p p₁ p₂ ts symbols one t hArgs hRefs hMatching hDecl ihArgs ihDecl =>
    have hRef : P ref.ann.id := (ha.child (k := .reference ref) (by simp [Node.children])).self
    have hArgs := ihArgs (fun v hv => ha.child (by simp [Node.children, hv])) hp
    have hp₁ := hArgs.later.targets hp
    obtain ⟨hs, hNode, -⟩ := mem_of_matching_one hMatching (List.mem_singleton_self one)
    have hNarrow : Step P Q p₁ (p₁.narrow ref.ann.id one.symbol) := .narrow hRef hRefs hs
    have hCall := ihDecl (hp₁ _ _ hRefs _ hs _ hNode hRef) (hNarrow.later.targets hp₁)
    exact ((hArgs.tail hNarrow).trans hCall).tail (.note hRef _)
  | nested hOuter hInner ihOuter ihInner =>
    have hFirst := ihOuter (ha.child (by simp [Node.children])) hp
    exact hFirst.trans (ihInner (ha.child (by simp [Node.children])) (hFirst.later.targets hp))
  | function hParams hBody ihParams ihBody =>
    have hFirst := ihParams (fun q hq => ha.child (by simp [Node.children, hq])) hp
    have hThen := ihBody (fun s hs => ha.child (by simp [Node.children, hs])) (hFirst.later.targets hp)
    exact (hFirst.trans hThen).tail (Stage.fresh_named_step _ _)
  | noValues => exact .refl _
  | values h hRest ih ihRest =>
    have hFirst := ih (ha _ List.mem_cons_self) hp
    exact hFirst.trans (ihRest (fun v hv => ha v (List.mem_cons_of_mem _ hv))
      (hFirst.later.targets hp))
  | statement h ih =>
    exact (ih (ha.child (by simp [Node.children])) hp).tail (.note (P := P) ha.self _)
  | noStatements => exact (Stage.fresh_named_step _ _).steps
  | statements h ih => exact ih ha hp
  | oneLast => exact .refl _
  | severalLast => exact (Stage.fresh_oneOf_step _ _).steps
  | unknownLast h _ ih => exact ih (ha _ List.mem_cons_self) hp
  | knownLast h hRest ih ihRest =>
    have hFirst := ih (ha _ List.mem_cons_self) hp
    exact hFirst.trans (ihRest (fun s hs => ha s (List.mem_cons_of_mem _ hs))
      (hFirst.later.targets hp))
  | rest h hRest ih ihRest =>
    have hFirst := ih (ha _ List.mem_cons_self) hp
    exact hFirst.trans (ihRest (fun s hs => ha s (List.mem_cons_of_mem _ hs))
      (hFirst.later.targets hp))
  | noParams => exact .refl _
  | @params q qs p p₁ p₂ t h hRest ih ihRest =>
    have hq := ha q List.mem_cons_self
    have hFirst := ih ⟨hq.self, .inr hq⟩ hp
    exact hFirst.trans (ihRest (fun s hs => ha s (List.mem_cons_of_mem _ hs))
      (hFirst.later.targets hp))
  | known => exact .refl _
  | @decl n p p' t _ _ h ih =>
    have hEnter : Step P Q p (p.enter n.ann.id) := .enter ha.1
    exact (hEnter.steps.trans (ih ha (hEnter.later.targets hp))).trans 
      (Stage.close_steps ha.1 (hQ n ha) t)
  | «attribute» hValue h ih =>
    have hAll := Node.Within.all ha id
    exact ih (hAll.child (by simp [Node.children, hValue])) hp
  | bareAttribute => exact .refl _
  | param => exact .refl _
  | @method m p p₁ p₂ t hParams hBody ihParams ihBody =>
    have hAll := Node.Within.all ha id
    have hSign : (Node.signature m.signature).All (P ·.ann.id) :=
      hAll.child (by simp [Node.children])
    have hFirst := ihParams (fun q hq => hSign.child (by simp [Node.children, hq])) hp
    have hThen := ihBody (fun s hs => hAll.child (by simp [Node.children, hs]))
      (hFirst.later.targets hp)
    exact (hFirst.trans hThen).tail (.note hSign.self _)
  | signature hParams ih =>
    have hAll := Node.Within.all ha id
    exact ih (fun q hq => hAll.child (by simp [Node.children, hq])) hp
  | typeParam => exact (Stage.fresh_named_step _ _).steps
  | typed => exact .refl _
  | untyped => exact .refl _

theorem Runs.any_steps {a : Part} {p p' : Stage} {ts : List (Option Spec)} (h : Runs a p ts p') :
    Steps (fun _ => True) (fun _ => True) p p' := by
  have hAny (n : Node Meta) : n.Within fun _ => True := ⟨trivial, .inr fun _ _ => trivial⟩
  refine h.steps (P := fun _ => True) (Q := fun _ => True) (fun _ _ => trivial) ?_
    fun _ _ _ _ _ n _ _ => hAny n
  cases a with
  | decl n | declaration n => exact hAny n
  | value | content | statement => exact fun _ _ => trivial
  | _ => exact fun _ _ _ _ => trivial

theorem Runs.later {a : Part} {p p' : Stage} {ts : List (Option Spec)} (h : Runs a p ts p') :
    Stage.Later p p' :=
  h.any_steps.later

theorem RunsEach.any_steps {ns : List (Node Meta)} {p p' : Stage} (h : RunsEach ns p p') :
    Steps (fun _ => True) (fun _ => True) p p' := by
  induction h with
  | nil => exact .refl _
  | cons h _ ih => exact h.any_steps.trans ih

theorem Stage.begin_steps (p : Stage) (r : Root Meta) (h : P r.top.ann.id) :
    Stage.Steps P Q p (p.begin r) := by
  unfold Stage.begin
  split
  · exact .refl p
  · rename_i d hTop
    have hId : P d.ann.id := by
      rw [hTop] at h
      exact h
    have hOwn := (Stage.fresh_named_step (P := P) (Q := Q) p r.fullName).steps
    exact ((hOwn.tail (.grow (newMeta_gives _).1)).tail (.note hId (some _))).tail (.finish hId)

/-- What a step reports is about types. -/
theorem Stage.Step.ofTypes {p p' : Stage} (h : Step P Q p p')
    (hp : ∀ e ∈ p.progress.errors, e.OfTypes) : ∀ e ∈ p'.progress.errors, e.OfTypes := by
  have hReport {problem : Problem} {n : Node Meta} (hn : Reportable problem n) :
      ∀ e ∈ (p.report problem n).progress.errors, e.OfTypes := by
    have hOf : problem.OfTypes := by cases hn <;> trivial
    unfold Stage.report
    split
    · exact hp
    · exact List.forall_mem_append.2 ⟨hp, List.forall_mem_singleton.2 ⟨problem, n, rfl, hOf⟩⟩
  cases h with
  | note => simpa using hp
  | widen => simpa [Stage.widen, Stage.fresh] using hp
  | report _ hn => exact hReport hn
  | @close n t =>
    obtain hEq | ⟨hn, -, -, hEq⟩ := p.conclude_eq n t
    · simpa [Stage.close, Stage.leave, hEq] using hp
    · simpa [Stage.close, Stage.leave, hEq] using hReport (.notInferable hn)
  | _ => exact hp

end Infer

/-- Inference leaves the places of nodes and top-level declarations alone, and reports on types. -/
theorem Root.infer_quiet (r : Root Meta) (w : World) :
    Check.Leads r.infer w (fun _ _ => True) fun errors w' =>
      w.Quiet w' ∧ ∀ e ∈ errors, e.OfTypes := by
  refine (r.infer_follows w).mono (fun _ _ => id) ?_
  rintro _ w' ⟨-, p, hRuns, rfl, hSettles⟩
  have hSteps := (Infer.Stage.begin_steps (P := fun _ => True) (Q := fun _ => True)
    ⟨.start, w.store⟩ r trivial).trans hRuns.any_steps
  have hLater := hSteps.later
  refine ⟨⟨hLater.next.trans hSettles.next, hSettles.tops.trans hLater.tops,
    hSettles.links.trans hLater.links⟩, ?_⟩
  exact hSteps.keep (I := fun p => ∀ e ∈ p.progress.errors, e.OfTypes) (fun h => h.ofTypes)
    (by simp [Progress.start])

end Assay
