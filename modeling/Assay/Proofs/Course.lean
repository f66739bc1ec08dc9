import Mathlib
import Assay.Proofs.Sound

/-! The course of inference. What inference does is said once more by rules, one for each way that it
can go on, so that what holds of it can be proved along these rules. Each run of inference that ends
without a fault follows them. -/

namespace Assay

namespace Infer

/-- A stage in the course of inference: how far it has come in the source, and the store. -/
structure Stage where
  progress : Progress
  store : Store

namespace Stage

/-- What a step that numbers new nodes gives, and the stage after it. -/
def fresh {α : Type} (p : Stage) (step : Fresh α) : α × Stage :=
  ((step p.store.next).1, { p with store := { p.store with next := (step p.store.next).2 } })

/-- The stage after a node gets its type, if that is known. -/
def note (p : Stage) (id : Nat) : Option Spec → Stage
  | some t => { p with store := p.store.setType id t }
  | none => p

/-- The stage after a reference is found to stand for one symbol. -/
def narrow (p : Stage) (id : Nat) (symbol : Symbol) : Stage :=
  { p with store := p.store.setRefs id [symbol] }

def report (p : Stage) (problem : Problem) (n : Node Meta) : Stage :=
  if n.ann.id ∈ p.progress.reported then p
  else { p with progress := { p.progress with
    reported := n.ann.id :: p.progress.reported,
    errors := p.progress.errors ++ [.ofNode problem n] } }

/-- The stage after a node whose type is not known is reported. -/
def needed (p : Stage) (n : Node Meta) : Option Spec → Stage
  | some _ => p
  | none => p.report .notInferable n

def finish (p : Stage) (id : Nat) : Stage :=
  { p with progress := { p.progress with done := id :: p.progress.done } }

/-- The stage at which the typing of a declaration starts. -/
def enter (p : Stage) (id : Nat) : Stage :=
  { p with progress := { p.progress with visiting := id :: p.progress.visiting } }

def leave (p : Stage) (id : Nat) : Stage :=
  { p with progress := { p.progress with
    visiting := p.progress.visiting.filter (· ≠ id), done := id :: p.progress.done } }

/-- The stage after a declaration is typed from its parts: it is reported if its type is needed and
not known. -/
def conclude (p : Stage) (n : Node Meta) (t : Option Spec) : Stage :=
  match n with
  | .attribute _ => p.needed n t
  | .param _ => p.needed n t
  | .signature _ => p.needed n t
  | _ => p

/-- The stage after a declaration is typed, and gets its type. -/
def close (p : Stage) (n : Node Meta) (t : Option Spec) : Stage :=
  ((p.conclude n t).leave n.ann.id).note n.ann.id t

/-- The node that a reference means, if it is a single one. -/
def target? (p : Stage) (ref : Reference Meta) : Option (Node Meta) :=
  match p.store.refsOf? ref.ann.id with
  | some [symbol] => p.store.decl? symbol
  | _ => none

end Stage

def named (name : Text) : Fresh Spec := do return .simple (← newMeta) name []

def oneOf (types : List Spec) : Fresh Spec := do TypeSpec.flatten (.inter (← newMeta) types)

/-- The stage after a declaration, whose type was `old`, is widened. -/
def Stage.widen (p : Stage) (n : Node Meta) (t : Spec) : Option Spec → Stage
  | some old => (p.fresh (oneOf [old, t])).2.note n.ann.id (some (p.fresh (oneOf [old, t])).1)
  | none => p

end Infer

def Value.literal? : Value Meta → Option Text
  | .string .. => some "String"
  | .number .. => some "Number"
  | .boolean .. => some "Boolean"
  | .nothing _ => some "None"
  | _ => none

/-- A node that declares something and is typed by other steps than those for its declaration. -/
def Node.TypedBefore : Node Meta → Prop
  | .top (.ofClass _) => True
  | .value (.bind ..) => True
  | _ => False

namespace Infer

/-- What is typed. -/
inductive Part where
  | value (v : Value Meta)
  /-- A value, the type of which is not noted at its node yet. -/
  | content (v : Value Meta)
  | values (vs : List (Value Meta))
  | statement (s : Statement Meta)
  | statements (ss : List (Statement Meta))
  /-- The rest of a body, of which the given types of last statements are found. -/
  | rest (lasts : List Spec) (ss : List (Statement Meta))
  | params (ps : List (Param Meta))
  | decl (n : Node Meta)
  /-- A declaration, the typing of which has started, without its end. -/
  | declaration (n : Node Meta)

/-- The rules of inference: what a part of a source comes to at a stage, and the stage after it. -/
inductive Runs : Part → Stage → List (Option Spec) → Stage → Prop where
  | value {v : Value Meta} {p p' : Stage} {t : Option Spec} (h : Runs (.content v) p [t] p') :
    Runs (.value v) p [t] (p'.note v.ann.id t)
  | literal {v : Value Meta} {name : Text} {p : Stage} (hName : v.literal? = some name) :
    Runs (.content v) p [some (p.fresh (named (librarySpace ++ "." ++ name))).1]
      (p.fresh (named (librarySpace ++ "." ++ name))).2
  | unknownIdent {m : Meta} {ref : Reference Meta} {p : Stage} (hTarget : p.target? ref = none) :
    Runs (.content (.ident m ref)) p [none] p
  | ident {m : Meta} {ref : Reference Meta} {n : Node Meta} {p p' : Stage} {t : Option Spec}
    (hTarget : p.target? ref = some n) (h : Runs (.decl n) p [t] p') :
    Runs (.content (.ident m ref)) p [t] (p'.note ref.ann.id t)
  | bind {m : Meta} {mode : Mode} {name : Text} {s : Spec} {v : Value Meta} {p p' : Stage}
    {t : Option Spec} (h : Runs (.value v) p [t] p') :
    Runs (.content (.bind m mode name s v)) p [written s t]
      ((p'.needed (.value (.bind m mode name s v)) (written s t)).finish m.id)
  | assignUnknown {m : Meta} {ref : Reference Meta} {v : Value Meta} {p p' : Stage}
    {t : Option Spec} (h : Runs (.value v) p [t] p') (hNone : p'.target? ref = none ∨ t = none) :
    Runs (.content (.assign m ref v)) p [t] p'
  | assign {m : Meta} {ref : Reference Meta} {v : Value Meta} {n : Node Meta} {p p₁ p₂ : Stage}
    {t : Spec} {old : Option Spec} (h : Runs (.value v) p [some t] p₁)
    (hTarget : p₁.target? ref = some n) (hDecl : Runs (.decl n) p₁ [old] p₂) :
    Runs (.content (.assign m ref v)) p [some t] (p₂.widen n t old)
  | assignMember {m : Meta} {receiver v : Value Meta} {ref : Reference Meta} {p p₁ p₂ : Stage}
    {t₁ t : Option Spec} (hReceiver : Runs (.value receiver) p [t₁] p₁)
    (h : Runs (.value v) p₁ [t] p₂) : Runs (.content (.assignMember m receiver ref v)) p [t] p₂
  | unknownCall {m : Meta} {ref : Reference Meta} {types : List Spec} {args : List (Value Meta)}
    {p p₁ : Stage} {ts : List (Option Spec)} (hArgs : Runs (.values args) p ts p₁)
    (hRefs : p₁.store.refsOf? ref.ann.id = none) :
    Runs (.content (.call m ref types args)) p [none] p₁
  | refusedCall {m : Meta} {ref : Reference Meta} {types : List Spec} {args : List (Value Meta)}
    {p p₁ : Stage} {ts : List (Option Spec)} {symbols : List Symbol}
    (hArgs : Runs (.values args) p ts p₁) (hRefs : p₁.store.refsOf? ref.ann.id = some symbols)
    (hMatching : Candidate.matching ts (Candidate.ofSymbols p₁.store symbols) = .ok []) :
    Runs (.content (.call m ref types args)) p [none] (p₁.report .noAlternatives (.reference ref))
  | ambiguousCall {m : Meta} {ref : Reference Meta} {types : List Spec} {args : List (Value Meta)}
    {p p₁ : Stage} {ts : List (Option Spec)} {symbols : List Symbol} {several : List Candidate}
    (hArgs : Runs (.values args) p ts p₁) (hRefs : p₁.store.refsOf? ref.ann.id = some symbols)
    (hMatching : Candidate.matching ts (Candidate.ofSymbols p₁.store symbols) = .ok several)
    (hSeveral : 2 ≤ several.length) :
    Runs (.content (.call m ref types args)) p [none]
      (p₁.report (.tooManyAlternatives several.length) (.reference ref))
  | call {m : Meta} {ref : Reference Meta} {types : List Spec} {args : List (Value Meta)}
    {p p₁ p₂ : Stage} {ts : List (Option Spec)} {symbols : List Symbol} {one : Candidate}
    {t : Option Spec} (hArgs : Runs (.values args) p ts p₁)
    (hRefs : p₁.store.refsOf? ref.ann.id = some symbols)
    (hMatching : Candidate.matching ts (Candidate.ofSymbols p₁.store symbols) = .ok [one])
    (hDecl : Runs (.decl one.node) (p₁.narrow ref.ann.id one.symbol) [t] p₂) :
    Runs (.content (.call m ref types args)) p [t] (p₂.note ref.ann.id t)
  | nested {m : Meta} {outer inner : Value Meta} {p p₁ p₂ : Stage} {t₁ t : Option Spec}
    (hOuter : Runs (.value outer) p [t₁] p₁) (hInner : Runs (.value inner) p₁ [t] p₂) :
    Runs (.content (.nested m outer inner)) p [t] p₂
  | function {m : Meta} {typeParams : List (TypeParam Meta)} {ps : List (Param Meta)} {result : Spec}
    {body : List (Statement Meta)} {p p₁ p₂ : Stage} {t : Option Spec}
    (hParams : Runs (.params ps) p [] p₁) (hBody : Runs (.statements body) p₁ [t] p₂) :
    Runs (.content (.function m typeParams ps result body)) p
      [some (p₂.fresh (named (librarySpace ++ "." ++ "Function"))).1]
      (p₂.fresh (named (librarySpace ++ "." ++ "Function"))).2
  | noValues {p : Stage} : Runs (.values []) p [] p
  | values {v : Value Meta} {vs : List (Value Meta)} {p p₁ p₂ : Stage} {t : Option Spec}
    {ts : List (Option Spec)} (h : Runs (.value v) p [t] p₁) (hRest : Runs (.values vs) p₁ ts p₂) :
    Runs (.values (v :: vs)) p (t :: ts) p₂
  | statement {m : Meta} {v : Value Meta} {last : Bool} {p p' : Stage} {t : Option Spec}
    (h : Runs (.value v) p [t] p') : Runs (.statement ⟨m, v, last⟩) p [t] (p'.note m.id t)
  | noStatements {p : Stage} :
    Runs (.statements []) p [some (p.fresh (named (librarySpace ++ "." ++ "None"))).1]
      (p.fresh (named (librarySpace ++ "." ++ "None"))).2
  | statements {ss : List (Statement Meta)} {p p' : Stage} {t : Option Spec}
    (h : Runs (.rest [] ss) p [t] p') : Runs (.statements ss) p [t] p'
  | oneLast {t : Spec} {p : Stage} : Runs (.rest [t] []) p [some t] p
  | severalLast {lasts : List Spec} {p : Stage} :
    Runs (.rest lasts []) p [some (p.fresh (oneOf lasts)).1] (p.fresh (oneOf lasts)).2
  | unknownLast {lasts : List Spec} {s : Statement Meta} {ss : List (Statement Meta)} {p p' : Stage}
    (h : Runs (.statement s) p [none] p') (hLast : s.last = true) :
    Runs (.rest lasts (s :: ss)) p [none] p'
  | knownLast {lasts : List Spec} {s : Statement Meta} {ss : List (Statement Meta)} {t₁ : Spec}
    {t : Option Spec} {p p₁ p₂ : Stage} (h : Runs (.statement s) p [some t₁] p₁)
    (hRest : Runs (.rest (lasts ++ [t₁]) ss) p₁ [t] p₂) : Runs (.rest lasts (s :: ss)) p [t] p₂
  | rest {lasts : List Spec} {s : Statement Meta} {ss : List (Statement Meta)} {t₁ t : Option Spec}
    {p p₁ p₂ : Stage} (h : Runs (.statement s) p [t₁] p₁) (hRest : Runs (.rest lasts ss) p₁ [t] p₂) :
    Runs (.rest lasts (s :: ss)) p [t] p₂
  | noParams {p : Stage} : Runs (.params []) p [] p
  | params {q : Param Meta} {qs : List (Param Meta)} {p p₁ p₂ : Stage} {t : Option Spec}
    (h : Runs (.decl (.param q)) p [t] p₁) (hRest : Runs (.params qs) p₁ [] p₂) :
    Runs (.params (q :: qs)) p [] p₂
  | known {n : Node Meta} {p : Stage}
    (h : n.ann.id ∈ p.progress.done ∨ n.ann.id ∈ p.progress.visiting) :
    Runs (.decl n) p [p.store.typeOf? n.ann.id] p
  | decl {n : Node Meta} {p p' : Stage} {t : Option Spec} (hDone : n.ann.id ∉ p.progress.done)
    (hVisiting : n.ann.id ∉ p.progress.visiting)
    (h : Runs (.declaration n) (p.enter n.ann.id) [t] p') :
    Runs (.decl n) p [(p'.close n t).store.typeOf? n.ann.id] (p'.close n t)
  | attribute {a : Attribute Meta} {v : Value Meta} {p p' : Stage} {t : Option Spec}
    (hValue : a.value = some v) (h : Runs (.value v) p [t] p') :
    Runs (.declaration (.attribute a)) p [written a.spec t] p'
  | bareAttribute {a : Attribute Meta} {p : Stage} (hValue : a.value = none) :
    Runs (.declaration (.attribute a)) p [written a.spec none] p
  | param {q : Param Meta} {p : Stage} :
    Runs (.declaration (.param q)) p [written q.spec none] p
  | method {m : Method Meta} {p p₁ p₂ : Stage} {t : Option Spec}
    (hParams : Runs (.params m.signature.params) p [] p₁)
    (hBody : Runs (.statements m.body) p₁ [t] p₂) :
    Runs (.declaration (.method m)) p [written m.signature.result t]
      (p₂.note m.signature.ann.id (written m.signature.result t))
  | signature {s : Signature Meta} {p p' : Stage} (hParams : Runs (.params s.params) p [] p') :
    Runs (.declaration (.signature s)) p [written s.result none] p'
  | typeParam {q : TypeParam Meta} {p : Stage} :
    Runs (.declaration (.typeParam q)) p [some (p.fresh (named q.name)).1]
      (p.fresh (named q.name)).2
  | typed {n : Node Meta} {p : Stage} (h : n.TypedBefore) :
    Runs (.declaration n) p [p.store.typeOf? n.ann.id] p
  | untyped {n : Node Meta} {p : Stage} (h : n.IsType) : Runs (.declaration n) p [none] p

theorem leads_lift {α : Type} {m : Check α} {g : Progress} {w : World} {F : Fault → World → Prop}
    {Q : α → World → Prop} (h : Check.Leads m w F Q) :
    Check.Leads ((liftM m : Infer α).run g) w F fun p w' => p.2 = g ∧ Q p.1 w' :=
  h.bind fun _ _ hQ => .pure ⟨rfl, hQ⟩

theorem leads_get {β : Type} {k : Progress → Infer β} {g : Progress} {w : World} {F : Fault → World → Prop}
    {Q : β × Progress → World → Prop} (h : Check.Leads ((k g).run g) w F Q) :
    Check.Leads ((get >>= k).run g) w F Q := h

/-- A run of inference that ends without a fault goes from a stage to another one as `R` says, and
changes nothing but the store. -/
def Follows {α : Type} (m : Infer α) (R : Stage → α → Stage → Prop) : Prop :=
  ∀ g w, Check.Leads (m.run g) w (fun _ _ => True) fun x w' =>
    w' = { w with store := w'.store } ∧ R ⟨g, w.store⟩ x.1 ⟨x.2, w'.store⟩

namespace Follows

variable {α β : Type}

theorem pure (a : α) : Follows (Pure.pure a) fun p x p' => x = a ∧ p' = p :=
  fun _ _ => .pure ⟨rfl, rfl, rfl⟩

theorem bind {m : Infer α} {k : α → Infer β} {R : Stage → α → Stage → Prop}
    {S : α → Stage → β → Stage → Prop} {T : Stage → β → Stage → Prop} (hm : Follows m R)
    (hk : ∀ a, Follows (k a) (S a))
    (hT : ∀ p a p' b p'', R p a p' → S a p' b p'' → T p b p'') : Follows (m >>= k) T := by
  intro g w
  rw [StateT.run_bind]
  refine (hm g w).bind fun x w₁ ⟨hSame, hR⟩ => ?_
  refine (hk x.1 x.2 w₁).mono (fun _ _ => id) fun y w₂ ⟨hSame', hS⟩ => ⟨?_, hT _ _ _ _ _ hR hS⟩
  rw [hSame', hSame]

theorem comp {m : Infer α} {k : α → Infer β} {R : Stage → α → Stage → Prop}
    {S : α → Stage → β → Stage → Prop} (hm : Follows m R) (hk : ∀ a, Follows (k a) (S a)) :
    Follows (m >>= k) fun p b p'' => ∃ a p', R p a p' ∧ S a p' b p'' :=
  hm.bind hk fun _ a p' _ _ hR hS => ⟨a, p', hR, hS⟩

theorem mono {m : Infer α} {R S : Stage → α → Stage → Prop} (hm : Follows m R)
    (h : ∀ p a p', R p a p' → S p a p') : Follows m S :=
  fun g w => (hm g w).mono (fun _ _ => id) fun _ _ ⟨hSame, hR⟩ => ⟨hSame, h _ _ _ hR⟩

theorem throw {f : Fault} {R : Stage → α → Stage → Prop} : Follows (throw f) R :=
  fun _ w s _ => by
    change Ends (fun _ => True) _ (Except.error f)
    trivial

theorem lift {m : Check α} {R : Store → α → Store → Prop}
    (h : ∀ w, Check.Leads m w (fun _ _ => True) fun a w' =>
      w' = { w with store := w'.store } ∧ R w.store a w'.store) :
    Follows (liftM m) fun p a p' => p'.progress = p.progress ∧ R p.store a p'.store :=
  fun _ w => (leads_lift (h w)).mono (fun _ _ => id) fun _ _ ⟨hg, hSame, hR⟩ => ⟨hSame, hg, hR⟩

theorem modify {f : Progress → Progress} :
    Follows (modify f) fun p _ p' => p' = { p with progress := f p.progress } :=
  fun _ _ => .pure ⟨rfl, rfl⟩

theorem store : Follows (liftM Check.store) fun p st p' => st = p.store ∧ p' = p := by
  refine (lift (R := fun st a st' => a = st ∧ st' = st) fun w => .store ⟨rfl, rfl, rfl⟩).mono ?_
  rintro p st ⟨g, st'⟩ ⟨rfl, rfl, rfl⟩
  exact ⟨rfl, rfl⟩

theorem fresh (step : Fresh α) :
    Follows (liftM (Check.fresh step)) fun p a p' => (a, p') = p.fresh step := by
  refine (lift (R := fun st a st' => a = (step st.next).1 ∧
    st' = { st with next := (step st.next).2 }) fun w => .fresh ⟨rfl, rfl, rfl⟩).mono ?_
  rintro p a ⟨g, st'⟩ ⟨rfl, rfl, rfl⟩
  rfl

theorem modifyStore (f : Store → Store) :
    Follows (liftM (Check.modifyStore f)) fun p _ p' => p' = { p with store := f p.store } := by
  refine (lift (R := fun st _ st' => st' = f st) fun w => .modifyStore ⟨rfl, rfl⟩).mono ?_
  rintro p _ ⟨g, st'⟩ ⟨rfl, rfl⟩
  rfl

end Follows

theorem report_follows (problem : Problem) (n : Node Meta) :
    Follows (report problem n) fun p _ p' => p' = p.report problem n := by
  refine Follows.modify.mono fun p _ p' h => ?_
  subst h
  unfold Stage.report
  simp only [List.contains_iff_mem]
  split <;> rfl

theorem needed_follows (n : Node Meta) (t : Option Spec) :
    Follows (needed n t) fun p x p' => x = t ∧ p' = p.needed n t := by
  unfold needed
  cases t with
  | none =>
    refine (report_follows _ n).bind (fun _ => .pure none) ?_
    rintro p _ _ x _ rfl ⟨rfl, rfl⟩
    exact ⟨rfl, rfl⟩
  | some t => exact .pure (some t)

theorem simple_follows (name : Text) :
    Follows (simple name) fun p t p' => (t, p') = p.fresh (named name) := by
  refine (Follows.fresh newMeta).bind (fun m => .pure (TypeSpec.simple m name [])) ?_
  rintro p m p' t p'' h ⟨rfl, rfl⟩
  obtain ⟨rfl, rfl⟩ := Prod.mk.inj h
  rfl

theorem library_follows (name : Text) :
    Follows (some <$> library name) fun p t p' =>
      (t, p') = (some (p.fresh (named (librarySpace ++ "." ++ name))).1,
        (p.fresh (named (librarySpace ++ "." ++ name))).2) := by
  rw [map_eq_pure_bind]
  refine (simple_follows _).bind (fun t => .pure (some t)) ?_
  rintro p t p' x p'' h ⟨rfl, rfl⟩
  obtain ⟨rfl, rfl⟩ := Prod.mk.inj h
  rfl

theorem inter_follows (types : List Spec) :
    Follows (inter types) fun p t p' => (t, p') = p.fresh (oneOf types) :=
  Follows.fresh _

theorem typeOf_follows (id : Nat) :
    Follows (typeOf id) fun p t p' => t = p.store.typeOf? id ∧ p' = p := by
  refine Follows.store.bind (fun st => .pure (st.typeOf? id)) ?_
  rintro p st p' t p'' ⟨rfl, rfl⟩ ⟨rfl, rfl⟩
  exact ⟨rfl, rfl⟩

theorem setType_follows (id : Nat) (t : Option Spec) :
    Follows (setType id t) fun p _ p' => p' = p.note id t := by
  cases t with
  | none => exact (Follows.pure ()).mono fun _ _ _ h => h.2
  | some t => exact Follows.modifyStore _

theorem note_follows (id : Nat) (t : Option Spec) :
    Follows (do setType id t; return t) fun p x p' => x = t ∧ p' = p.note id t := by
  refine (setType_follows id t).bind (fun _ => .pure t) ?_
  rintro p _ _ x _ rfl ⟨rfl, rfl⟩
  exact ⟨rfl, rfl⟩

theorem target_follows (ref : Reference Meta) :
    Follows (target ref) fun p n p' => n = p.target? ref ∧ p' = p := by
  refine Follows.store.bind (S := fun st p n p' =>
    n = (⟨p.progress, st⟩ : Stage).target? ref ∧ p' = p) (fun st => ?_) ?_
  · split
    · rename_i symbol hRefs
      refine (Follows.pure _).mono fun p n p' h => ⟨?_, h.2⟩
      rw [h.1, Stage.target?, hRefs]
    · rename_i hRefs
      refine (Follows.pure _).mono fun p n p' h => ⟨?_, h.2⟩
      rw [h.1, Stage.target?]
      split
      · exact absurd ‹_› (hRefs _)
      · rfl
  · rintro p st p' n p'' ⟨rfl, rfl⟩ ⟨rfl, rfl⟩
    exact ⟨rfl, rfl⟩

theorem mem_ofSymbols {st : Store} {symbols : List Symbol} {c : Candidate}
    (h : c ∈ Candidate.ofSymbols st symbols) :
    c.symbol ∈ symbols ∧ st.decl? c.symbol = some c.node ∧
      ∃ text, c.node.arity? = some (text, c.params.length) := by
  obtain ⟨symbol, hs, hc⟩ := List.mem_filterMap.1 h
  split at hc
  · rename_i m hDecl
    obtain rfl := Option.some.inj hc
    exact ⟨hs, hDecl, m.signature.name, by simp [Node.arity?]⟩
  · rename_i s hDecl
    obtain rfl := Option.some.inj hc
    exact ⟨hs, hDecl, s.name, by simp [Node.arity?]⟩
  · exact nomatch hc

theorem matching_spec {args : List (Option Spec)} {candidates : List Candidate} {F : Fault → Prop}
    (h : ∀ c ∈ candidates, c.params.length ≠ args.length →
      F (.arityMismatch c.symbol.toText c.params.length args.length)) :
    Ends F (fun found => ∀ c ∈ found, c ∈ candidates ∧ c.params.length = args.length)
      (Candidate.matching args candidates) := by
  induction candidates with
  | nil => exact fun c hc => nomatch hc
  | cons c rest ih =>
    have hRest := ih fun c' hc' => h c' (List.mem_cons_of_mem _ hc')
    unfold Candidate.matching
    simp only
    split
    · rename_i hNe
      exact h c List.mem_cons_self (by simpa using hNe)
    · rename_i hEq
      refine hRest.bind fun more hMore => ?_
      have hMore (c' : Candidate) (hc' : c' ∈ more) :=
        (hMore c' hc').imp_left (List.mem_cons_of_mem c)
      split
      · exact List.forall_mem_cons.2 ⟨⟨List.mem_cons_self, by simpa using hEq⟩, hMore⟩
      · exact hMore

/-- The ways in which a call finds the method that it means. -/
inductive Calls (ref : Reference Meta) (ts : List (Option Spec)) (p : Stage) :
    Option (Node Meta) → Stage → Prop where
  | unknown (hRefs : p.store.refsOf? ref.ann.id = none) : Calls ref ts p none p
  | refused {symbols : List Symbol} (hRefs : p.store.refsOf? ref.ann.id = some symbols)
    (hMatching : Candidate.matching ts (Candidate.ofSymbols p.store symbols) = .ok []) :
    Calls ref ts p none (p.report .noAlternatives (.reference ref))
  | ambiguous {symbols : List Symbol} {several : List Candidate}
    (hRefs : p.store.refsOf? ref.ann.id = some symbols)
    (hMatching : Candidate.matching ts (Candidate.ofSymbols p.store symbols) = .ok several)
    (hSeveral : 2 ≤ several.length) :
    Calls ref ts p none (p.report (.tooManyAlternatives several.length) (.reference ref))
  | one {symbols : List Symbol} {one : Candidate}
    (hRefs : p.store.refsOf? ref.ann.id = some symbols)
    (hMatching : Candidate.matching ts (Candidate.ofSymbols p.store symbols) = .ok [one]) :
    Calls ref ts p (some one.node) (p.narrow ref.ann.id one.symbol)

theorem Follows.orFault {α : Type} (r : Except Fault α) :
    Follows (liftM (Check.orFault r)) fun p x p' => r = .ok x ∧ p' = p := by
  refine (Follows.lift (R := fun st x st' => r = .ok x ∧ st' = st) fun w => .orFault ?_).mono ?_
  · cases r with
    | ok a => exact ⟨rfl, rfl, rfl⟩
    | error f => trivial
  · rintro p x ⟨g, st⟩ ⟨rfl, h, rfl⟩
    exact ⟨h, rfl⟩

theorem callee_follows (ref : Reference Meta) (ts : List (Option Spec)) :
    Follows (callee ref ts) (fun p n p' => Calls ref ts p n p') := by
  have hReport (problem : Problem) :
      Follows (do report problem (.reference ref); return none) fun p (n : Option (Node Meta)) p' =>
        n = none ∧ p' = p.report problem (.reference ref) := by
    refine (report_follows _ _).bind (fun _ => .pure none) ?_
    rintro p _ _ x _ rfl ⟨rfl, rfl⟩
    exact ⟨rfl, rfl⟩
  refine Follows.store.bind (S := fun st p n p' => p.store = st → Calls ref ts p n p') (fun st => ?_)
    ?_
  · split
    · rename_i hRefs
      refine (Follows.pure none).mono ?_
      rintro p x p' ⟨rfl, rfl⟩ rfl
      exact .unknown hRefs
    · rename_i symbols hRefs
      refine (Follows.orFault _).bind (S := fun found p n p' =>
        Candidate.matching ts (Candidate.ofSymbols st symbols) = .ok found → p.store = st →
          Calls ref ts p n p') (fun found => ?_) ?_
      · obtain _ | ⟨one, _ | ⟨other, rest⟩⟩ := found
        · refine (hReport _).mono ?_
          rintro p n p' ⟨rfl, rfl⟩ hMatching rfl
          exact .refused hRefs hMatching
        · refine (Follows.modifyStore _).bind (S := fun _ p n p' => n = some one.node ∧ p' = p)
            (fun _ => ?_) ?_
          · refine (Follows.lift (R := fun st _ st' => st' = st) fun w => .log ⟨rfl, rfl⟩).bind
              (fun _ => .pure (some one.node)) ?_
            rintro p _ ⟨g, st'⟩ n p'' ⟨rfl, rfl⟩ ⟨rfl, rfl⟩
            exact ⟨rfl, rfl⟩
          · rintro p _ p' n p'' rfl ⟨rfl, rfl⟩ hMatching rfl
            exact .one hRefs hMatching
        · refine (hReport _).mono ?_
          rintro p n p' ⟨rfl, rfl⟩ hMatching rfl
          exact .ambiguous hRefs hMatching (by simp)
      · rintro p found p' n p'' ⟨hMatching, rfl⟩ h rfl
        exact h hMatching rfl
  · rintro p st p' n p'' ⟨rfl, rfl⟩ h
    exact h rfl

section

variable {decl : Node Meta → Infer (Option Spec)}

def DeclFollows (decl : Node Meta → Infer (Option Spec)) : Prop :=
  ∀ n, Follows (decl n) fun p t p' => Runs (.decl n) p [t] p'

theorem params_follows (hDecl : DeclFollows decl) (ps : List (Param Meta)) :
    Follows (params decl ps) fun p _ p' => Runs (.params ps) p [] p' := by
  induction ps with
  | nil =>
    refine (Follows.pure ()).mono ?_
    rintro p _ p' ⟨-, rfl⟩
    exact .noParams
  | cons q rest ih =>
    rw [params]
    exact (hDecl _).bind (fun _ => ih) fun p t p₁ _ p₂ h hRest => .params h hRest

theorem reference_follows (hDecl : DeclFollows decl) (ref : Reference Meta)
    (n : Option (Node Meta)) :
    Follows (reference decl ref n) fun p t p' => n = none ∧ t = none ∧ p' = p ∨
      ∃ k p₁, n = some k ∧ Runs (.decl k) p [t] p₁ ∧ p' = p₁.note ref.ann.id t := by
  cases n with
  | none =>
    refine (Follows.pure none).mono ?_
    rintro p t p' ⟨rfl, rfl⟩
    exact .inl ⟨rfl, rfl, rfl⟩
  | some k =>
    refine (hDecl k).bind (fun t => note_follows _ t) ?_
    rintro p t p₁ x p₂ h ⟨rfl, rfl⟩
    exact .inr ⟨k, p₁, rfl, h, rfl⟩

theorem widen_follows (hDecl : DeclFollows decl) (n : Node Meta) (t : Spec) :
    Follows (widen decl n t) fun p _ p' => ∃ old p₁, Runs (.decl n) p [old] p₁ ∧
      p' = p₁.widen n t old := by
  refine (hDecl n).bind (S := fun old p _ p' => p' = p.widen n t old) (fun old => ?_) ?_
  · cases old with
    | none =>
      refine (Follows.pure ()).mono ?_
      rintro p _ p' ⟨-, rfl⟩
      rfl
    | some old =>
      refine (inter_follows [old, t]).bind (fun t' => setType_follows n.ann.id (some t')) ?_
      rintro p t' p₁ _ p₂ h rfl
      obtain ⟨rfl, rfl⟩ := Prod.mk.inj h
      rfl
  · rintro p old p₁ _ p₂ h rfl
    exact ⟨old, p₁, h, rfl⟩

theorem Follows.noted {m : Infer (Option Spec)} {v : Value Meta}
    (h : Follows m fun p t p' => Runs (.content v) p [t] p') :
    Follows (m >>= fun t => do setType v.ann.id t; return t)
      fun p t p' => Runs (.value v) p [t] p' := by
  refine h.bind (fun t => note_follows _ t) ?_
  rintro p t p₁ x p₂ h ⟨rfl, rfl⟩
  exact .value h

theorem literal_follows {v : Value Meta} {name : Text} (hName : v.literal? = some name) :
    Follows (some <$> library name >>= fun t => do setType v.ann.id t; return t)
      fun p t p' => Runs (.value v) p [t] p' := by
  refine Follows.noted ((library_follows name).mono ?_)
  rintro p t p' h
  obtain ⟨rfl, rfl⟩ := Prod.mk.inj h
  exact .literal hName

mutual

theorem value_follows (hDecl : DeclFollows decl) : (v : Value Meta) →
    Follows (value decl v) fun p t p' => Runs (.value v) p [t] p'
  | .string m text => by
    rw [value]
    exact literal_follows rfl
  | .number m digits => by
    rw [value]
    exact literal_follows rfl
  | .boolean m truth => by
    rw [value]
    exact literal_follows rfl
  | .nothing m => by
    rw [value]
    exact literal_follows rfl
  | .ident m ref => by
    rw [value, ← bind_assoc]
    refine Follows.noted ((target_follows ref).bind (reference_follows hDecl ref) ?_)
    rintro p n p' t p'' ⟨rfl, rfl⟩ (⟨hNone, rfl, rfl⟩ | ⟨k, p₁, hTarget, h, rfl⟩)
    · exact .unknownIdent hNone
    · exact .ident hTarget h
  | .bind m mode name s v => by
    have hNode (t : Option Spec) : Follows (do
        let t ← needed (.value (.bind m mode name s v)) t
        modify fun g => { g with done := m.id :: g.done }
        pure t) fun p x p' => x = t ∧
          p' = (p.needed (.value (.bind m mode name s v)) t).finish m.id := by
      refine (needed_follows _ t).bind (fun t' => Follows.modify.comp fun _ => .pure t') ?_
      rintro p t' _ x _ ⟨rfl, rfl⟩ ⟨_, _, rfl, rfl, rfl⟩
      exact ⟨rfl, rfl⟩
    have hContent : Follows (value decl v >>= fun t => do
        let t ← needed (.value (.bind m mode name s v)) (written s t)
        modify fun g => { g with done := m.id :: g.done }
        pure t) fun p t p' => Runs (.content (.bind m mode name s v)) p [t] p' := by
      refine (value_follows hDecl v).bind (fun t => hNode (written s t)) ?_
      rintro p t p' x p'' h ⟨rfl, rfl⟩
      exact .bind h
    rw [value]
    simpa only [bind_assoc] using hContent.noted
  | .assign m ref v => by
    rw [value]
    refine (value_follows hDecl v).bind (S := fun t p x p'' =>
      ∀ p₀, Runs (.value v) p₀ [t] p → Runs (.value (.assign m ref v)) p₀ [x] p'') (fun t => ?_)
      fun p t p' x p'' h hRest => hRest p h
    refine (target_follows ref).bind (S := fun n p x p'' =>
      ∀ p₀, Runs (.value v) p₀ [t] p → n = p.target? ref →
        Runs (.value (.assign m ref v)) p₀ [x] p'') (fun n => ?_) ?_
    · split
      · rename_i n t
        refine (widen_follows hDecl n t).bind (fun _ => note_follows m.id (some t)) ?_
        rintro p _ _ x _ ⟨old, p₁, hOld, rfl⟩ ⟨rfl, rfl⟩ p₀ h hTarget
        exact .value (.assign h hTarget.symm hOld)
      · rename_i hNone
        rw [pure_bind]
        refine (note_follows m.id t).mono ?_
        rintro p x p' ⟨rfl, rfl⟩ p₀ h hTarget
        refine .value (.assignUnknown h ?_)
        rw [← hTarget]
        cases n with
        | none => exact .inl rfl
        | some n =>
          cases x with
          | none => exact .inr rfl
          | some x => exact (hNone n x rfl rfl).elim
    · rintro p n p' x p'' ⟨rfl, rfl⟩ h p₀ hValue
      exact h p₀ hValue rfl
  | .assignMember m receiver ref v => by
    rw [value, ← bind_assoc]
    exact Follows.noted ((value_follows hDecl receiver).bind (fun _ => value_follows hDecl v)
      fun _ _ _ _ _ h h' => .assignMember h h')
  | .call m ref types args => by
    rw [value]
    have hContent : Follows (values decl args >>= fun ts => callee ref ts >>= reference decl ref)
        fun p t p' => Runs (.content (.call m ref types args)) p [t] p' := by
      refine (values_follows hDecl args).bind
        (fun ts => (callee_follows ref ts).comp (reference_follows hDecl ref)) ?_
      rintro p ts p₁ t p₃ hArgs ⟨n, p₂, hCalls, hRef⟩
      cases hCalls with
      | unknown hRefs =>
        obtain ⟨-, rfl, rfl⟩ | ⟨k, p', hSome, -⟩ := hRef
        · exact .unknownCall hArgs hRefs
        · exact nomatch hSome
      | refused hRefs hMatching =>
        obtain ⟨-, rfl, rfl⟩ | ⟨k, p', hSome, -⟩ := hRef
        · exact .refusedCall hArgs hRefs hMatching
        · exact nomatch hSome
      | ambiguous hRefs hMatching hSeveral =>
        obtain ⟨-, rfl, rfl⟩ | ⟨k, p', hSome, -⟩ := hRef
        · exact .ambiguousCall hArgs hRefs hMatching hSeveral
        · exact nomatch hSome
      | one hRefs hMatching =>
        obtain ⟨hNone, -⟩ | ⟨k, p', hSome, hDecl, rfl⟩ := hRef
        · exact nomatch hNone
        · obtain rfl := Option.some.inj hSome
          exact .call hArgs hRefs hMatching hDecl
    simpa only [bind_assoc] using hContent.noted
  | .nested m outer inner => by
    rw [value, ← bind_assoc]
    exact Follows.noted ((value_follows hDecl outer).bind (fun _ => value_follows hDecl inner)
      fun _ _ _ _ _ h h' => .nested h h')
  | .function m typeParams ps result body => by
    rw [value]
    have hContent : Follows (params decl ps >>= fun _ => statements decl body >>= fun _ =>
        some <$> library "Function") fun p t p' =>
          Runs (.content (.function m typeParams ps result body)) p [t] p' := by
      refine (params_follows hDecl ps).bind
        (fun _ => (statements_follows hDecl body).comp fun _ => library_follows _) ?_
      rintro p _ p₁ x p₃ hParams ⟨t, p₂, hBody, hLibrary⟩
      obtain ⟨rfl, rfl⟩ := Prod.mk.inj hLibrary
      exact .function hParams hBody
    simpa only [bind_assoc] using hContent.noted

theorem values_follows (hDecl : DeclFollows decl) : (vs : List (Value Meta)) →
    Follows (values decl vs) fun p ts p' => Runs (.values vs) p ts p'
  | [] => by
    rw [values]
    refine (Follows.pure []).mono ?_
    rintro p ts p' ⟨rfl, rfl⟩
    exact .noValues
  | v :: rest => by
    rw [values]
    refine (value_follows hDecl v).bind
      (fun t => (values_follows hDecl rest).comp fun ts => .pure (t :: ts)) ?_
    rintro p t p₁ x p₃ h ⟨ts, p₂, hRest, rfl, rfl⟩
    exact .values h hRest

theorem statements_follows (hDecl : DeclFollows decl) : (ss : List (Statement Meta)) →
    Follows (statements decl ss) fun p t p' => Runs (.statements ss) p [t] p'
  | [] => by
    rw [statements]
    refine (library_follows _).mono fun p t p' h => ?_
    obtain ⟨rfl, rfl⟩ := Prod.mk.inj h
    exact .noStatements
  | s :: rest => by
    have hRest (lasts : List Spec) := statementsAfter_follows hDecl lasts rest
    rw [statements]
    refine (statement_follows hDecl s).bind (S := fun t p x p' =>
      ∀ p₀, Runs (.statement s) p₀ [t] p → Runs (.statements (s :: rest)) p₀ [x] p') (fun t => ?_)
      fun p t p' x p'' h hRest => hRest p h
    split
    · rename_i hLast
      cases t with
      | none =>
        refine (Follows.pure none).mono ?_
        rintro p x p' ⟨rfl, rfl⟩ p₀ h
        exact .statements (.unknownLast h hLast)
      | some t => exact (hRest [t]).mono fun p x p' hRun p₀ h => .statements (.knownLast h hRun)
    · exact (hRest []).mono fun p x p' hRun p₀ h => .statements (.rest h hRun)

theorem statementsAfter_follows (hDecl : DeclFollows decl) (lasts : List Spec) :
    (ss : List (Statement Meta)) →
      Follows (statementsAfter decl lasts ss) fun p t p' => Runs (.rest lasts ss) p [t] p'
  | [] => by
    rw [statementsAfter.eq_def]
    simp only
    split
    · refine (Follows.pure _).mono ?_
      rintro p x p' ⟨rfl, rfl⟩
      exact .oneLast
    · rw [map_eq_pure_bind]
      refine (inter_follows lasts).bind (fun t => .pure (some t)) ?_
      rintro p t p' x p'' h ⟨rfl, rfl⟩
      obtain ⟨rfl, rfl⟩ := Prod.mk.inj h
      exact .severalLast
  | s :: rest => by
    have hRest (lasts : List Spec) := statementsAfter_follows hDecl lasts rest
    rw [statementsAfter]
    refine (statement_follows hDecl s).bind (S := fun t p x p' =>
      ∀ p₀, Runs (.statement s) p₀ [t] p → Runs (.rest lasts (s :: rest)) p₀ [x] p') (fun t => ?_)
      fun p t p' x p'' h hRest => hRest p h
    split
    · rename_i hLast
      cases t with
      | none =>
        refine (Follows.pure none).mono ?_
        rintro p x p' ⟨rfl, rfl⟩ p₀ h
        exact .unknownLast h hLast
      | some t => exact (hRest (lasts ++ [t])).mono fun p x p' hRun p₀ h => .knownLast h hRun
    · exact (hRest lasts).mono fun p x p' hRun p₀ h => .rest h hRun

theorem statement_follows (hDecl : DeclFollows decl) : (s : Statement Meta) →
    Follows (statement decl s) fun p t p' => Runs (.statement s) p [t] p'
  | ⟨m, v, last⟩ => by
    rw [statement]
    refine (value_follows hDecl v).bind (fun t => note_follows m.id t) ?_
    rintro p t p' x p'' h ⟨rfl, rfl⟩
    exact .statement h

end

theorem declaration_follows (hDecl : DeclFollows decl) (n : Node Meta) :
    Follows (declaration decl n) fun p t p' =>
      ∃ p₁, Runs (.declaration n) p [t] p₁ ∧ p' = p₁.conclude n t := by
  cases n with
  | «attribute» a =>
    simp only [declaration]
    cases hValue : a.value with
    | some v =>
      refine (value_follows hDecl v).bind (fun t => needed_follows _ (written a.spec t)) ?_
      rintro p t p' x p'' h ⟨rfl, rfl⟩
      exact ⟨p', .attribute hValue h, rfl⟩
    | none =>
      refine (needed_follows _ (written a.spec none)).mono ?_
      rintro p x p' ⟨rfl, rfl⟩
      exact ⟨p, .bareAttribute hValue, rfl⟩
  | param q =>
    refine (needed_follows _ _).mono ?_
    rintro p x p' ⟨rfl, rfl⟩
    exact ⟨p, .param, rfl⟩
  | method m =>
    rw [declaration]
    refine (params_follows hDecl _).bind (fun _ => (statements_follows hDecl m.body).comp
      fun t => note_follows m.signature.ann.id (written m.signature.result t)) ?_
    rintro p _ p₁ x p₃ hParams ⟨t, p₂, hBody, rfl, rfl⟩
    exact ⟨_, .method hParams hBody, rfl⟩
  | signature s =>
    rw [declaration]
    refine (params_follows hDecl _).bind (fun _ => needed_follows _ _) ?_
    rintro p _ p' x p'' hParams ⟨rfl, rfl⟩
    exact ⟨p', .signature hParams, rfl⟩
  | typeParam q =>
    rw [declaration, map_eq_pure_bind]
    refine (simple_follows q.name).bind (fun t => .pure (some t)) ?_
    rintro p t p' x p'' h ⟨rfl, rfl⟩
    obtain ⟨rfl, rfl⟩ := Prod.mk.inj h
    exact ⟨_, .typeParam, rfl⟩
  | top t =>
    cases t with
    | ofType d =>
      refine (Follows.pure none).mono ?_
      rintro p x p' ⟨rfl, rfl⟩
      exact ⟨p', .untyped trivial, rfl⟩
    | ofClass d =>
      refine (typeOf_follows d.ann.id).mono ?_
      rintro p x p' ⟨rfl, rfl⟩
      exact ⟨p', .typed (n := .top (.ofClass d)) trivial, rfl⟩
  | use u =>
    refine (Follows.pure none).mono ?_
    rintro p x p' ⟨rfl, rfl⟩
    exact ⟨p', .untyped trivial, rfl⟩
  | value v =>
    cases v with
    | bind m mode name s v =>
      refine (typeOf_follows m.id).mono ?_
      rintro p x p' ⟨rfl, rfl⟩
      exact ⟨p', .typed (n := .value (.bind m mode name s v)) trivial, rfl⟩
    | _ => exact .throw
  | spec s =>
    cases s with
    | simple m name args =>
      refine (Follows.pure none).mono ?_
      rintro p x p' ⟨rfl, rfl⟩
      exact ⟨p', .untyped trivial, rfl⟩
    | _ => exact .throw
  | _ => exact .throw

end

theorem decl_follows (depth : Nat) : DeclFollows (decl depth) := by
  -- What is done or being done already is only looked up, whatever the depth.
  have hKnown (n : Node Meta) {g : Progress} (w : World)
      (h : (g.done.contains n.ann.id || g.visiting.contains n.ann.id) = true) :
      Check.Leads ((typeOf n.ann.id).run g) w (fun _ _ => True) fun x w' =>
        w' = { w with store := w'.store } ∧
          Runs (.decl n) ⟨g, w.store⟩ [x.1] ⟨x.2, w'.store⟩ := by
    refine (typeOf_follows n.ann.id g w).mono (fun _ _ => id) ?_
    intro x w' ⟨hSame, hType, hStage⟩
    refine ⟨hSame, ?_⟩
    rw [hType, hStage]
    exact .known (by simpa using h)
  induction depth with
  | zero =>
    intro n g w
    rw [decl]
    refine leads_get ?_
    split
    · exact hKnown n w ‹_›
    · exact Follows.throw (R := fun p t p' => Runs (.decl n) p [t] p') g w
  | succ depth ih =>
    intro n g w
    rw [decl]
    refine leads_get ?_
    split
    · exact hKnown n w ‹_›
    · rename_i hNew
      have hNew : n.ann.id ∉ g.done ∧ n.ann.id ∉ g.visiting := by simpa using hNew
      have hRest (t : Option Spec) : Follows (do
          modify fun g => { g with
            visiting := g.visiting.filter (· ≠ n.ann.id), done := n.ann.id :: g.done }
          setType n.ann.id t
          typeOf n.ann.id) fun p x p' =>
            x = ((p.leave n.ann.id).note n.ann.id t).store.typeOf? n.ann.id ∧
              p' = (p.leave n.ann.id).note n.ann.id t := by
        refine Follows.modify.bind
          (fun _ => (setType_follows n.ann.id t).comp fun _ => typeOf_follows n.ann.id) ?_
        rintro p _ _ x _ rfl ⟨_, _, rfl, rfl, rfl⟩
        exact ⟨rfl, rfl⟩
      refine Follows.bind (T := fun p x p' => p.progress = g → Runs (.decl n) p [x] p')
        Follows.modify (fun _ => (declaration_follows ih n).comp hRest) ?_ g w |>.mono
        (fun _ _ => id) fun _ _ h => ⟨h.1, h.2 rfl⟩
      rintro p _ _ x _ rfl ⟨t, _, ⟨p₁, hRun, rfl⟩, rfl, rfl⟩ rfl
      exact .decl hNew.1 hNew.2 hRun

/-- Declarations that are typed one after another. -/
inductive RunsEach : List (Node Meta) → Stage → Stage → Prop where
  | nil {p : Stage} : RunsEach [] p p
  | cons {n : Node Meta} {ns : List (Node Meta)} {p p₁ p₂ : Stage} {t : Option Spec}
    (h : Runs (.decl n) p [t] p₁) (hRest : RunsEach ns p₁ p₂) : RunsEach (n :: ns) p p₂

theorem decls_follows (depth : Nat) (ns : List (Node Meta)) :
    Follows (decls depth ns) fun p _ p' => RunsEach ns p p' := by
  induction ns with
  | nil =>
    refine (Follows.pure ()).mono ?_
    rintro p _ p' ⟨-, rfl⟩
    exact .nil
  | cons n rest ih =>
    rw [decls]
    exact (decl_follows depth n).bind (fun _ => ih) fun p t p₁ _ p₂ h hRest => .cons h hRest

end Infer

/-- What is typed one after another in a source: the methods of a type, or the attributes and the
methods of a class. -/
def Root.units (r : Root Meta) : List (Node Meta) :=
  match r.top with
  | .ofType d => d.methods.map .signature
  | .ofClass d => d.attributes.map .attribute ++ d.methods.map .method

namespace Infer

/-- The stage after the type of a class is noted at the class itself. -/
def Stage.begin (p : Stage) (r : Root Meta) : Stage :=
  match r.top with
  | .ofType _ => p
  | .ofClass d =>
    let own := p.fresh (named r.fullName)
    let union := own.2.fresh newMeta
    (union.2.note d.ann.id (some (.union union.1 [d.super, own.1]))).finish d.ann.id

theorem top_follows (r : Root Meta) :
    Follows (top r) fun p _ p' => RunsEach r.units (p.begin r) p' := by
  have hStore (ns : List (Node Meta)) :
      Follows (do decls (← Check.store).next ns) fun p _ p' => RunsEach ns p p' := by
    refine Follows.store.bind (fun st => decls_follows st.next ns) ?_
    rintro p st p' _ p'' ⟨rfl, rfl⟩ h
    exact h
  unfold top Stage.begin Root.units
  cases r.top with
  | ofType d => exact hStore _
  | ofClass d =>
    refine (simple_follows r.fullName).bind (fun own => (Follows.fresh newMeta).comp fun m =>
      (setType_follows d.ann.id (some (.union m [d.super, own]))).comp fun _ =>
        Follows.modify.comp fun _ => hStore _) ?_
    rintro p own p₁ _ p₅ hOwn ⟨m, p₂, hUnion, _, _, rfl, _, _, rfl, h⟩
    obtain ⟨rfl, rfl⟩ := Prod.mk.inj hOwn
    obtain ⟨rfl, rfl⟩ := Prod.mk.inj hUnion
    exact h

end Infer

end Assay
