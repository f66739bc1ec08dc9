import Mathlib
import Assay.Proofs.Numbered
import Assay.Proofs.Run

/-! What the passes of a check report, and on which nodes. This holds from whatever state a pass is
started, so it says nothing about how the pass ends. The passes over names and types do little beside
that: they note types and symbols at nodes, give out numbers and declare names, and whatever these
steps keep the passes keep. So they are quiet: they leave the places of nodes and the top-level
declarations alone. -/

namespace Assay

variable {name : Text} {n : Node Meta} {path : Path}

namespace Check

variable {α β : Type}

/-- From whatever world a step is started, its result satisfies `Q`, if it has one. -/
def Gives (m : Check α) (Q : α → Prop) : Prop := ∀ w, Leads m w (fun _ _ => True) fun a _ => Q a

namespace Gives

theorem pure {a : α} {Q : α → Prop} (h : Q a) : Gives (Pure.pure a) Q := fun _ => .pure h

theorem any {m : Check α} : Gives m fun _ => True := by
  intro w s _
  cases (ending m s).1 <;> trivial

theorem bind {m : Check α} {k : α → Check β} {P : α → Prop} {Q : β → Prop} (hm : Gives m P)
    (hk : ∀ a, P a → Gives (k a) Q) : Gives (m >>= k) Q :=
  fun w => (hm w).bind fun a w' ha => hk a ha w'

theorem after {m : Check α} {k : α → Check β} {Q : β → Prop} (hk : ∀ a, Gives (k a) Q) :
    Gives (m >>= k) Q :=
  any.bind fun a _ => hk a

theorem mono {m : Check α} {P Q : α → Prop} (hm : Gives m P) (h : ∀ a, P a → Q a) : Gives m Q :=
  fun w => (hm w).mono (fun _ _ => id) fun a _ => h a

theorem traced {errors : α → List Diagnostic} {m : Check α} {Q : α → Prop} (h : Gives m Q) :
    Gives (Check.traced name errors m) Q :=
  fun w => .traced (h w)

theorem alreadyDefined {previous : Symbol} :
    Gives (Check.alreadyDefined name previous n) fun e =>
      ∃ place, e = .ofNode (.alreadyDefined name place) n :=
  after fun _ => pure ⟨_, rfl⟩

theorem collect {step : α → Check (List Diagnostic)} {E : α → Diagnostic → Prop} {xs : List α}
    (hStep : ∀ x ∈ xs, Gives (step x) fun errors => ∀ e ∈ errors, E x e) :
    Gives (Check.collect step xs) fun errors => ∀ e ∈ errors, ∃ x ∈ xs, E x e := by
  intro w
  refine (Leads.collect_about (I := fun _ => True) (E := E) (fun x hx w' _ => ?_) trivial).mono
    (fun _ _ => id) fun _ _ h => h.2
  exact (hStep x hx w').mono (fun _ _ => id) fun _ _ h => ⟨trivial, h⟩

end Gives

end Check

/-- Between two worlds no node got a place in a tree and no top-level declaration was added or
changed. -/
structure World.Quiet (w w' : World) : Prop where
  next : w.store.next ≤ w'.store.next
  tops : w'.store.tops = w.store.tops
  links : w'.store.links = w.store.links

theorem World.Quiet.refl (w : World) : w.Quiet w := ⟨Nat.le_refl _, rfl, rfl⟩

theorem World.Quiet.trans {w w' w'' : World} (h : w.Quiet w') (h' : w'.Quiet w'') : w.Quiet w'' :=
  ⟨h.next.trans h'.next, h'.tops.trans h.tops, h'.links.trans h.links⟩

namespace Check

/-- From whatever world a step is started, it leaves places of nodes and top-level declarations alone,
and its result satisfies `Q`, if it has one. -/
def Quiet (m : Check α) (Q : α → Prop) : Prop :=
  ∀ w, Leads m w (fun _ w' => w.Quiet w') fun a w' => w.Quiet w' ∧ Q a

namespace Quiet

theorem gives {m : Check α} {Q : α → Prop} (h : Quiet m Q) : Gives m Q :=
  fun w => (h w).mono (fun _ _ _ => trivial) fun _ _ ha => ha.2

theorem leads {m : Check α} {Q : α → Prop} (h : Quiet m Q) (w : World) :
    Leads m w (fun _ _ => True) fun a w' => w.Quiet w' ∧ Q a :=
  (h w).mono (fun _ _ _ => trivial) fun _ _ => id

theorem pure {a : α} {Q : α → Prop} (h : Q a) : Quiet (Pure.pure a) Q :=
  fun w => .pure ⟨.refl w, h⟩

theorem throw {f : Fault} {Q : α → Prop} : Quiet (MonadExcept.throw f : Check α) Q :=
  fun w => .throw (.refl w)

theorem mono {m : Check α} {P Q : α → Prop} (hm : Quiet m P) (h : ∀ a, P a → Q a) : Quiet m Q :=
  fun w => (hm w).mono (fun _ _ => id) fun a _ ha => ⟨ha.1, h a ha.2⟩

theorem bind {m : Check α} {k : α → Check β} {P : α → Prop} {Q : β → Prop} (hm : Quiet m P)
    (hk : ∀ a, P a → Quiet (k a) Q) : Quiet (m >>= k) Q := by
  intro w
  refine (hm w).bind fun a w' ⟨hKeeps, ha⟩ => ?_
  exact (hk a ha w').mono (fun _ _ => hKeeps.trans) fun _ _ hb => ⟨hKeeps.trans hb.1, hb.2⟩

theorem after {m : Check α} {k : α → Check β} {Q : β → Prop} (hm : Quiet m fun _ => True)
    (hk : ∀ a, Quiet (k a) Q) : Quiet (m >>= k) Q :=
  hm.bind fun a _ => hk a

theorem traced {errors : α → List Diagnostic} {m : Check α} {Q : α → Prop} (h : Quiet m Q) :
    Quiet (Check.traced name errors m) Q :=
  fun w => .traced (h w)

theorem store : Quiet Check.store fun _ => True := fun w => .store ⟨.refl w, trivial⟩

theorem setType (i : Nat) (t : TypeSpec Meta) :
    Quiet (Check.modifyStore (·.setType i t)) fun _ => True :=
  fun _ => .modifyStore ⟨⟨Nat.le_refl _, rfl, rfl⟩, trivial⟩

theorem setRefs (i : Nat) (symbols : List Symbol) :
    Quiet (Check.modifyStore (·.setRefs i symbols)) fun _ => True :=
  fun _ => .modifyStore ⟨⟨Nat.le_refl _, rfl, rfl⟩, trivial⟩

theorem fresh {m : Fresh α} (hm : ∀ k, m.Gives k fun _ _ => True) :
    Quiet (Check.fresh m) fun _ => True :=
  fun w => .fresh ⟨⟨(hm w.store.next).1, rfl, rfl⟩, trivial⟩

theorem orFault {r : Except Fault α} : Quiet (Check.orFault r) fun _ => True := by
  cases r with
  | ok a => exact pure trivial
  | error f => exact throw

theorem log {line : Text} : Quiet (Check.log line) fun _ => True :=
  fun w => .log ⟨.refl w, trivial⟩

theorem scopeOf {m : Meta} : Quiet (Check.scopeOf m) fun _ => True := by
  unfold Check.scopeOf
  cases m.scope with
  | some path => exact pure trivial
  | none => exact throw

theorem find {name : Name} : Quiet (Check.find path name) fun _ => True :=
  store.after fun _ => orFault

theorem findIn {name : Name} : Quiet (Check.findIn path name) fun _ => True :=
  store.after fun _ => orFault

theorem declare {name : Name} {symbol : Symbol} :
    Quiet (Check.declare path name symbol) fun _ => True :=
  fun _ => .declare (fun _ _ => ⟨Nat.le_refl _, rfl, rfl⟩) fun _ => ⟨⟨Nat.le_refl _, rfl, rfl⟩, trivial⟩

theorem alreadyDefined {previous : Symbol} :
    Quiet (Check.alreadyDefined name previous n) fun e =>
      ∃ place, e = .ofNode (.alreadyDefined name place) n :=
  store.after fun _ => pure ⟨_, rfl⟩

theorem collect {step : α → Check (List Diagnostic)} {E : α → Diagnostic → Prop} {xs : List α}
    (hStep : ∀ x ∈ xs, Quiet (step x) fun errors => ∀ e ∈ errors, E x e) :
    Quiet (Check.collect step xs) fun errors => ∀ e ∈ errors, ∃ x ∈ xs, E x e := by
  intro w
  refine Leads.collect_about (I := w.Quiet) (fun x hx w' hKeeps => ?_) (.refl w)
  exact (hStep x hx w').mono (fun _ _ => hKeeps.trans) fun _ _ h => ⟨hKeeps.trans h.1, h.2⟩

end Quiet

theorem Leads.gives {m : Check α} {w : World} {F : Fault → World → Prop} {P : α → World → Prop}
    {Q : α → Prop} (h : Leads m w F P) (hQ : Gives m Q) :
    Leads m w F fun a w' => P a w' ∧ Q a :=
  h.and (hQ w)

end Check

open Check (Gives Quiet)

/-- A node that brings in, declares or names a type of its own source. -/
def Node.OfTypes : Node Meta → Prop
  | .use _ => True
  | .typeParam _ => True
  | .spec _ => True
  | _ => False

/-- What can be wrong with a node that brings in, declares or names a type. -/
inductive Diagnostic.OfDiscovery : Diagnostic → Node Meta → Prop where
  | alreadyDefined {name : Text} {place : Option Location} {n : Node Meta} (h : n.OfTypes) :
    OfDiscovery (.ofNode (.alreadyDefined name place) n) n
  | notFound {name : Text} {u : Use Meta} : OfDiscovery (.ofNode (.notFound name) (.use u)) (.use u)
  | typeNotDefined {name : Text} {s : TypeSpec Meta} :
    OfDiscovery (.ofNode (.typeNotDefined name) (.spec s)) (.spec s)

theorem Diagnostic.OfDiscovery.exists_problem {e : Diagnostic} (h : e.OfDiscovery n) :
    ∃ p n, e = .ofNode p n := by
  cases h <;> exact ⟨_, _, rfl⟩

namespace Discovery

variable {load : Load}

theorem declareUse_gives (space : Text) (u : Use Meta) :
    Gives (declareUse load space u) fun errors => ∀ e ∈ errors, e.OfDiscovery (.use u) := by
  refine .after fun path => .after fun found => ?_
  cases found with
  | some previous =>
    simp only
    split
    · exact .pure (by simp)
    · refine Gives.alreadyDefined.bind fun e ⟨place, he⟩ => .pure (List.forall_mem_singleton.2 ?_)
      exact he ▸ .alreadyDefined trivial
  | none =>
    refine .after fun found => ?_
    cases found with
    | none => exact .pure (List.forall_mem_singleton.2 .notFound)
    | some symbol => exact .after fun _ => .pure (by simp)

theorem declareVariable_gives (p : TypeParam Meta) :
    Gives (declareVariable p) fun errors => ∀ e ∈ errors, e.OfDiscovery (.typeParam p) := by
  refine .after fun path => .after fun found => ?_
  cases found with
  | some previous =>
    refine Gives.alreadyDefined.bind fun e ⟨place, he⟩ => .pure (List.forall_mem_singleton.2 ?_)
    exact he ▸ .alreadyDefined trivial
  | none => exact .after fun _ => .pure (by simp)

theorem discoverType_gives (r : Root Meta) (m : Meta) (text : Text) (n : Node Meta) :
    Gives (discoverType load r m text n) fun errors =>
      ∀ e ∈ errors, e = .ofNode (.typeNotDefined text) n := by
  refine .after fun path => .after fun symbols => ?_
  cases symbols with
  | cons => exact .pure (by simp)
  | nil =>
    refine .after fun found => ?_
    cases found with
    | none => exact .pure (by simp)
    | some found =>
      simp only
      split
      · exact .after fun _ => .after fun _ => .pure (by simp)
      · exact .pure (by simp)

theorem visitVariable_gives (n : Node Meta) :
    Gives (visitVariable n) fun errors => ∀ e ∈ errors, e.OfDiscovery n := by
  cases n with
  | typeParam p => exact declareVariable_gives p
  | _ => exact .pure (by simp)

theorem visitSpec_gives (r : Root Meta) (n : Node Meta) :
    Gives (visitSpec load r n) fun errors => ∀ e ∈ errors, e.OfDiscovery n := by
  cases n with
  | spec s =>
    cases s with
    | simple m text args =>
      exact (discoverType_gives r m text _).mono fun errors h e he => h e he ▸ .typeNotDefined
    | _ => exact .pure (by simp)
  | _ => exact .pure (by simp)

theorem declareTop_gives (r : Root Meta) : Gives (declareTop r) fun errors =>
    ∀ e ∈ errors, ∃ place, e = .ofNode (.alreadyDefined r.fullName place) (.top r.top) := by
  refine .after fun found => ?_
  cases found with
  | cons previous rest =>
    refine Gives.alreadyDefined.bind fun e ⟨place, he⟩ => .pure (List.forall_mem_singleton.2 ?_)
    exact ⟨place, he⟩
  | nil =>
    refine .after fun _ => .after fun _ => .after fun _ => ?_
    dsimp only
    split
    · exact .after fun _ => .after fun _ => .pure (by simp)
    · exact .pure (by simp)

end Discovery

theorem Root.discover_gives {load : Load} (r : Root Meta) : Gives (r.discover load) fun errors =>
    ∀ e ∈ errors, (∃ place, e = .ofNode (.alreadyDefined r.fullName place) (.top r.top)) ∨
      ∃ n ∈ (Node.root r).nodes, e.OfDiscovery n := by
  refine .traced ((Discovery.declareTop_gives r).bind fun errors hErrors => ?_)
  cases errors with
  | cons first rest => exact .pure fun e he => .inl (hErrors e he)
  | nil =>
    refine (Gives.collect fun u _ => Discovery.declareUse_gives r.space u).bind fun uses hUses => ?_
    refine (Gives.collect fun n _ => Discovery.visitVariable_gives n).bind fun params hParams => ?_
    refine (Gives.collect fun n _ => Discovery.visitSpec_gives r n).bind fun specs hSpecs => ?_
    refine .pure fun e he => .inr ?_
    obtain he | he := List.mem_append.1 he
    · obtain he | he := List.mem_append.1 he
      · obtain ⟨u, hu, hOf⟩ := hUses e he
        refine ⟨.use u, Node.mem_nodes_of_child (Node.self_mem_nodes _) ?_, hOf⟩
        simp [Node.children, hu]
      · exact hParams e he
    · exact hSpecs e he

def Problem.OfTypes : Problem → Prop
  | .noAlternatives => True
  | .tooManyAlternatives _ => True
  | .notInferable => True
  | _ => False

def Diagnostic.OfTypes (e : Diagnostic) : Prop := ∃ p n, e = .ofNode p n ∧ p.OfTypes

namespace Infer

theorem newMeta_gives (k : Nat) : newMeta.Gives k fun _ _ => True :=
  (Fresh.Gives.renew _).mono fun _ _ _ _ => trivial

theorem flatten_gives (t : Spec) (k : Nat) : t.flatten.Gives k fun _ _ => True :=
  (TypeSpec.flatten?_recast k t).bind fun _ _ _ _ => .pure trivial

theorem inter_gives (types : List Spec) (k : Nat) :
    Fresh.Gives (do TypeSpec.flatten (.inter (← newMeta) types)) k fun _ _ => True :=
  (newMeta_gives k).bind fun _ _ _ _ => flatten_gives _ _

end Infer

theorem ClassDecl.withoutNone?_gives (t : Spec) (k : Nat) :
    (ClassDecl.withoutNone? t).Gives k fun _ _ => True := by
  cases t with
  | inter m types =>
    unfold ClassDecl.withoutNone?
    simp only
    split
    · exact .pure trivial
    · refine (Fresh.Gives.renew m).bind fun _ _ _ _ => ?_
      exact (Infer.flatten_gives _ _).bind fun _ _ _ _ => .pure trivial
  | _ => exact .pure trivial

namespace NameEvent

/-- What is wrong with an event: the name is declared already, or what a reference is for is not
found. -/
def Fails (e : Diagnostic) : NameEvent → Prop
  | .declare _ name n => ∃ place, e = .ofNode (.alreadyDefined name place) n
  | .refer ref _ => ∃ name,
    e = .ofNode (if ref.forward then .notFound name else .notDefined name) (.reference ref)

theorem resolve_quiet (ref : Reference Meta) (name : Text) :
    Quiet (resolve ref) fun errors => ∀ e ∈ errors, Fails e (.refer ref name) := by
  refine Quiet.store.after fun st => Quiet.orFault.after fun name => Quiet.scopeOf.after fun path => Quiet.find.after fun symbols => ?_
  split
  · exact .pure (List.forall_mem_singleton.2 ⟨name, rfl⟩)
  · exact (Quiet.setRefs _ _).after fun _ => .pure (by simp)

theorem settle_quiet (event : NameEvent) :
    Quiet event.settle fun errors => ∀ e ∈ errors, event.Fails e := by
  cases event with
  | declare scope name n =>
    cases scope with
    | none => exact .throw
    | some path =>
      refine Quiet.findIn.after fun found => ?_
      cases found with
      | some previous =>
        refine Quiet.alreadyDefined.bind fun e ⟨place, he⟩ => .pure (List.forall_mem_singleton.2 ?_)
        exact ⟨place, he⟩
      | none =>
        exact Quiet.declare.after fun _ =>
          Quiet.log.after fun _ => .pure (by simp)
  | refer ref name =>
    rw [settle]
    split
    · exact .pure (by simp)
    · exact resolve_quiet ref name

theorem settleLate_quiet (event : NameEvent) :
    Quiet event.settleLate fun errors => ∀ e ∈ errors, event.Fails e := by
  cases event with
  | declare => exact .pure (by simp)
  | refer ref name =>
    rw [settleLate]
    split
    · exact resolve_quiet ref name
    · exact .pure (by simp)

end NameEvent

theorem Root.resolveNames_quiet (r : Root Meta) :
    Quiet r.resolveNames fun errors => ∀ e ∈ errors, ∃ event ∈ r.top.nameEvents, event.Fails e := by
  refine .traced ?_
  refine (Quiet.collect fun event _ => event.settle_quiet).bind fun errors hErrors => ?_
  refine (Quiet.collect fun event _ => event.settleLate_quiet).bind fun late hLate => .pure ?_
  exact List.forall_mem_append.2 ⟨hErrors, hLate⟩

end Assay
