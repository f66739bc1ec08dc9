import Mathlib
import Assay.Proofs.Visited

/-! The way that inference takes through an attribute or method: each value in it is dealt with once,
and what happens before and after has nothing to do with the value. -/

namespace Assay

variable {n : Node Meta} {t : Option Spec} {p p' : Stage} {ref : Reference Meta} {A : Nat → Prop}
  {i : Nat} {m : Meta} {types : List Spec} {args : List (Value Meta)}

namespace Node

def Bare : Node Meta → Prop
  | .typeParam _ => True
  | .reference _ => True
  | .spec _ => True
  | _ => False

theorem Bare.of_mem {k : Node Meta} (hk : k.Bare) (hn : n ∈ k.nodes) : n.Bare := by
  cases k with
  | spec s =>
    obtain ⟨s', rfl⟩ := spec_of_mem_nodes hn
    trivial
  | typeParam | reference =>
    rw [nodes_eq, children, List.flatMap_nil, List.mem_singleton] at hn
    exact hn ▸ trivial
  | _ => exact hk.elim

end Node

namespace Infer

variable {r : Root Meta}

open Stage (Steps Step)

/-- The numbers that what happens between two stages has to do with, in which those of `A` are typed
in passing: beside these, those of other sources, and those of attributes and methods that are
started. -/
def Reach (r : Root Meta) (A : Nat → Prop) (p p' : Stage) (i : Nat) : Prop :=
  A i ∨ ¬r.Inner i ∨ ¬p.Closed r i ∧ p'.Closed r i

/-- A value is typed between two stages. The other steps between them are within `P`, and have nothing
to do with it. -/
def Occurs (r : Root Meta) (v : Value Meta) (P : Nat → Prop) (p p' : Stage) : Prop :=
  ∃ q t q', Steps (fun i => P i ∧ ¬(Node.value v).Passes i) r.Target p q ∧
    Runs (.value v) q [t] q' ∧ q.Fair r ∧ (∃ u, q.At r u ∧ .value v ∈ u.nodes) ∧
    Steps (fun i => P i ∧ ¬(Node.value v).Passes i) r.Target q' p'

def Covered (r : Root Meta) (P : Nat → Prop) (p p' : Stage) : Node Meta → Prop
  | .value v => Occurs r v P p p'
  | .param q => q.ann.id ∈ p'.progress.done
  | _ => True

/-- What happens between two stages in which the nodes of `N` are dealt with, and the numbers of `A` are
typed in passing. Attributes and methods that are started are dealt with as well. -/
structure Trip (r : Root Meta) (A : Nat → Prop) (N : Node Meta → Prop) (p p' : Stage) : Prop where
  visiting : p'.progress.visiting = p.progress.visiting
  undone : ∀ u ∈ r.units, u.ann.id ∈ p.progress.visiting → u.ann.id ∉ p.progress.done →
    u.ann.id ∉ p'.progress.done
  steps : Steps (Reach r A p p') r.Target p p'
  cover : ∀ n, N n ∨ (∃ u ∈ r.units, ¬p.Started u ∧ p'.Started u ∧ n ∈ u.nodes) →
    Covered r (Reach r A p p') p p' n

section Extend

variable {p₀ p p' p₁ : Stage} {P P' B L : Nat → Prop}

theorem Occurs.extend {v : Value Meta} (h : Occurs r v P p p') (hP : ∀ i, P i → P' i)
    (hBefore : Steps B r.Target p₀ p) (h₀ : ∀ i, B i → P' i ∧ ¬(Node.value v).Passes i)
    (hAfter : Steps L r.Target p' p₁) (h₁ : ∀ i, L i → P' i ∧ ¬(Node.value v).Passes i) :
    Occurs r v P' p₀ p₁ := by
  obtain ⟨q, t, q', hFirst, hRuns, hFair, hAt, hLast⟩ := h
  have hMono (i : Nat) (hi : P i ∧ ¬(Node.value v).Passes i) : P' i ∧ ¬(Node.value v).Passes i :=
    hi.imp_left (hP i)
  exact ⟨q, t, q', (hBefore.mono h₀ fun _ => id).trans (hFirst.mono hMono fun _ => id), hRuns, hFair,
    hAt, (hLast.mono hMono fun _ => id).trans (hAfter.mono h₁ fun _ => id)⟩

namespace Covered

variable {n k : Node Meta}

theorem extend (h : Covered r P p p' n) (hP : ∀ i, P i → P' i)
    (hBefore : Steps B r.Target p₀ p) (hAfter : Steps L r.Target p' p₁)
    (hAway : ∀ v, n = .value v → ∀ i, B i ∨ L i → P' i ∧ ¬(Node.value v).Passes i) :
    Covered r P' p₀ p₁ n := by
  cases n with
  | value v =>
    exact Occurs.extend h hP hBefore (fun i hi => hAway v rfl i (.inl hi)) hAfter
      fun i hi => hAway v rfl i (.inr hi)
  | param q => exact hAfter.later.done h
  | _ => trivial

theorem mono (h : Covered r P p p' n) (hP : ∀ i, P i → P' i) : Covered r P' p p' n :=
  h.extend (B := fun _ => False) (L := fun _ => False) hP (.refl p) (.refl p')
    fun _ _ _ hi => (hi.elim id id).elim

theorem of_bare (hk : k.Bare) (hn : n ∈ k.nodes) : Covered r P p p' n := by
  have h := hk.of_mem hn
  cases n with
  | value | param => exact h.elim
  | _ => trivial

theorem of_param {q : Param Meta} (h : Covered r P p p' (.param q)) (hn : n ∈ (Node.param q).nodes) :
    Covered r P p p' n := by
  rw [Node.nodes_eq, List.mem_cons, List.mem_flatMap] at hn
  obtain rfl | ⟨k, hk, hn⟩ := hn
  · exact h
  · obtain rfl := List.mem_singleton.1 hk
    exact .of_bare (k := .spec q.spec) trivial hn

theorem of_signature {s : Signature Meta} (h : ∀ q ∈ s.params, Covered r P p p' (.param q))
    (hn : n ∈ (Node.signature s).nodes) : Covered r P p p' n := by
  rw [Node.nodes_eq, List.mem_cons, List.mem_flatMap] at hn
  obtain rfl | ⟨k, hk, hn⟩ := hn
  · trivial
  · simp only [Node.children, List.mem_append, List.mem_map, List.mem_singleton] at hk
    obtain (⟨q, _, rfl⟩ | ⟨q, hq, rfl⟩) | rfl := hk
    · exact .of_bare (k := .typeParam q) trivial hn
    · exact .of_param (h q hq) hn
    · exact .of_bare (k := .spec s.result) trivial hn

end Covered

end Extend

/-- The values among some nodes have no numbers but those of `A`. -/
def Encloses (A : Nat → Prop) (N : Node Meta → Prop) : Prop :=
  ∀ v, N (.value v) → ∀ i, (Node.value v).Passes i → A i

theorem Encloses.none : Encloses A fun _ => False := fun _ => False.elim

namespace Trip

variable {A A' B : Nat → Prop} {N N' M : Node Meta → Prop} {p p₁ p₂ : Stage}

theorem later (h : Trip r A N p p₁) : Stage.Later p p₁ := h.steps.later

theorem of_steps (h : Steps (fun i => A i ∨ ¬r.Inner i) r.Target p p₁)
    (hVisiting : p₁.progress.visiting = p.progress.visiting)
    (hDone : ∀ u ∈ r.units, u.ann.id ∈ p₁.progress.done → u.ann.id ∈ p.progress.done) :
    Trip r A (fun _ => False) p p₁ := by
  have hNone (u : Node Meta) (hu : u ∈ r.units) (hNot : ¬p.Started u) : ¬p₁.Started u :=
    fun hStarted => hNot (hStarted.imp (hDone u hu) fun hi => hVisiting ▸ hi)
  refine ⟨hVisiting, fun u hu _ hNot hDone' => hNot (hDone u hu hDone'),
    h.mono (fun _ => Or.imp_right .inl) fun _ => id, fun n hn => ?_⟩
  obtain hFalse | ⟨u, hu, hNot, hStarted, _⟩ := hn
  · exact hFalse.elim
  · exact absurd hStarted (hNone u hu hNot)

theorem refl (p : Stage) : Trip r A (fun _ => False) p p :=
  of_steps (.refl p) rfl fun _ _ => id

theorem mono (h : Trip r A N p p₁) (hA : ∀ i, A i → A' i)
    (hN : ∀ n, N' n → N n ∨ Covered r (Reach r A p p₁) p p₁ n) : Trip r A' N' p p₁ := by
  have hReach (i : Nat) (hi : Reach r A p p₁ i) : Reach r A' p p₁ i := hi.imp_left (hA i)
  refine ⟨h.visiting, h.undone, h.steps.mono hReach fun _ => id, fun n hn => ?_⟩
  obtain hn | hStarted := hn
  · exact ((hN n hn).elim (fun hn => h.cover n (.inl hn)) id).mono hReach
  · exact (h.cover n (.inr hStarted)).mono hReach

theorem seq (hr : r.Sane) (h : Trip r A N p p₁) (h' : Trip r B M p₁ p₂)
    (hA : ∀ i, A i → p.Closed r i) (hB : ∀ i, B i → p.Closed r i)
    (hN : Encloses (fun i => A i ∧ ¬B i) N) (hM : Encloses (fun i => B i ∧ ¬A i) M) :
    Trip r (fun i => A i ∨ B i) (fun n => N n ∨ M n) p p₂ := by
  have hClosed {i : Nat} (hi : p.Closed r i) : p₁.Closed r i := hi.later h.later h.visiting
  have hClosed' {i : Nat} (hi : p₁.Closed r i) : p₂.Closed r i := hi.later h'.later h'.visiting
  have hInner {q : Stage} {i : Nat} (hi : q.Closed r i) : r.Inner i := by
    obtain ⟨u, hu, _, hCarries⟩ := hi
    exact Root.Sane.inner_of_carries hu hCarries
  -- What is typed together with something that has not started is not closed.
  have hOpen {q : Stage} {u : Node Meta} (hu : u ∈ r.units) (hNot : ¬q.Started u) {i : Nat}
      (hi : u.Carries i) : ¬q.Closed r i := by
    rintro ⟨u', hu', hStarted, hi'⟩
    exact hNot (hr.carries_unique hu hu' hi hi' ▸ hStarted)
  have hReach (i : Nat) (hi : Reach r A p p₁ i) : Reach r (fun i => A i ∨ B i) p p₂ i :=
    hi.imp .inl (Or.imp_right fun hi => ⟨hi.1, hClosed' hi.2⟩)
  have hReach' (i : Nat) (hi : Reach r B p₁ p₂ i) : Reach r (fun i => A i ∨ B i) p p₂ i :=
    hi.imp .inr (Or.imp_right fun hi => ⟨fun hp => hi.1 (hClosed hp), hi.2⟩)
  -- The values of the first stretch are left alone on the second, and the other way round.
  have hFirst {v : Value Meta} (hv : N (.value v) ∨ ∃ u ∈ r.units, ¬p.Started u ∧ p₁.Started u ∧
      .value v ∈ u.nodes) (i : Nat) (hi : Reach r B p₁ p₂ i) : ¬(Node.value v).Passes i := by
    intro hPasses
    have hFacts : ¬B i ∧ p₁.Closed r i := by
      obtain hv | ⟨u, hu, hNot, hStarted, hv⟩ := hv
      · obtain ⟨hi, hNot⟩ := hN v hv i hPasses
        exact ⟨hNot, hClosed (hA i hi)⟩
      · have hCarries : u.Carries i := .inl (hPasses.mono hv)
        exact ⟨fun hi => hOpen hu hNot hCarries (hB i hi), u, hu, hStarted, hCarries⟩
    obtain hi | hi | hi := hi
    · exact hFacts.1 hi
    · exact hi (hInner hFacts.2)
    · exact hi.1 hFacts.2
  have hLast {v : Value Meta} (hv : M (.value v) ∨ ∃ u ∈ r.units, ¬p₁.Started u ∧ p₂.Started u ∧
      .value v ∈ u.nodes) (i : Nat) (hi : Reach r A p p₁ i) : ¬(Node.value v).Passes i := by
    intro hPasses
    obtain hv | ⟨u, hu, hNot, _, hv⟩ := hv
    · obtain ⟨hB', hNot⟩ := hM v hv i hPasses
      obtain hi | hi | hi := hi
      · exact hNot hi
      · exact hi (hInner (hB i hB'))
      · exact hi.1 (hB i hB')
    · have hCarries : u.Carries i := .inl (hPasses.mono hv)
      obtain hi | hi | hi := hi
      · exact hOpen hu hNot hCarries (hClosed (hA i hi))
      · exact hi (Root.Sane.inner_of_carries hu hCarries)
      · exact hOpen hu hNot hCarries hi.2
  have hNone (q : Stage) : Steps (fun _ => False) r.Target q q := .refl q
  refine ⟨h'.visiting.trans h.visiting, fun u hu hv hNot => ?_,
    (h.steps.mono hReach fun _ => id).trans (h'.steps.mono hReach' fun _ => id), fun n hn => ?_⟩
  · exact h'.undone u hu (h.visiting.symm ▸ hv) (h.undone u hu hv hNot)
  · have hSplit : (N n ∨ ∃ u ∈ r.units, ¬p.Started u ∧ p₁.Started u ∧ n ∈ u.nodes) ∨
        (M n ∨ ∃ u ∈ r.units, ¬p₁.Started u ∧ p₂.Started u ∧ n ∈ u.nodes) := by
      obtain (hn | hn) | ⟨u, hu, hNot, hStarted, hMem⟩ := hn
      · exact .inl (.inl hn)
      · exact .inr (.inl hn)
      · by_cases hMid : p₁.Started u
        · exact .inl (.inr ⟨u, hu, hNot, hMid, hMem⟩)
        · exact .inr (.inr ⟨u, hu, hMid, hStarted, hMem⟩)
    obtain hn | hn := hSplit
    · refine (h.cover n hn).extend hReach (hNone p) h'.steps fun v hEq i hi => ?_
      exact ⟨hReach' i (hi.resolve_left id), hFirst (hEq ▸ hn) i (hi.resolve_left id)⟩
    · refine (h'.cover n hn).extend hReach' h.steps (hNone p₂) fun v hEq i hi => ?_
      exact ⟨hReach i (hi.resolve_right id), hLast (hEq ▸ hn) i (hi.resolve_right id)⟩

theorem snoc (hr : r.Sane) (h : Trip r A N p p₁) (h' : Trip r B (fun _ => False) p₁ p₂)
    (hA : ∀ i, A i → p.Closed r i) (hB : ∀ i, B i → p.Closed r i)
    (hN : Encloses (fun i => A i ∧ ¬B i) N) : Trip r (fun i => A i ∨ B i) N p p₂ :=
  (h.seq hr h' hA hB hN .none).mono (fun _ => id) fun _ hn => .inl (.inl hn)

end Trip

namespace Part

/-- The numbers of the nodes that are typed in passing with a part. -/
def Passes : Part → Nat → Prop
  | .value v, i => (Node.value v).Passes i
  | .content v, i => (∃ k ∈ (Node.value v).children, k.Passes i) ∨
    (Node.value v).TypedBefore ∧ i = v.ann.id
  | .values vs, i => ∃ v ∈ vs, (Node.value v).Passes i
  | .statement s, i => (Node.statement s).Passes i
  | .statements ss, i => ∃ s ∈ ss, (Node.statement s).Passes i
  | .rest _ ss, i => ∃ s ∈ ss, (Node.statement s).Passes i
  | .params _, _ => False
  | .decl _, _ => False
  | .declaration u, i => u.Carries i

def Nodes : Part → Node Meta → Prop
  | .value v, n => n ∈ (Node.value v).nodes
  | .content v, n => ∃ k ∈ (Node.value v).children, n ∈ k.nodes
  | .values vs, n => ∃ v ∈ vs, n ∈ (Node.value v).nodes
  | .statement s, n => n ∈ (Node.statement s).nodes
  | .statements ss, n => ∃ s ∈ ss, n ∈ (Node.statement s).nodes
  | .rest _ ss, n => ∃ s ∈ ss, n ∈ (Node.statement s).nodes
  | .params qs, n => ∃ q ∈ qs, n = .param q
  | .decl _, _ => False
  | .declaration u, n => n ∈ u.nodes

/-- A part belongs to an attribute or method of a source that is being typed, or is a declaration that
a reference in one can mean. -/
def Own (r : Root Meta) (p : Stage) : Part → Prop
  | .value v => ∃ u, p.At r u ∧ .value v ∈ u.nodes
  | .content v => ∃ u, p.At r u ∧ .value v ∈ u.nodes
  | .values vs => ∃ u, p.At r u ∧ (∀ v ∈ vs, .value v ∈ u.nodes) ∧
    ((vs.map Node.value).flatMap Node.ids).Nodup
  | .statement s => ∃ u, p.At r u ∧ .statement s ∈ u.nodes
  | .statements ss => ∃ u, p.At r u ∧ (∀ s ∈ ss, .statement s ∈ u.nodes) ∧
    ((ss.map Node.statement).flatMap Node.ids).Nodup ∧ Statement.Closes ss
  | .rest _ ss => ∃ u, p.At r u ∧ (∀ s ∈ ss, .statement s ∈ u.nodes) ∧
    ((ss.map Node.statement).flatMap Node.ids).Nodup ∧ Statement.Closes ss
  | .params qs => ∀ q ∈ qs, .param q ∈ (Node.root r).nodes
  | .decl n => r.Target n ∧
    (n ∈ r.units → ∀ u ∈ r.units, u.ann.id ∈ p.progress.visiting → p.Reaches u n)
  | .declaration u => p.At r u

variable {p p' : Stage} {a : Part}

theorem Own.later (ha : a.Own r p) (h : Stage.Later p p')
    (hVisiting : p'.progress.visiting = p.progress.visiting) : a.Own r p' := by
  cases a with
  | value | content | statement =>
    obtain ⟨u, hu, hMem⟩ := ha
    exact ⟨u, hu.later h hVisiting, hMem⟩
  | values | statements | rest =>
    obtain ⟨u, hu, hMem⟩ := ha
    exact ⟨u, hu.later h hVisiting, hMem⟩
  | params => exact ha
  | decl n =>
    exact ⟨ha.1, fun hn u hu hv => (ha.2 hn u hu (hVisiting ▸ hv)).later h⟩
  | declaration => exact Stage.At.later ha h hVisiting

theorem Own.closed (ha : a.Own r p) (hi : a.Passes i) : p.Closed r i := by
  cases a with
  | value v | statement s =>
    obtain ⟨u, hu, hMem⟩ := ha
    exact hu.closed (.inl (hi.mono hMem))
  | content v =>
    obtain ⟨u, hu, hMem⟩ := ha
    obtain ⟨k, hk, hi⟩ | ⟨_, rfl⟩ := hi
    · exact hu.closed (.inl (hi.mono (Node.mem_nodes_of_child hMem hk)))
    · exact hu.closed (.inl ⟨_, hMem, trivial, rfl⟩)
  | values vs =>
    obtain ⟨u, hu, hMem, _⟩ := ha
    obtain ⟨v, hv, hi⟩ := hi
    exact hu.closed (.inl (hi.mono (hMem v hv)))
  | statements ss | rest _ ss =>
    obtain ⟨u, hu, hMem, _⟩ := ha
    obtain ⟨s, hs, hi⟩ := hi
    exact hu.closed (.inl (hi.mono (hMem s hs)))
  | params | decl => exact hi.elim
  | declaration u => exact Stage.At.closed ha hi

theorem encloses (a : Part) : Encloses a.Passes a.Nodes := by
  intro v hv i hi
  cases a with
  | value | statement => exact hi.mono hv
  | content =>
    obtain ⟨k, hk, hMem⟩ := hv
    exact .inl ⟨k, hk, hi.mono hMem⟩
  | values | statements | rest =>
    obtain ⟨k, hk, hMem⟩ := hv
    exact ⟨k, hk, hi.mono hMem⟩
  | params =>
    obtain ⟨q, _, hEq⟩ := hv
    exact nomatch hEq
  | decl => exact hv.elim
  | declaration => exact .inl (hi.mono hv)

end Part

theorem Runs.decl_type (h : Runs (.decl n) p [t] p') : t = p'.store.typeOf? n.ann.id := by
  cases h <;> rfl

theorem Runs.done_decl (h : Runs (.decl n) p [t] p') (hn : n.ann.id ∉ p.progress.visiting) :
    n.ann.id ∈ p'.progress.done := by
  cases h with
  | known hKnown => exact hKnown.resolve_right hn
  | decl =>
    rw [Stage.done_close]
    exact List.mem_cons_self

namespace Stage

variable {P : Nat → Prop} {Q : Node Meta → Prop} {p p' : Stage} {i : Nat}

theorem Step.done (h : Step P Q p p') (hi : i ∈ p'.progress.done) :
    i ∈ p.progress.done ∨ P i ∨ ∃ n, Q n ∧ n.ann.id = i := by
  cases h with
  | narrow | grow | enter | start => exact .inl hi
  | note | report | widen => exact .inl (by simpa using hi)
  | finish hP | leave hP =>
    obtain rfl | hi := List.mem_cons.1 hi
    · exact .inr (.inl hP)
    · exact .inl hi
  | @close n t hQ =>
    rw [done_close] at hi
    obtain rfl | hi := List.mem_cons.1 hi
    · exact .inr (.inr ⟨n, hQ, rfl⟩)
    · exact .inl hi

theorem Steps.done (h : Steps P Q p p') (hi : i ∈ p'.progress.done) :
    i ∈ p.progress.done ∨ P i ∨ ∃ n, Q n ∧ n.ann.id = i := by
  induction h with
  | refl => exact .inl hi
  | tail _ h ih => exact (h.done hi).elim ih .inr

theorem Fair.own_decl (hp : p.Fair r) {u : Node Meta} (hu : p.At r u)
    (hRef : .reference ref ∈ u.nodes) (hTarget : p.target? ref = some n) : (Part.decl n).Own r p :=
  ⟨(hp.targets.target? hTarget).1,
    fun _ k hk hv => (hu.reached k hk hv).tail ⟨ref, hRef, hTarget⟩⟩

end Stage

/-- A stretch of the way on which nothing is dealt with. -/
abbrev Idle (r : Root Meta) (A : Nat → Prop) (p p' : Stage) : Prop :=
  Trip r A (fun _ => False) p p'

/-- A stretch of the way on which a part is dealt with. -/
abbrev Part.Trip (r : Root Meta) (a : Part) (p p' : Stage) : Prop :=
  Infer.Trip r a.Passes a.Nodes p p'

namespace Trip

variable {p p₁ p₂ : Stage} {a b : Part} {v : Value Meta} {u : Node Meta}

theorem of_one (hr : r.Sane)
    (h : Steps (fun j => j = i ∨ ¬r.Inner j) (fun n => r.Target n ∧ n.ann.id = i) p p₁)
    (hVisiting : p₁.progress.visiting = p.progress.visiting) (hi : p.Closed r i) :
    Idle r (· = i) p p₁ := by
  obtain ⟨u', hu', _, hCarries⟩ := hi
  refine of_steps (h.mono (fun _ => id) fun _ => And.left) hVisiting fun u hu hDone => ?_
  obtain hDone | (rfl | hNot) | ⟨n, ⟨_, hn⟩, hId⟩ := h.done hDone
  · exact hDone
  · exact absurd hCarries (hr.not_carries hu' (.inl hu))
  · exact absurd (Root.Sane.inner_unit hu) hNot
  · exact absurd (hn ▸ hCarries) (hId ▸ hr.not_carries hu' (.inl hu))

theorem of_other (h : Steps (¬r.Inner ·) (Node.Within (¬r.Inner ·)) p p₁)
    (hVisiting : p₁.progress.visiting = p.progress.visiting) :
    Idle r (fun _ => False) p p₁ := by
  refine of_steps (h.mono (fun _ => .inr) fun _ => .inl) hVisiting fun u hu hDone => ?_
  obtain hDone | hNot | ⟨n, hn, hId⟩ := h.done hDone
  · exact hDone
  · exact absurd (Root.Sane.inner_unit hu) hNot
  · exact absurd (Root.Sane.inner_unit hu) (hId ▸ hn.1)

theorem one (hr : r.Sane) (h : a.Trip r p p₁) (ha : a.Own r p)
    (h' : Steps (fun j => j = i ∨ ¬r.Inner j) (fun n => r.Target n ∧ n.ann.id = i) p₁ p₂)
    (hVisiting : p₂.progress.visiting = p₁.progress.visiting) (hi : p.Closed r i)
    (hNot : ∀ v, a.Nodes (.value v) → i ∉ (Node.value v).ids) :
    Trip r (fun j => a.Passes j ∨ j = i) a.Nodes p p₂ := by
  refine h.snoc hr (of_one hr h' hVisiting (hi.later h.later h.visiting)) (fun _ => ha.closed)
    (fun _ hj => hj ▸ hi) fun v hv j hj => ⟨a.encloses v hv j hj, ?_⟩
  rintro rfl
  exact hNot v hv hj.mem_ids

theorem idle (hr : r.Sane) (h : a.Trip r p p₁) (ha : a.Own r p) (h' : Idle r (fun _ => False) p₁ p₂) :
    a.Trip r p p₂ :=
  (h.snoc hr h' (fun _ => ha.closed) (fun _ => False.elim)
    fun v hv i hi => ⟨a.encloses v hv i hi, id⟩).mono (fun _ hi => hi.resolve_right id) fun _ => .inl

theorem comp (hr : r.Sane) (h : a.Trip r p p₁) (h' : p₁.Fair r → b.Own r p₁ → b.Trip r p₁ p₂)
    (hp : p.Fair r) (ha : a.Own r p) (hb : b.Own r p) (hab : ∀ i, a.Passes i → ¬b.Passes i) :
    Trip r (fun i => a.Passes i ∨ b.Passes i) (fun n => a.Nodes n ∨ b.Nodes n) p p₂ := by
  refine h.seq hr (h' (hp.later h.later h.visiting) (hb.later h.later h.visiting))
    (fun _ => ha.closed) (fun _ => hb.closed) (fun v hv i hi => ?_) fun v hv i hi => ?_
  · have hi := a.encloses v hv i hi
    exact ⟨hi, hab i hi⟩
  · have hi := b.encloses v hv i hi
    exact ⟨hi, fun hi' => hab i hi' hi⟩

theorem value (hr : r.Sane) (h : Runs (.content v) p [t] p₁) (hTrip : (Part.content v).Trip r p p₁)
    (hp : p.Fair r) (ha : (Part.value v).Own r p) :
    (Part.value v).Trip r p (p₁.note v.ann.id t) := by
  obtain ⟨u, hu, hMem⟩ := ha
  have hNodup := hr.ids_nodup hu.unit hMem
  refine (hTrip.one hr ⟨u, hu, hMem⟩ (Step.note (.inl rfl) t).steps (by simp) (hu.closed (.inl ⟨_, hMem, trivial, rfl⟩))
    fun v' hv' => ?_).mono (fun i hi => ?_) fun n hn => ?_
  · obtain ⟨k, hk, hv'⟩ := hv'
    exact fun hId => Node.id_notMem_of_child hNodup hk ((Node.ids_sublist hv').subset hId)
  · obtain (⟨k, hk, hi⟩ | ⟨_, rfl⟩) | rfl := hi
    · exact hi.mono (Node.mem_nodes_child hk)
    · exact Node.passes_self (n := .value v) trivial
    · exact Node.passes_self (n := .value v) trivial
  · rw [Part.Nodes, Node.nodes_eq, List.mem_cons, List.mem_flatMap] at hn
    obtain rfl | hn := hn
    · exact .inr ⟨p, t, _, .refl p, .value h, hp, ⟨u, hu, hMem⟩, .refl _⟩
    · exact .inl hn

theorem other (h : Runs (.decl n) p [t] p₁) (hp : p.Fair r) (hn : n.Within (¬r.Inner ·)) :
    Idle r (fun _ => False) p p₁ :=
  .of_other (h.steps (fun _ => id) hn fun i symbols hRefs symbol hs n hDecl hi =>
    (hp.targets i symbols hRefs symbol hs n hDecl).2 hi) h.visiting

theorem isLocal (hr : r.Sane) (hDone : n.ann.id ∉ p.progress.done)
    (hVisiting : n.ann.id ∉ p.progress.visiting)
    (h : Runs (.declaration n) (p.enter n.ann.id) [t] p₁) (hn : n ∈ (Node.root r).nodes)
    (hLocal : n.IsLocal) : Idle r (fun _ => False) p (p₁.close n t) := by
  have hEnd : p₁ = p.enter n.ann.id ∧
      (n.TypedBefore → t = (p.enter n.ann.id).store.typeOf? n.ann.id) := by
    cases h with
    | param => exact ⟨rfl, False.elim⟩
    | typed => exact ⟨rfl, fun _ => rfl⟩
    | untyped hType =>
      cases n with
      | value v => cases v <;> first | exact hLocal.elim | exact hType.elim
      | param => exact hType.elim
      | _ => exact hLocal.elim
    | _ => exact hLocal.elim
  obtain ⟨rfl, hBefore⟩ := hEnd
  have hTarget : r.Target n := .inr (.inr ⟨hn, hLocal⟩)
  refine .of_steps ((Step.start hTarget).steps.tail (.close hTarget hDone hBefore))
    (Runs.decl hDone hVisiting h).visiting fun u hu hDone' => ?_
  rw [Stage.done_close] at hDone'
  obtain hId | hDone' := List.mem_cons.1 hDone'
  · obtain rfl := hr.eq_of_id (Root.mem_nodes_of_units hu) hn hId
    exact absurd hLocal (Root.Sane.not_isLocal hu)
  · exact hDone'

theorem unit (hr : r.Sane) (hDone : u.ann.id ∉ p.progress.done)
    (hVisiting : u.ann.id ∉ p.progress.visiting)
    (h : Runs (.declaration u) (p.enter u.ann.id) [t] p₁) (ih : (p.enter u.ann.id).Fair r →
      (Part.declaration u).Own r (p.enter u.ann.id) → (Part.declaration u).Trip r (p.enter u.ann.id)
      p₁) (hp : p.Fair r) (hu : u ∈ r.units)
    (hReached : ∀ k ∈ r.units, k.ann.id ∈ p.progress.visiting → p.Reaches k u) :
    Idle r (fun _ => False) p (p₁.close u t) := by
  have hTarget : r.Target u := .inr (.inl hu)
  have hStart : Step (fun _ => False) r.Target p (p.enter u.ann.id) := .start hTarget
  have hFair : (p.enter u.ann.id).Fair r := by
    refine ⟨hStart.later.targets hp.targets, fun q hq hMem => ?_⟩
    obtain hId | hMem := List.mem_cons.1 hMem
    · exact Root.Sane.not_isLocal hu (hr.eq_of_id hq (Root.mem_nodes_of_units hu) hId ▸ trivial)
    · exact hp.clean q hq hMem
  have hAt : (p.enter u.ann.id).At r u := by
    refine ⟨hu, List.mem_cons_self, fun k hk hMem => ?_⟩
    obtain hId | hMem := List.mem_cons.1 hMem
    · obtain rfl := hr.eq_of_id (Root.mem_nodes_of_units hk) (Root.mem_nodes_of_units hu) hId
      exact .refl
    · exact (hReached k hk hMem).later hStart.later
  have hTrip := ih hFair hAt
  have hEnd : (p₁.close u t).progress.visiting = p.progress.visiting :=
    (Runs.decl hDone hVisiting h).visiting
  have hUndone : u.ann.id ∉ p₁.progress.done := hTrip.undone u hu List.mem_cons_self hDone
  have hClose : Step (fun _ => False) r.Target p₁ (p₁.close u t) :=
    .close hTarget hUndone fun hBefore => absurd hBefore (Root.Sane.not_typedBefore hu)
  -- What has started in between has started before the start and after the end, this one apart.
  have hBetween {k : Node Meta} (hk : k ∈ r.units) (hNe : k ≠ u) :
      ((p.enter u.ann.id).Started k → p.Started k) ∧ ((p₁.close u t).Started k ↔ p₁.Started k) := by
    have hId : k.ann.id ≠ u.ann.id := fun hId =>
      hNe (hr.eq_of_id (Root.mem_nodes_of_units hk) (Root.mem_nodes_of_units hu) hId)
    have hMid : k.ann.id ∈ p₁.progress.visiting ↔ k.ann.id ∈ p.progress.visiting := by
      rw [hTrip.visiting, Stage.enter, List.mem_cons, or_iff_right hId]
    refine ⟨Or.imp_right fun hMem => (List.mem_cons.1 hMem).resolve_left hId, ?_⟩
    rw [Stage.Started, Stage.Started, hEnd, hMid, Stage.done_close, List.mem_cons, or_iff_right hId]
  have hEnded : (p₁.close u t).Started u := .inl (Stage.done_close p₁ u t ▸ List.mem_cons_self)
  have hNot : ¬p.Started u := fun hStarted => hStarted.elim hDone hVisiting
  have hReach (i : Nat) (hi : Reach r u.Carries (p.enter u.ann.id) p₁ i) :
      Reach r (fun _ => False) p (p₁.close u t) i := by
    refine .inr ?_
    obtain hi | hi | ⟨hi, k, hk, hStarted, hCarries⟩ := hi
    · refine .inr ⟨?_, u, hu, hEnded, hi⟩
      rintro ⟨k, hk, hStarted, hi'⟩
      exact hNot (hr.carries_unique hu hk hi hi' ▸ hStarted)
    · exact .inl hi
    · have hNe : k ≠ u := fun hEq => hi ⟨u, hu, .inr List.mem_cons_self, hEq ▸ hCarries⟩
      refine .inr ⟨fun hClosed => hi ?_, k, hk, ((hBetween hk hNe).2).2 hStarted, hCarries⟩
      obtain ⟨k, hk, hStarted, hCarries⟩ := hClosed
      exact ⟨k, hk, hStarted.imp id (List.mem_cons_of_mem _), hCarries⟩
  refine ⟨hEnd, fun k hk hv hk' => ?_, ?_, fun n hn => ?_⟩
  · rw [Stage.done_close, List.mem_cons, not_or]
    exact ⟨fun hId => hVisiting (hId ▸ hv), hTrip.undone k hk (List.mem_cons_of_mem _ hv) hk'⟩
  · exact ((hStart.mono (fun _ => False.elim) fun _ => id).steps.trans (hTrip.steps.mono hReach
      fun _ => id)).tail (hClose.mono (fun _ => False.elim) fun _ => id)
  · have hCover : Covered r (Reach r u.Carries (p.enter u.ann.id) p₁) (p.enter u.ann.id) p₁ n := by
      obtain hFalse | ⟨k, hk, hBefore, hAfter, hMem⟩ := hn
      · exact hFalse.elim
      by_cases hEq : k = u
      · exact hTrip.cover n (.inl (hEq ▸ hMem))
      · exact hTrip.cover n (.inr ⟨k, hk, fun hStarted => hBefore ((hBetween hk hEq).1 hStarted),
          ((hBetween hk hEq).2).1 hAfter, hMem⟩)
    exact hCover.extend hReach hStart.steps hClose.steps
      fun _ _ _ hFalse => (hFalse.elim id id).elim

theorem content {N : Node Meta → Prop} (h : Trip r A N p p₁)
    (hA : ∀ i, A i → (Part.content v).Passes i) (hN : ∀ k ∈ (Node.value v).children, k.Bare ∨ ∀ n ∈
      k.nodes, N n ∨ Covered r (Reach r A p p₁) p p₁ n) : (Part.content v).Trip r p p₁ := by
  refine h.mono hA ?_
  rintro n ⟨k, hk, hn⟩
  exact (hN k hk).elim (fun hBare => .inr (.of_bare hBare hn)) fun hAll => hAll n hn

theorem declaration {N : Node Meta → Prop} (h : Trip r A N p p₁) (hu : u ∈ r.units)
    (hA : ∀ i, A i → u.Carries i)
    (hN : ∀ k ∈ u.children, k.Bare ∨ ∀ n ∈ k.nodes, N n ∨ Covered r (Reach r A p p₁) p p₁ n) :
    (Part.declaration u).Trip r p p₁ := by
  refine h.mono hA fun n hn => ?_
  rw [Part.Nodes, Node.nodes_eq, List.mem_cons, List.mem_flatMap] at hn
  obtain rfl | ⟨k, hk, hn⟩ := hn
  · obtain ⟨_, rfl⟩ | ⟨_, rfl⟩ | ⟨⟨_, rfl⟩, _⟩ := Root.units_cases hu <;> exact .inr trivial
  · exact (hN k hk).elim (fun hBare => .inr (.of_bare hBare hn)) fun hAll => hAll n hn

end Trip

section Course

variable {p p₁ p₂ : Stage} {u : Node Meta}

theorem Part.own_args (hr : r.Sane) (hu : p.At r u)
    (hMem : .value (.call m ref types args) ∈ u.nodes) : (Part.values args).Own r p := by
  refine ⟨u, hu, fun v hv => Node.mem_nodes_of_child hMem (by simp [Node.children, hv]), ?_⟩
  exact Node.nodup_of_sublist (hr.ids_nodup hu.unit hMem) (List.sublist_append_right _ _)

theorem Part.ref_notMem_args (hr : r.Sane) (hu : u ∈ r.units)
    (hMem : .value (.call m ref types args) ∈ u.nodes) (v : Value Meta)
    (hv : (Part.values args).Nodes (.value v)) : ref.ann.id ∉ (Node.value v).ids := by
  obtain ⟨arg, hArg, hv⟩ := hv
  have hSub : [Node.reference ref, .value arg].Sublist (Node.value (.call m ref types args)).children :=
    .cons_cons _ (List.singleton_sublist.2 (by simp [hArg]))
  exact fun hId => Node.notMem_of_sublist (hr.ids_nodup hu hMem) hSub
    (List.mem_map_of_mem (Node.self_mem_nodes (.reference ref))) ((Node.ids_sublist hv).subset hId)

theorem Trip.call (hr : r.Sane) (hu : p.At r u) (hMem : .value (.call m ref types args) ∈ u.nodes)
    (hArgs : (Part.values args).Trip r p p₁)
    (hRef : p₁.Closed r ref.ann.id → Idle r (· = ref.ann.id) p₁ p₂) :
    (Part.content (.call m ref types args)).Trip r p p₂ := by
  have hOwn := Part.own_args hr hu hMem
  have hMemRef : .reference ref ∈ u.nodes := Node.mem_nodes_of_child hMem (by simp [Node.children])
  have hClosed : p.Closed r ref.ann.id := hu.closed (.inl ⟨_, hMemRef, trivial, rfl⟩)
  refine (hArgs.snoc hr (hRef (hClosed.later hArgs.later hArgs.visiting)) (fun _ => hOwn.closed)
    (fun _ hi => hi ▸ hClosed) fun v hv i hi => ⟨Part.encloses _ v hv i hi, ?_⟩).content ?_
    fun k hk => ?_
  · rintro rfl
    exact Part.ref_notMem_args hr hu.unit hMem v hv hi.mem_ids
  · rintro i (⟨v, hv, hi⟩ | rfl)
    · exact .inl ⟨.value v, by simp [Node.children, hv], hi⟩
    · exact .inl ⟨.reference ref, by simp [Node.children],
        Node.passes_self (n := .reference ref) trivial⟩
  · simp only [Node.children, List.mem_append, List.mem_cons, List.mem_map] at hk
    obtain (rfl | ⟨s, _, rfl⟩) | ⟨v, hv, rfl⟩ := hk
    · exact .inl trivial
    · exact .inl trivial
    · exact .inr fun n hn => .inl ⟨v, hv, hn⟩

theorem Trip.rest (hr : r.Sane) {lasts lasts' : List Spec} {s : Statement Meta}
    {ss : List (Statement Meta)} (h : (Part.statement s).Own r p → (Part.statement s).Trip r p p₁)
    (hRest : p₁.Fair r → (Part.rest lasts' ss).Own r p₁ → (Part.rest lasts' ss).Trip r p₁ p₂)
    (hp : p.Fair r) (ha : (Part.rest lasts (s :: ss)).Own r p) :
    (Part.rest lasts (s :: ss)).Trip r p p₂ := by
  obtain ⟨u, hu, hMem, hNodup, hCloses⟩ := ha
  rw [List.map_cons, List.flatMap_cons, List.nodup_append] at hNodup
  have hOwn : (Part.statement s).Own r p := ⟨u, hu, hMem s List.mem_cons_self⟩
  have hOwn' : (Part.rest lasts' ss).Own r p := by
    refine ⟨u, hu, fun s hs => hMem s (List.mem_cons_of_mem _ hs), hNodup.2.1, ?_⟩
    exact fun before s' after hEq => hCloses (s :: before) s' after (congrArg (s :: ·) hEq)
  refine ((h hOwn).comp hr hRest hp hOwn hOwn' ?_).mono ?_ ?_
  · rintro i hi ⟨s', hs', hi'⟩
    exact hNodup.2.2 i hi.mem_ids i
      (List.mem_flatMap.2 ⟨_, List.mem_map_of_mem hs', hi'.mem_ids⟩) rfl
  · rintro i (hi | ⟨s', hs', hi⟩)
    · exact ⟨s, List.mem_cons_self, hi⟩
    · exact ⟨s', List.mem_cons_of_mem _ hs', hi⟩
  · rintro n ⟨s', hs', hn⟩
    obtain rfl | hs' := List.mem_cons.1 hs'
    · exact .inl (.inl hn)
    · exact .inl (.inr ⟨s', hs', hn⟩)

end Course

theorem Runs.trip (hr : r.Sane) {a : Part} {ts : List (Option Spec)} (h : Runs a p ts p')
    (hp : p.Fair r) (ha : a.Own r p) : a.Trip r p p' := by
  induction h with
  | value h ih => exact .value hr h (ih hp ha) hp ha
  | literal hName =>
    rename_i v _ _
    have hNone : (Node.value v).children = [] := by
      cases v <;> first | rfl | cases hName
    exact (Trip.of_other (Stage.fresh_named_step _ _).steps rfl).content (fun _ => False.elim)
      (by simp [hNone])
  | unknownIdent =>
    exact (Trip.refl _).content (A := fun _ => False) (fun _ => False.elim)
      (by simp [Node.children, Node.Bare])
  | @ident m ref n p p' t hTarget h ih =>
    obtain ⟨u, hu, hMem⟩ := ha
    have hRef : .reference ref ∈ u.nodes := Node.mem_nodes_of_child hMem (by simp [Node.children])
    have hOwn := hp.own_decl hu hRef hTarget
    refine ((ih hp hOwn).one hr hOwn (Step.note (.inl rfl) t).steps (by simp)
      (hu.closed (.inl ⟨_, hRef, trivial, rfl⟩)) fun _ => False.elim).content ?_ ?_
    · rintro i (hi | rfl)
      · exact hi.elim
      · exact .inl ⟨_, List.mem_singleton_self _, Node.passes_self (n := .reference ref) trivial⟩
    · simp [Node.children, Node.Bare]
  | @bind m mode name s v p p' t h ih =>
    obtain ⟨u, hu, hMem⟩ := ha
    have hNodup := hr.ids_nodup hu.unit hMem
    have hOwn : (Part.value v).Own r p :=
      ⟨u, hu, Node.mem_nodes_of_child hMem (by simp [Node.children])⟩
    have hTarget : r.Target (.value (.bind m mode name s v)) :=
      .inr (.inr ⟨Node.nodes_subset (Root.mem_nodes_of_units hu.unit) hMem, trivial⟩)
    have hSteps : Steps (fun j => j = m.id ∨ ¬r.Inner j) (fun n => r.Target n ∧ n.ann.id = m.id) p'
        ((p'.needed (.value (.bind m mode name s v)) (written s t)).finish m.id) :=
      (Stage.needed_steps (n := .value (.bind m mode name s v)) (.inl rfl) ⟨hTarget, rfl⟩ trivial
        _).tail (.finish (.inl rfl))
    refine ((ih hp hOwn).one hr hOwn hSteps (by simp [Stage.finish])
      (hu.closed (.inl ⟨_, hMem, trivial, rfl⟩)) fun v' hv' hId => ?_).content ?_ ?_
    · exact Node.id_notMem_of_child hNodup (k := .value v) (by simp [Node.children])
        ((Node.ids_sublist hv').subset hId)
    · rintro i (hi | rfl)
      · exact .inl ⟨.value v, by simp [Node.children], hi⟩
      · exact .inr ⟨trivial, rfl⟩
    · simp +contextual [Node.children, Node.Bare, Part.Nodes]
  | @assignUnknown m ref v p p' t h _ ih =>
    obtain ⟨u, hu, hMem⟩ := ha
    exact (ih hp ⟨u, hu, Node.mem_nodes_of_child hMem (by simp [Node.children])⟩).content
      (fun i hi => .inl ⟨.value v, by simp [Node.children], hi⟩)
      (by simp +contextual [Node.children, Node.Bare, Part.Nodes])
  | @assign m ref v n p p₁ p₂ t old h hTarget hDecl ih ihDecl =>
    obtain ⟨u, hu, hMem⟩ := ha
    have hRef : .reference ref ∈ u.nodes := Node.mem_nodes_of_child hMem (by simp [Node.children])
    have hOwn : (Part.value v).Own r p :=
      ⟨u, hu, Node.mem_nodes_of_child hMem (by simp [Node.children])⟩
    have hTrip := ih hp hOwn
    have hp₁ := hp.later hTrip.later hTrip.visiting
    have hOwn' := hp₁.own_decl (hu.later hTrip.later hTrip.visiting) hRef hTarget
    have hWiden : Idle r (fun _ => False) p₂ (p₂.widen n t old) := by
      refine .of_steps ?_ (by simp) (by simp)
      obtain hOther | hDeclares := hOwn'.1
      · exact Stage.widen_steps (.inr hOther.1) t old
      · cases old with
        | none => exact .refl _
        | some old => exact (Step.widen (.inr hDeclares) hDecl.decl_type.symm t).steps
    exact (hTrip.idle hr hOwn ((ihDecl hp₁ hOwn').idle hr hOwn' hWiden)).content
      (fun i hi => .inl ⟨.value v, by simp [Node.children], hi⟩)
      (by simp +contextual [Node.children, Node.Bare, Part.Nodes])
  | @assignMember m receiver v ref p p₁ p₂ t₁ t hReceiver h ihReceiver ih =>
    obtain ⟨u, hu, hMem⟩ := ha
    have hNodup := hr.ids_nodup hu.unit hMem
    have hOwn : (Part.value receiver).Own r p :=
      ⟨u, hu, Node.mem_nodes_of_child hMem (by simp [Node.children])⟩
    have hOwn' : (Part.value v).Own r p :=
      ⟨u, hu, Node.mem_nodes_of_child hMem (by simp [Node.children])⟩
    refine ((ihReceiver hp hOwn).comp hr ih hp hOwn hOwn' fun i hi hi' => ?_).content ?_ ?_
    · exact Node.notMem_of_sublist hNodup (k := .value receiver) (j := .value v)
        (.cons_cons _ (.cons _ (.refl _))) hi.mem_ids hi'.mem_ids
    · rintro i (hi | hi)
      · exact .inl ⟨.value receiver, by simp [Node.children], hi⟩
      · exact .inl ⟨.value v, by simp [Node.children], hi⟩
    · simp +contextual [Node.children, Node.Bare, Part.Nodes]
  | @unknownCall m ref types args p p₁ ts hArgs _ ih =>
    obtain ⟨u, hu, hMem⟩ := ha
    exact .call hr hu hMem (ih hp (Part.own_args hr hu hMem)) fun _ => .refl p₁
  | refusedCall hArgs _ _ ih =>
    obtain ⟨u, hu, hMem⟩ := ha
    refine .call hr hu hMem (ih hp (Part.own_args hr hu hMem)) fun hRef => ?_
    exact .of_one hr (Step.report (.inl rfl) (.noAlternatives _) (by intro h; cases h)).steps (by simp) hRef
  | ambiguousCall hArgs _ _ _ ih =>
    obtain ⟨u, hu, hMem⟩ := ha
    refine .call hr hu hMem (ih hp (Part.own_args hr hu hMem)) fun hRef => ?_
    exact .of_one hr (Step.report (.inl rfl) (.tooManyAlternatives _ _) (by intro h; cases h)).steps (by simp) hRef
  | @call m ref types args p p₁ p₂ ts symbols one t hArgs hRefs hMatching hDecl ihArgs ihDecl =>
    obtain ⟨u, hu, hMem⟩ := ha
    have hTrip := ihArgs hp (Part.own_args hr hu hMem)
    refine .call hr hu hMem hTrip fun hRef => ?_
    obtain ⟨hs, hNode, -⟩ := mem_of_matching_one hMatching (List.mem_singleton_self one)
    have hFirst : Idle r (· = ref.ann.id) p₁ (p₁.narrow ref.ann.id one.symbol) :=
      .of_one hr (Step.narrow (.inl rfl) hRefs hs).steps rfl hRef
    have hp₁ := (hp.later hTrip.later hTrip.visiting).later hFirst.later hFirst.visiting
    have hu₁ := (hu.later hTrip.later hTrip.visiting).later hFirst.later hFirst.visiting
    have hTarget : (p₁.narrow ref.ann.id one.symbol).target? ref = some one.node := by
      rw [Stage.target?, Stage.narrow, Store.refsOf?_setRefs_self]
      exact hNode
    have hOwn := hp₁.own_decl hu₁ (Node.mem_nodes_of_child hMem (by simp [Node.children])) hTarget
    have hThen := (ihDecl hp₁ hOwn).one hr hOwn (Step.note (.inl rfl) t).steps (by simp)
      (hRef.later hFirst.later hFirst.visiting) fun _ => False.elim
    refine (hFirst.snoc hr hThen (fun _ hi => hi ▸ hRef) (fun i hi => ?_) .none).mono ?_ fun _ => .inl
    · obtain hi | rfl := hi
      · exact hi.elim
      · exact hRef
    · rintro i (hi | hi | hi)
      · exact hi
      · exact hi.elim
      · exact hi
  | @nested m outer inner p p₁ p₂ t₁ t hOuter hInner ihOuter ihInner =>
    obtain ⟨u, hu, hMem⟩ := ha
    have hNodup := hr.ids_nodup hu.unit hMem
    have hOwn : (Part.value outer).Own r p :=
      ⟨u, hu, Node.mem_nodes_of_child hMem (by simp [Node.children])⟩
    have hOwn' : (Part.value inner).Own r p :=
      ⟨u, hu, Node.mem_nodes_of_child hMem (by simp [Node.children])⟩
    refine ((ihOuter hp hOwn).comp hr ihInner hp hOwn hOwn' fun i hi hi' => ?_).content ?_ ?_
    · exact Node.notMem_of_sublist hNodup (k := .value outer) (j := .value inner) (.refl _)
        hi.mem_ids hi'.mem_ids
    · rintro i (hi | hi)
      · exact .inl ⟨.value outer, by simp [Node.children], hi⟩
      · exact .inl ⟨.value inner, by simp [Node.children], hi⟩
    · simp +contextual [Node.children, Part.Nodes]
  | @function m typeParams ps result body p p₁ p₂ t hParams hBody ihParams ihBody =>
    obtain ⟨u, hu, hMem⟩ := ha
    have hRoot := Node.nodes_subset (Root.mem_nodes_of_units hu.unit) hMem
    have hOwn : (Part.params ps).Own r p :=
      fun q hq => Node.mem_nodes_of_child hRoot (by simp [Node.children, hq])
    have hOwn' : (Part.statements body).Own r p := by
      refine ⟨u, hu, fun s hs => Node.mem_nodes_of_child hMem (by simp [Node.children, hs]), ?_,
        hr.closes _ hRoot⟩
      exact Node.nodup_of_sublist (hr.ids_nodup hu.unit hMem) (List.sublist_append_right _ _)
    have hLast : Idle r (fun _ => False) p₂
        (p₂.fresh (named (librarySpace ++ "." ++ "Function"))).2 :=
      .of_other (Stage.fresh_named_step _ _).steps rfl
    refine ((ihParams hp hOwn).comp hr (b := .statements body) (fun hp₁ ha₁ =>
      (ihBody hp₁ ha₁).idle hr ha₁ hLast) hp hOwn hOwn' fun _ => False.elim).content ?_
      fun k hk => ?_
    · rintro i (hi | ⟨s, hs, hi⟩)
      · exact hi.elim
      · exact .inl ⟨.statement s, by simp [Node.children, hs], hi⟩
    · simp only [Node.children, List.mem_append, List.mem_map, List.mem_singleton] at hk
      obtain ((⟨q, _, rfl⟩ | ⟨q, hq, rfl⟩) | rfl) | ⟨s, hs, rfl⟩ := hk
      · exact .inl trivial
      · refine .inr fun n hn => .inr (.of_param ?_ hn)
        exact hLast.later.done (hBody.later.done ((ihParams hp hOwn).cover (.param q)
          (.inl ⟨q, hq, rfl⟩)))
      · exact .inl trivial
      · exact .inr fun n hn => .inl (.inr ⟨s, hs, hn⟩)
  | noValues =>
    exact (Trip.refl _).mono (fun _ => id) (by simp [Part.Nodes])
  | @values v vs p p₁ p₂ t ts h hRest ih ihRest =>
    obtain ⟨u, hu, hMem, hNodup⟩ := ha
    rw [List.map_cons, List.flatMap_cons, List.nodup_append] at hNodup
    have hOwn : (Part.value v).Own r p := ⟨u, hu, hMem v List.mem_cons_self⟩
    have hOwn' : (Part.values vs).Own r p :=
      ⟨u, hu, fun v hv => hMem v (List.mem_cons_of_mem _ hv), hNodup.2.1⟩
    refine ((ih hp hOwn).comp hr ihRest hp hOwn hOwn' ?_).mono ?_ ?_
    · rintro i hi ⟨v', hv', hi'⟩
      exact hNodup.2.2 i hi.mem_ids i
        (List.mem_flatMap.2 ⟨_, List.mem_map_of_mem hv', hi'.mem_ids⟩) rfl
    · rintro i (hi | ⟨v', hv', hi⟩)
      · exact ⟨v, List.mem_cons_self, hi⟩
      · exact ⟨v', List.mem_cons_of_mem _ hv', hi⟩
    · rintro n ⟨v', hv', hn⟩
      obtain rfl | hv' := List.mem_cons.1 hv'
      · exact .inl (.inl hn)
      · exact .inl (.inr ⟨v', hv', hn⟩)
  | @statement m v last p p' t h ih =>
    obtain ⟨u, hu, hMem⟩ := ha
    have hOwn : (Part.value v).Own r p :=
      ⟨u, hu, Node.mem_nodes_of_child hMem (by simp [Node.children])⟩
    refine ((ih hp hOwn).one hr hOwn (Step.note (.inl rfl) t).steps (by simp)
      (hu.closed (.inl ⟨_, hMem, trivial, rfl⟩)) fun v' hv' hId => ?_).mono ?_ fun n hn => ?_
    · exact Node.id_notMem_of_child (hr.ids_nodup hu.unit hMem) (k := .value v)
        (by simp [Node.children]) ((Node.ids_sublist hv').subset hId)
    · rintro i (hi | rfl)
      · exact hi.mono (Node.mem_nodes_child (by simp [Node.children]))
      · exact Node.passes_self (n := .statement ⟨m, v, last⟩) trivial
    · rw [Part.Nodes, Node.nodes_eq, List.mem_cons, List.mem_flatMap] at hn
      obtain rfl | ⟨k, hk, hn⟩ := hn
      · exact .inr trivial
      · obtain rfl := List.mem_singleton.1 hk
        exact .inl hn
  | noStatements =>
    exact (Trip.of_other (Stage.fresh_named_step _ _).steps rfl).mono (fun _ => False.elim)
      (by simp [Part.Nodes])
  | statements h ih => exact ih hp ha
  | oneLast =>
    exact (Trip.refl _).mono (fun _ => id) (by simp [Part.Nodes])
  | severalLast =>
    exact (Trip.of_other (Stage.fresh_oneOf_step _ _).steps rfl).mono (fun _ => False.elim)
      (by simp [Part.Nodes])
  | @unknownLast lasts s ss p p' h hLast ih =>
    obtain ⟨u, hu, hMem, -, hCloses⟩ := ha
    obtain rfl := hCloses [] s ss rfl hLast
    exact (ih hp ⟨u, hu, hMem s List.mem_cons_self⟩).mono
      (fun i hi => ⟨s, List.mem_cons_self, hi⟩) (by simp +contextual [Part.Nodes])
  | knownLast h hRest ih ihRest => exact .rest hr (ih hp) ihRest hp ha
  | rest h hRest ih ihRest => exact .rest hr (ih hp) ihRest hp ha
  | noParams => exact (Trip.refl _).mono (fun _ => id) (by simp [Part.Nodes])
  | @params q qs p p₁ p₂ t h hRest ih ihRest =>
    have hq := ha q List.mem_cons_self
    have hOwn : (Part.decl (.param q)).Own r p :=
      ⟨.inr (.inr ⟨hq, trivial⟩), fun hu => absurd trivial (Root.Sane.not_isLocal hu)⟩
    have hOwn' : (Part.params qs).Own r p := fun q hq => ha q (List.mem_cons_of_mem _ hq)
    refine ((ih hp hOwn).comp hr ihRest hp hOwn hOwn' fun _ => False.elim).mono ?_ ?_
    · exact fun i hi => hi.elim id id
    · rintro n ⟨q', hq', rfl⟩
      obtain rfl | hq' := List.mem_cons.1 hq'
      · exact .inr (hRest.later.done (h.done_decl (hp.clean q' hq)))
      · exact .inl (.inr ⟨q', hq', rfl⟩)
  | known => exact .refl _
  | @decl n p p' t hDone hVisiting h ih =>
    obtain hOther | hUnit | ⟨hn, hLocal⟩ := ha.1
    · exact .other (.decl hDone hVisiting h) hp hOther
    · exact .unit hr hDone hVisiting h ih hp hUnit (ha.2 hUnit)
    · exact .isLocal hr hDone hVisiting h hn hLocal
  | @«attribute» a v p p' t hValue h ih =>
    have hMem : Node.value v ∈ (Node.attribute a).children := by simp [Node.children, hValue]
    exact (ih hp ⟨_, ha, Node.mem_nodes_child hMem⟩).declaration ha.unit
      (fun i hi => .inl (hi.mono (Node.mem_nodes_child hMem)))
      (by simp +contextual [Node.children, hValue, Node.Bare, Part.Nodes])
  | @bareAttribute a p hValue =>
    exact (Trip.refl p).declaration (A := fun _ => False) ha.unit (fun _ => False.elim)
      (by simp [Node.children, hValue, Node.Bare])
  | @method m p p₁ p₂ t hParams hBody ihParams ihBody =>
    have hRoot := Root.mem_nodes_of_units ha.unit
    have hNodup := hr.ids_nodup ha.unit (Node.self_mem_nodes _)
    have hSign : Node.signature m.signature ∈ (Node.method m).children := by simp [Node.children]
    have hOwn : (Part.params m.signature.params).Own r p := fun q hq =>
      Node.mem_nodes_of_child (Node.mem_nodes_of_child hRoot hSign) (by simp [Node.children, hq])
    have hOwn' : (Part.statements m.body).Own r p := by
      refine ⟨_, ha, fun s hs => Node.mem_nodes_child (by simp [Node.children, hs]), ?_,
        hr.closes _ hRoot⟩
      exact Node.nodup_of_sublist hNodup (List.sublist_cons_self _ _)
    have hTrip := (ihParams hp hOwn).comp hr ihBody hp hOwn hOwn' fun _ => False.elim
    have hClosed : p.Closed r m.signature.ann.id := ha.closed (.inr ⟨m, rfl, rfl⟩)
    have hLast : Idle r (· = m.signature.ann.id) p₂
        (p₂.note m.signature.ann.id (written m.signature.result t)) :=
      .of_one hr (Step.note (.inl rfl) _).steps (by simp)
        (hClosed.later hTrip.later hTrip.visiting)
    refine (hTrip.snoc hr hLast (fun _ hi => hi.elim False.elim hOwn'.closed)
      (fun _ hi => hi ▸ hClosed) fun v hv i hi => ?_).declaration ha.unit ?_ fun k hk => ?_
    · obtain ⟨q, _, hEq⟩ | hBody := hv
      · cases hEq
      refine ⟨.inr (Part.encloses (.statements m.body) v hBody i hi), ?_⟩
      rintro rfl
      obtain ⟨s, hs, hv⟩ := hBody
      have hSub : [Node.signature m.signature, .statement s].Sublist (Node.method m).children :=
        .cons_cons _ (List.singleton_sublist.2 (by simp [hs]))
      exact Node.notMem_of_sublist hNodup hSub (List.mem_map_of_mem (Node.self_mem_nodes _))
        ((Node.ids_sublist hv).subset hi.mem_ids)
    · rintro i ((hi | ⟨s, hs, hi⟩) | rfl)
      · exact hi.elim
      · exact .inl (hi.mono (Node.mem_nodes_child (by simp [Node.children, hs])))
      · exact .inr ⟨m, rfl, rfl⟩
    · obtain rfl | hk := List.mem_cons.1 hk
      · refine .inr fun n hn => .inr (.of_signature (fun q hq => ?_) hn)
        exact hLast.later.done (hTrip.cover (.param q) (.inl (.inl ⟨q, hq, rfl⟩)))
      · obtain ⟨s, hs, rfl⟩ := List.mem_map.1 hk
        exact .inr fun n hn => .inl (.inr ⟨s, hs, hn⟩)
  | @signature s p p' hParams ih =>
    have hOwn : (Part.params s.params).Own r p := fun q hq =>
      Node.mem_nodes_of_child (Root.mem_nodes_of_units ha.unit) (by simp [Node.children, hq])
    have hTrip := ih hp hOwn
    refine hTrip.declaration ha.unit (fun _ => False.elim) fun k hk => .inr fun n hn => .inr ?_
    exact .of_signature (fun q hq => hTrip.cover (.param q) (.inl ⟨q, hq, rfl⟩))
      (Node.nodes_subset (Node.mem_nodes_child hk) hn)
  | param => exact absurd trivial (Root.Sane.not_isLocal ha.unit)
  | typed h => exact absurd h (Root.Sane.not_typedBefore ha.unit)
  | typeParam =>
    obtain ⟨_, hEq⟩ | ⟨_, hEq⟩ | ⟨⟨_, hEq⟩, _⟩ := Root.units_cases ha.unit <;> cases hEq
  | untyped h =>
    obtain ⟨_, rfl⟩ | ⟨_, rfl⟩ | ⟨⟨_, rfl⟩, _⟩ := Root.units_cases ha.unit <;> exact h.elim

/-- The numbers that inference in a source has to do with beside those of declarations: of other
sources, and of what is typed in passing. -/
def Aside (r : Root Meta) (i : Nat) : Prop := ¬r.Inner i ∨ ∃ u ∈ r.units, u.Carries i

/-- The whole way of inference through a source: each node in an attribute or method is dealt with
once. -/
structure Tour (r : Root Meta) (p p' : Stage) : Prop where
  steps : Steps (Aside r) r.Target p p'
  done : ∀ u ∈ r.units, u.ann.id ∈ p'.progress.done
  cover : ∀ u ∈ r.units, ∀ n ∈ u.nodes, Covered r (Aside r) p p' n

theorem RunsEach.idle (hr : r.Sane) {us : List (Node Meta)} (h : RunsEach us p p')
    (hus : ∀ u ∈ us, u ∈ r.units) (hp : p.Fair r) (hNone : p.progress.visiting = []) :
    Idle r (fun _ => False) p p' ∧ ∀ u ∈ us, u.ann.id ∈ p'.progress.done := by
  induction h with
  | nil => exact ⟨.refl _, by simp⟩
  | cons h hRest ih =>
    obtain ⟨hu, hus⟩ := List.forall_mem_cons.1 hus
    have hFirst : Idle r (fun _ => False) _ _ :=
      h.trip hr hp ⟨.inr (.inl hu), fun _ k _ hk => by simp [hNone] at hk⟩
    obtain ⟨hThen, hDone⟩ := ih hus (hp.later hFirst.later hFirst.visiting)
      (hFirst.visiting.trans hNone)
    refine ⟨(hFirst.snoc hr hThen (fun _ => False.elim) (fun _ => False.elim) .none).mono
      (fun _ hi => hi.elim id id) fun _ => .inl, ?_⟩
    refine List.forall_mem_cons.2 ⟨hThen.later.done (h.done_decl ?_), hDone⟩
    simp [hNone]

theorem RunsEach.tour (hr : r.Sane) (h : RunsEach r.units p p') (hp : p.Fair r)
    (hNone : p.progress.visiting = []) (hNew : ∀ u ∈ r.units, u.ann.id ∉ p.progress.done) :
    Tour r p p' := by
  obtain ⟨hTrip, hDone⟩ := h.idle hr (fun _ => id) hp hNone
  have hReach (i : Nat) (hi : Reach r (fun _ => False) p p' i) : Aside r i := by
    obtain hi | hi | ⟨_, u, hu, _, hCarries⟩ := hi
    · exact hi.elim
    · exact .inl hi
    · exact .inr ⟨u, hu, hCarries⟩
  have hBegun (u : Node Meta) (hu : u ∈ r.units) : ¬p.Started u ∧ p'.Started u := by
    refine ⟨fun hStarted => ?_, .inl (hDone u hu)⟩
    obtain hi | hi := hStarted
    · exact hNew u hu hi
    · simp [hNone] at hi
  refine ⟨hTrip.steps.mono hReach fun _ => id, hDone, fun u hu n hn => ?_⟩
  obtain ⟨hNot, hStarted⟩ := hBegun u hu
  exact (hTrip.cover n (.inr ⟨u, hu, hNot, hStarted, hn⟩)).mono hReach

end Infer

end Assay
