import Mathlib
import Assay.Check
import Assay.Proofs.Table

/-! How to reason about steps of checking. A step is said to lead from a world to what holds of its
result, or of its fault, and of the world after it. The world is the state without the trace and the
record of what loaders were asked for, so tracing is no step at all. -/

namespace Assay

variable {Q : Unit → World → Prop} {path : Path} {G : Fault → World → Prop} {name : Name}
  {I : World → Prop}

/-- The part of a state that steps of checking depend on. -/
structure World where
  store : Store
  config : Config
  files : Files
  units : List SourceUnit

def State.world (s : State) : World := ⟨s.store, s.config, s.files, s.units⟩

def World.declare (w : World) (path : Path) (name : Name) (symbol : Symbol) : World :=
  { w with store := { w.store with table := (w.store.table.declare path name symbol).1 } }

namespace Check

variable {α β : Type}

/-- How a step ends that is started in a state: its result or its fault, and the state then. -/
def ending (m : Check α) (s : State) : Except Fault α × State := m.run s

theorem ending_bind (m : Check α) (k : α → Check β) (s : State) :
    ending (m >>= k) s =
      match ending m s with
      | (.ok a, s') => ending (k a) s'
      | (.error f, s') => (.error f, s') := by
  have h : ending (m >>= k) s = (ExceptT.bindCont k (ending m s).1) (ending m s).2 := rfl
  rw [h]
  cases hm : ending m s with
  | mk r s' => cases r <;> rfl

theorem ending_tryCatch (m : Check α) (k : Fault → Check α) (s : State) :
    ending (tryCatch m k) s =
      match ending m s with
      | (.ok a, s') => (.ok a, s')
      | (.error f, s') => ending (k f) s' := by
  cases hm : ending m s with
  | mk r s' =>
    have h : m s = (r, s') := hm
    simp only [ending, tryCatch, MonadExcept.tryCatch, tryCatchThe, MonadExceptOf.tryCatch,
      ExceptT.tryCatch, ExceptT.run_mk, Bind.bind, StateT.bind]
    rw [h]
    cases r <;> rfl

/-- From every state of the world `w` a step ends with a result that satisfies `Q` together with the
world then, or with a fault that satisfies `F` in the same way. -/
def Leads (m : Check α) (w : World) (F : Fault → World → Prop) (Q : α → World → Prop) : Prop :=
  ∀ s : State, s.world = w →
    Ends (F · (ending m s).2.world) (Q · (ending m s).2.world) (ending m s).1

namespace Leads

variable {w : World} {F : Fault → World → Prop}

theorem pure {a : α} {Q : α → World → Prop} (h : Q a w) : Leads (Pure.pure a) w F Q := by
  rintro s rfl
  exact h

theorem throw {f : Fault} {Q : α → World → Prop} (h : F f w) :
    Leads (MonadExcept.throw f : Check α) w F Q := by
  rintro s rfl
  exact h

theorem bind {m : Check α} {k : α → Check β} {P : α → World → Prop} {Q : β → World → Prop}
    (hm : Leads m w F P) (hk : ∀ a w', P a w' → Leads (k a) w' F Q) : Leads (m >>= k) w F Q := by
  intro s hs
  have h := hm s hs
  rw [ending_bind]
  cases hEnd : ending m s with
  | mk r s' =>
    rw [hEnd] at h
    cases r with
    | ok a => exact hk a s'.world h s' rfl
    | error f => exact h

theorem mono {m : Check α} {P Q : α → World → Prop} (hm : Leads m w G P)
    (hF : ∀ f w', G f w' → F f w') (hQ : ∀ a w', P a w' → Q a w') : Leads m w F Q := by
  intro s hs
  have h := hm s hs
  cases hEnd : ending m s with
  | mk r s' =>
    rw [hEnd] at h
    cases r with
    | ok a => exact hQ a _ h
    | error f => exact hF f _ h

theorem and {m : Check α} {P Q : α → World → Prop} (h : Leads m w F P) (h' : Leads m w G Q) :
    Leads m w F fun a w' => P a w' ∧ Q a w' := by
  intro s hs
  have hEnds := h s hs
  have hEnds' := h' s hs
  cases hEnd : ending m s with
  | mk r s' =>
    rw [hEnd] at hEnds hEnds'
    cases r with
    | ok a => exact ⟨hEnds, hEnds'⟩
    | error f => exact hEnds

theorem ending_world {m : Check α} {P : World → Prop} (h : Leads m w (fun _ => P) fun _ => P)
    {s : State} (hs : s.world = w) : P (ending m s).2.world := by
  have hEnds := h s hs
  cases hEnd : ending m s with
  | mk r s' =>
    rw [hEnd] at hEnds
    cases r with
    | ok a => exact hEnds
    | error f => exact hEnds

theorem caught {m : Check α} {k : Fault → Check α} {Q : α → World → Prop} (hm : Leads m w G Q)
    (hk : ∀ f w', G f w' → Leads (k f) w' F Q) : Leads (tryCatch m k) w F Q := by
  intro s hs
  have h := hm s hs
  rw [ending_tryCatch]
  cases hEnd : ending m s with
  | mk r s' =>
    rw [hEnd] at h
    cases r with
    | ok a => exact h
    | error f => exact hk f s'.world h s' rfl

theorem get {k : State → Check β} {Q : β → World → Prop}
    (h : ∀ s : State, s.world = w → Leads (k s) w F Q) : Leads (MonadState.get >>= k) w F Q := by
  intro s hs
  rw [ending_bind]
  exact h s hs s hs

theorem modified {f : State → State} {w' : World} (hf : ∀ s : State, s.world = w → (f s).world = w')
    (h : Q () w') : Leads (modify f) w F Q := by
  intro s hs
  exact (hf s hs).symm ▸ h

theorem set {s : State} (h : Q () s.world) : Leads (MonadStateOf.set s) w F Q := by
  intro _ _
  exact h

theorem modifyStore {f : Store → Store} (h : Q () { w with store := f w.store }) :
    Leads (Check.modifyStore f) w F Q :=
  modified (by rintro s rfl; rfl) h

theorem store {Q : Store → World → Prop} (h : Q w.store w) : Leads Check.store w F Q := by
  rintro s rfl
  exact h

theorem orFault {r : Except Fault α} {Q : α → World → Prop} (h : Ends (F · w) (Q · w) r) :
    Leads (Check.orFault r) w F Q := by
  cases r with
  | ok a => exact pure h
  | error f => exact throw h

theorem log {line : Text} (h : Q () w) : Leads (Check.log line) w F Q := by
  refine modified (fun s hs => ?_) h
  split
  · exact hs
  · exact hs

theorem traced {name : Text} {errors : α → List Diagnostic} {m : Check α} {Q : α → World → Prop}
    (h : Leads m w F Q) : Leads (Check.traced name errors m) w F Q := by
  unfold Check.traced
  refine bind (P := fun _ w' => w' = w) (log rfl) fun _ w' hw' => ?_
  subst hw'
  refine get fun s hs => ?_
  refine bind (P := fun _ w' => w' = s.world) (modified (fun s' hs' => hs'.trans hs.symm) rfl)
    fun _ w' hw' => ?_
  subst hw' hs
  refine bind (P := Q) (caught h fun f w' hf => ?_) fun a w' ha => ?_
  · exact bind (P := fun _ w'' => w'' = w') (modified (fun s' hs' => hs') rfl) fun _ w'' hw'' =>
      throw (hw'' ▸ hf)
  · have hLast : Leads (do modify fun s' => { s' with depth := s.depth }; return a) w' F Q :=
      bind (P := fun _ w'' => w'' = w') (modified (fun s' hs' => hs') rfl) fun _ w'' hw'' =>
        pure (hw'' ▸ ha)
    simp only
    split
    · exact hLast
    · exact bind (P := fun _ w'' => w'' = w') (log rfl) fun _ w'' hw'' => hw'' ▸ hLast

theorem fresh {m : Fresh α} {Q : α → World → Prop}
    (h : Q (m w.store.next).1 { w with store := { w.store with next := (m w.store.next).2 } }) :
    Leads (Check.fresh m) w F Q := by
  rintro s rfl
  exact h

theorem scopeOf {m : Meta} {Q : Path → World → Prop} (hm : m.scope = some path) (h : Q path w) :
    Leads (Check.scopeOf m) w F Q := by
  unfold Check.scopeOf
  rw [hm]
  exact pure h

theorem find {Q : List Symbol → World → Prop}
    (h : Ends (F · w) (Q · w) (w.store.table.find path name)) :
    Leads (Check.find path name) w F Q :=
  bind (P := fun st w' => st = w.store ∧ w' = w) (store ⟨rfl, rfl⟩) fun st w' ⟨hst, hw'⟩ => by
    subst hst hw'
    exact orFault h

theorem findIn {Q : Option Symbol → World → Prop}
    (h : Ends (F · w) (Q · w) (w.store.table.findIn path name)) :
    Leads (Check.findIn path name) w F Q :=
  bind (P := fun st w' => st = w.store ∧ w' = w) (store ⟨rfl, rfl⟩) fun st w' ⟨hst, hw'⟩ => by
    subst hst hw'
    exact orFault h

theorem declare {symbol : Symbol}
    (hFault : ∀ f, name.key = .error f → F f (w.declare path name symbol))
    (h : (w.store.table.declare path name symbol).2 = none → Q () (w.declare path name symbol)) :
    Leads (Check.declare path name symbol) w F Q := by
  refine bind (P := fun st w' => st = w.store ∧ w' = w) (store ⟨rfl, rfl⟩)
    fun st w' ⟨hst, hw'⟩ => ?_
  subst hst hw'
  refine bind (P := fun _ w'' => w'' = w'.declare path name symbol) (modifyStore rfl)
    fun _ w'' hw'' => ?_
  subst hw''
  split
  · rename_i f hf
    exact throw (hFault f (Scope.key_of_declare_fault hf))
  · rename_i hf
    exact pure (h hf)

theorem alreadyDefined {name : Text} {previous : Symbol} {n : Node Meta}
    {Q : Diagnostic → World → Prop} (h : ∀ d, Q d w) :
    Leads (Check.alreadyDefined name previous n) w F Q :=
  bind (P := fun _ w' => w' = w) (store rfl) fun _ _ hw' => pure (hw' ▸ h _)

theorem collect {step : α → Check (List Diagnostic)} {xs : List α}
    (hStep : ∀ x ∈ xs, ∀ w, I w → Leads (step x) w F fun _ w' => I w') (h : I w) :
    Leads (Check.collect step xs) w F fun _ w' => I w' := by
  induction xs generalizing w with
  | nil => exact pure h
  | cons x rest ih =>
    rw [Check.collect]
    refine bind (hStep x List.mem_cons_self w h) fun errors w' h' => ?_
    refine bind (ih (fun y hy => hStep y (List.mem_cons_of_mem _ hy)) h') fun more w'' h'' => ?_
    exact pure h''

theorem collect_about {step : α → Check (List Diagnostic)} {E : α → Diagnostic → Prop} {xs : List α}
    (hStep : ∀ x ∈ xs, ∀ w, I w → Leads (step x) w F fun errors w' => I w' ∧ ∀ e ∈ errors, E x e)
    (h : I w) :
    Leads (Check.collect step xs) w F fun errors w' =>
      I w' ∧ ∀ e ∈ errors, ∃ x ∈ xs, E x e := by
  induction xs generalizing w with
  | nil => exact pure ⟨h, by simp⟩
  | cons x rest ih =>
    rw [Check.collect]
    refine bind (hStep x List.mem_cons_self w h) fun errors w₁ ⟨h₁, hErrors⟩ => ?_
    refine bind (ih (fun y hy => hStep y (List.mem_cons_of_mem _ hy)) h₁)
      fun more w₂ ⟨h₂, hMore⟩ => pure ⟨h₂, fun e he => ?_⟩
    obtain he | he := List.mem_append.1 he
    · exact ⟨x, List.mem_cons_self, hErrors e he⟩
    · obtain ⟨y, hy, hE⟩ := hMore e he
      exact ⟨y, List.mem_cons_of_mem _ hy, hE⟩

/-- Steps on the elements of a list, each of which keeps an invariant and what holds of elements, and
gives a diagnostic about its own element or makes that hold of it. -/
theorem collect_each {step : α → Check (List Diagnostic)} {P : α → World → Prop}
    {E : α → Diagnostic → Prop} {xs : List α} (hStep : ∀ x ∈ xs, ∀ w, I w → Leads (step x) w F fun
      errors w' => I w' ∧ (∀ y, P y w → P y w') ∧ ((∃ e ∈ errors, E x e) ∨ P x w')) (h : I w) :
    Leads (Check.collect step xs) w F fun errors w' =>
      I w' ∧ (∀ y, P y w → P y w') ∧ ∀ x ∈ xs, (∃ e ∈ errors, E x e) ∨ P x w' := by
  induction xs generalizing w with
  | nil => exact pure ⟨h, fun _ => id, by simp⟩
  | cons x rest ih =>
    rw [Check.collect]
    refine bind (hStep x List.mem_cons_self w h) fun errors w₁ ⟨h₁, hKeeps₁, hFirst⟩ => ?_
    refine bind (ih (fun y hy => hStep y (List.mem_cons_of_mem _ hy)) h₁)
      fun more w₂ ⟨h₂, hKeeps₂, hRest⟩ => ?_
    refine pure ⟨h₂, fun y hy => hKeeps₂ y (hKeeps₁ y hy), fun y hy => ?_⟩
    obtain rfl | hy := List.mem_cons.1 hy
    · exact hFirst.imp (fun ⟨e, he, hE⟩ => ⟨e, List.mem_append_left _ he, hE⟩) (hKeeps₂ y)
    · exact (hRest y hy).imp_left fun ⟨e, he, hE⟩ => ⟨e, List.mem_append_right _ he, hE⟩

end Leads

end Check

end Assay
