import Assay.Proofs.Checked
import Assay.Proofs.Linked
import Assay.Proofs.Located
import Assay.Compilation

/-! The places of nodes while sources are checked. A relation between worlds that holds of quiet steps,
and of steps one after another, holds of all of discovery if it holds of the loads; if it also holds of
checks, it holds of whatever is compiled on the way. One such relation is that nodes keep the places
that they have, so a source that is being checked stays linked. -/

namespace Assay

open Check (Leads Quiet)

/-- A relation between worlds that holds of quiet steps, and of steps one after another. -/
class World.Frame (R : World → World → Prop) : Prop where
  quiet : ∀ {w w'}, w.Quiet w' → R w w'
  trans : ∀ {w w' w''}, R w w' → R w' w'' → R w w''

/-- A relation holds of a step from whatever world it is started, if it ends without a fault. -/
def Check.Keeps {α : Type} (R : World → World → Prop) (m : Check α) : Prop :=
  ∀ w, Leads m w (fun _ _ => True) fun _ w' => R w w'

def Load.Keeps (R : World → World → Prop) (load : Load) : Prop :=
  ∀ name trigger, Check.Keeps R (load name trigger)

section

variable {R : World → World → Prop} [World.Frame R]

namespace Check.Keeps

variable {α β : Type}

theorem of_quiet {m : Check α} {Q : α → Prop} (h : Quiet m Q) : Keeps R m :=
  fun w => (h w).mono (fun _ _ _ => trivial) fun _ _ ha => World.Frame.quiet ha.1

theorem pure {a : α} : Keeps R (Pure.pure a) := of_quiet (Q := fun _ => True) (.pure trivial)

theorem bind {m : Check α} {k : α → Check β} (hm : Keeps R m) (hk : ∀ a, Keeps R (k a)) :
    Keeps R (m >>= k) :=
  fun w => (hm w).bind fun a w' h =>
    (hk a w').mono (fun _ _ => id) fun _ _ h' => World.Frame.trans h h'

omit [World.Frame R] in
theorem traced {name : Text} {errors : α → List Diagnostic} {m : Check α} (h : Keeps R m) :
    Keeps R (Check.traced name errors m) :=
  fun w => .traced (h w)

theorem collect {step : α → Check (List Diagnostic)} {xs : List α} (hStep : ∀ x, Keeps R (step x)) :
    Keeps R (Check.collect step xs) := by
  induction xs with
  | nil => exact pure
  | cons x rest ih =>
    rw [Check.collect]
    exact (hStep x).bind fun _ => ih.bind fun _ => pure

omit [World.Frame R] in
theorem get {k : State → Check α} (hk : ∀ s, Keeps R (k s)) : Keeps R (MonadState.get >>= k) :=
  fun w => .get fun s _ => hk s w

theorem modify {f : State → State} (hf : ∀ s, (f s).store = s.store) : Keeps R (modify f) := by
  intro w s hs
  have hStore : (f s).world.store = w.store := (hf s).trans (congrArg World.store hs)
  have hQuiet : w.Quiet (f s).world := ⟨by rw [hStore], by rw [hStore], by rw [hStore]⟩
  exact World.Frame.quiet hQuiet

end Check.Keeps

namespace Discovery

variable {load : Load}

theorem resolve_keeps (hLoad : load.Keeps R) (name : Name) (trigger : Node Meta) :
    Check.Keeps R (resolve load name trigger) := by
  refine (Check.Keeps.of_quiet Quiet.find).bind fun symbols => ?_
  cases symbols with
  | cons => exact .pure
  | nil =>
    refine (hLoad name trigger).bind fun found => ?_
    cases found with
    | none => exact .pure
    | some symbol =>
      exact .of_quiet (Q := fun _ => True) (Quiet.declare.after fun _ => Quiet.log.after fun _ =>
        .pure trivial)

theorem declareUse_keeps (hLoad : load.Keeps R) (space : Text) (u : Use Meta) :
    Check.Keeps R (declareUse load space u) := by
  refine (Check.Keeps.of_quiet Quiet.scopeOf).bind fun path => ?_
  refine (Check.Keeps.of_quiet Quiet.findIn).bind fun found => ?_
  cases found with
  | some previous =>
    simp only
    split
    · exact .pure
    · exact (Check.Keeps.of_quiet Quiet.alreadyDefined).bind fun _ => .pure
  | none =>
    refine (resolve_keeps hLoad _ _).bind fun found => ?_
    cases found with
    | none => exact .pure
    | some symbol => exact (Check.Keeps.of_quiet Quiet.declare).bind fun _ => .pure

theorem visitVariable_keeps (n : Node Meta) : Check.Keeps R (visitVariable n) := by
  cases n with
  | typeParam p =>
    refine (Check.Keeps.of_quiet Quiet.scopeOf).bind fun path => ?_
    refine (Check.Keeps.of_quiet Quiet.findIn).bind fun found => ?_
    cases found with
    | some previous => exact (Check.Keeps.of_quiet Quiet.alreadyDefined).bind fun _ => .pure
    | none => exact (Check.Keeps.of_quiet Quiet.declare).bind fun _ => .pure
  | _ => exact .pure

theorem resolveFirst_keeps (hLoad : load.Keeps R) (trigger : Node Meta) (names : List Name) :
    Check.Keeps R (resolveFirst load trigger names) := by
  induction names with
  | nil => exact .pure
  | cons name rest ih =>
    rw [resolveFirst]
    refine (resolve_keeps hLoad name trigger).bind fun found => ?_
    cases found with
    | some symbol => exact .pure
    | none => exact ih

theorem visitSpec_keeps (hLoad : load.Keeps R) (r : Root Meta) (n : Node Meta) :
    Check.Keeps R (visitSpec load r n) := by
  unfold visitSpec
  split
  · refine (Check.Keeps.of_quiet Quiet.scopeOf).bind fun path => ?_
    refine (Check.Keeps.of_quiet Quiet.find).bind fun symbols => ?_
    cases symbols with
    | cons => exact .pure
    | nil =>
      refine (resolveFirst_keeps hLoad _ _).bind fun found => ?_
      cases found with
      | none => exact .pure
      | some found =>
        simp only
        split
        · exact .of_quiet (Q := fun _ => True) (Quiet.scopeOf.after fun _ =>
            Quiet.declare.after fun _ => .pure trivial)
        · exact .pure
  · exact .pure

/-- What discovery does after the type of a source is declared. -/
theorem rest_keeps (hLoad : load.Keeps R) (r : Root Meta) : Check.Keeps R (do
    let uses ← Check.collect (declareUse load r.space) r.uses
    let typeVariables ← Check.collect visitVariable (Node.root r).nodes
    let specs ← Check.collect (visitSpec load r) (Node.root r).nodes
    return uses ++ typeVariables ++ specs : Check (List Diagnostic)) :=
  (Check.Keeps.collect (declareUse_keeps hLoad _)).bind fun _ =>
    (Check.Keeps.collect visitVariable_keeps).bind fun _ =>
      (Check.Keeps.collect (visitSpec_keeps hLoad r)).bind fun _ => .pure

end Discovery

theorem Check.ask_keeps (name : Name) (trigger : Option (Node Meta)) (loaders : List Loader) :
    Check.Keeps R (Check.ask name trigger loaders) := by
  induction loaders with
  | nil => exact .pure
  | cons l rest ih =>
    rw [Check.ask]
    refine (Check.Keeps.modify (by intro s; rfl)).bind fun _ => ?_
    split
    · exact .pure
    · exact ih

end

/-- Such a relation that holds of a check in a world where its source was just read. -/
class World.Frame.Checked (R : World → World → Prop) : Prop extends World.Frame R where
  check : ∀ {load : Load}, load.Keeps R → ∀ {w w' : World} {r : Root Meta}, w.Quiet w' →
    Span w.store.next w'.store.next (Node.root r).ids →
      Leads (r.check load) w' (fun _ _ => True) fun _ w'' => R w w''

namespace Compilation

theorem read_quiet (u : SourceUnit) (w : World) :
    Leads (read u) w (fun _ _ => True) fun result w' => w.Quiet w' ∧
      ∀ r, result = some r → Span w.store.next w'.store.next (Node.root r).ids := by
  unfold read
  refine .get fun s hs => ?_
  have hStore : s.store = w.store := congrArg World.store hs
  cases hRead : Root.read s.files u.space u.path u.text s.store.next with
  | mk files rest =>
    obtain ⟨result, next⟩ := rest
    obtain ⟨-, hNext, hOk⟩ := Root.read_spec hRead
    rw [hStore] at hNext hOk
    simp only
    refine .bind (.set (Q := fun _ w' => w.Quiet w' ∧ w'.store.next = next) ?_)
      fun _ w₁ ⟨hQuiet, hNext₁⟩ => ?_
    · rw [← hStore] at hNext
      exact ⟨⟨hStore ▸ hNext, hStore ▸ rfl, hStore ▸ rfl⟩, rfl⟩
    have hChange (f : SourceUnit → SourceUnit) : Leads (modify fun s => s.changeUnit u.name f) w₁
        (fun _ _ => True) fun _ w' => w.Quiet w' ∧ w'.store.next = next := by
      intro s' hs'
      have hStore' : s'.store = w₁.store := congrArg World.store hs'
      refine ⟨hQuiet.trans ⟨?_, ?_, ?_⟩, (congrArg Store.next hStore').trans hNext₁⟩
      · exact (congrArg Store.next hStore').ge
      · exact congrArg Store.tops hStore'
      · exact congrArg Store.links hStore'
    cases result with
    | error m => exact (hChange _).bind fun _ _ h => .pure ⟨h.1, by simp⟩
    | ok r =>
      refine (hChange _).bind fun _ w₂ h => .pure ⟨h.1, fun r' hr => ?_⟩
      obtain rfl := Option.some.inj hr
      exact h.2.symm ▸ (hOk r rfl).2.1

variable {R : World → World → Prop} [World.Frame.Checked R]

theorem compileWith_keeps {load : Load} (hLoad : load.Keeps R) (u : SourceUnit) :
    Check.Keeps R (compileWith load u) := by
  have hStatus (status : Status) :
      Check.Keeps R (modify fun s => s.changeUnit u.name fun u => { u with status }) :=
    .modify (by intro s; rfl)
  unfold compileWith
  split
  · exact .pure
  · exact .pure
  · refine .traced ((hStatus _).bind fun _ => Check.Keeps.bind ?_ fun _ => hStatus _)
    intro w
    refine .caught (G := fun _ _ => True) ?_ fun f w' _ => ?_
    · refine (read_quiet u w).bind fun result w₁ ⟨hQuiet, hRead⟩ => ?_
      cases result with
      | none => exact .pure (World.Frame.quiet hQuiet)
      | some r =>
        refine (World.Frame.Checked.check hLoad hQuiet (hRead r rfl)).bind fun p w₂ h₂ => ?_
        exact ((Check.Keeps.modify (by intro s; rfl)) w₂).mono (fun _ _ => id)
          fun _ _ h₃ => World.Frame.trans h₂ h₃
    · intro s _
      rw [Check.ending_bind]
      trivial

theorem loadBy_keeps {compile : SourceUnit → Check Unit}
    (hCompile : ∀ u, Check.Keeps R (compile u)) (name : Name) :
    Check.Keeps R (loadBy compile name) := by
  refine .get fun s => ?_
  split
  · exact .pure
  · rename_i u _
    have hRest : Check.Keeps R (do
        compile u
        let s ← get
        return (s.unit? name.full).bind fun u => u.symbol? s.store) :=
      (hCompile u).bind fun _ => .get fun _ => .pure
    simp only
    split
    · exact (Check.Keeps.of_quiet Quiet.log).bind fun _ => hRest
    · exact hRest

theorem load_keeps (depth : Nat) (name : Name) : Check.Keeps R (load depth name) := by
  induction depth generalizing name with
  | zero =>
    refine loadBy_keeps (fun u => ?_) name
    split
    · exact .of_quiet (Q := fun _ => True) .throw
    · exact .pure
  | succ depth ih =>
    refine loadBy_keeps (compileWith_keeps fun name trigger => ?_) name
    refine (ih name).bind fun found => ?_
    cases found with
    | some symbol => exact .pure
    | none => exact .get fun _ => Check.ask_keeps _ _ _

end Compilation

/-- Nodes that have numbers keep their places. -/
structure World.Lasts (w w' : World) : Prop where
  next : w.store.next ≤ w'.store.next
  links : ∀ i < w.store.next, w'.store.relativesOf? i = w.store.relativesOf? i

instance : World.Frame World.Lasts where
  quiet h := ⟨h.next, fun i _ => congrArg (List.lookup i) h.links⟩
  trans h h' :=
    ⟨h.next.trans h'.next, fun i hi => (h'.links i (hi.trans_le h.next)).trans (h.links i hi)⟩

/-- A tree is linked, and its numbers, from `low` on, are its own; those below have the places that they
had in the world `b`. -/
structure Root.Tied (low : Nat) (b : World) (r : Root Meta) (w : World) : Prop where
  span : Span low w.store.next (Node.root r).ids
  linked : w.store.Linked (.root r)
  next : b.store.next ≤ w.store.next
  links : ∀ i < low, w.store.relativesOf? i = b.store.relativesOf? i

section

variable {low : Nat} {b w w' : World} {r r' : Root Meta} {load : Load}

namespace Root.Tied

theorem lasts (h : r.Tied low b w) (hw : w.Lasts w') : r.Tied low b w' where
  span := ⟨h.span.le.trans hw.next, h.span.nodup, fun i hi =>
    ⟨(h.span.mem i hi).1, (h.span.mem i hi).2.trans_le hw.next⟩⟩
  linked x hx := (hw.links _ (h.span.mem _ (List.mem_map_of_mem (Relatives.node_mem_nodes hx))).2).trans
    (h.linked x hx)
  next := h.next.trans hw.next
  links i hi := (hw.links i (hi.trans_le h.span.le)).trans (h.links i hi)

theorem relink (h : r.Tied low b w)
    (hDrawn : Drawn w.store.next w'.store.next (Node.root r).ids (Node.root r').ids)
    (hLinks : w'.store.links = (w.store.link (.root r')).links) : r'.Tied low b w' := by
  have hNodup := hDrawn.nodup h.span.nodup fun i hi => (h.span.mem i hi).2
  have hMem (i : Nat) (hi : i ∈ (Node.root r').ids) : low ≤ i ∧ i < w'.store.next := by
    obtain hOld | hNew := hDrawn.from_ i hi
    · exact ⟨(h.span.mem i hOld).1, (h.span.mem i hOld).2.trans_le hDrawn.le⟩
    · exact ⟨h.span.le.trans hNew.1, hNew.2⟩
  refine ⟨⟨h.span.le.trans hDrawn.le, hNodup, hMem⟩, fun x hx => ?_, h.next.trans hDrawn.le, fun i hi => ?_⟩
  · exact (congrArg (List.lookup _) hLinks).trans (Store.linked_link _ hNodup x hx)
  · refine (congrArg (List.lookup i) hLinks).trans (Eq.trans ?_ (h.links i hi))
    exact Store.relativesOf?_link _ fun hOwn => Nat.not_lt.2 (hMem i hOwn).1 hi

end Root.Tied

theorem Check.Leads.revise {α : Type} {step : Revising α} {P : α → Nat → Prop}
    {F : Fault → World → Prop} {Q : α → World → Prop}
    (hStep : step.Gives w.store.next (fun _ => True) P)
    (hF : ∀ f next, w.store.next ≤ next → F f { w with store := { w.store with next } })
    (hQ : ∀ a next, w.store.next ≤ next → P a next →
      Q a { w with store := { w.store with next } }) :
    Leads (Check.revise step) w F Q := by
  obtain ⟨hLe, hEnds⟩ := hStep
  refine .bind (P := fun result w' => Ends (F · w') (Q · w') result)
    (.fresh ?_) fun result w' hResult => .orFault hResult
  cases hRun : (step.run w.store.next).1 with
  | error f => exact hF f _ hLe
  | ok a =>
    rw [hRun] at hEnds
    exact hQ a _ hLe hEnds

theorem Check.update_tied {change : Revision (Root Meta)} (h : r.Tied low b w)
    (hChange : (change r).Gives w.store.next (fun _ => True) fun new k' =>
      Drawn w.store.next k' (Node.root r).ids (Node.root (new.getD r)).ids) :
    Leads (Check.update r change) w (fun _ _ => True) fun r' w' => r'.Tied low b w' := by
  refine .bind (P := fun new w' => w'.store.links = w.store.links ∧
    Drawn w.store.next w'.store.next (Node.root r).ids (Node.root (Option.getD new r)).ids)
    (.revise hChange (fun _ _ _ => trivial) fun new next _ hNew => ⟨rfl, hNew⟩)
    fun new w₁ ⟨hLinks, hNew⟩ => ?_
  cases new with
  | none => exact .pure (h.lasts ⟨hNew.le, fun i _ => congrArg (List.lookup i) hLinks⟩)
  | some r' =>
    refine .bind (.modifyStore (Q := fun _ w' => r'.Tied low b w') ?_) fun _ _ h₂ => .pure h₂
    obtain ⟨-, -, hInherit, hNext⟩ := w₁.store.inherit_frame (.root r) (.root r')
    obtain ⟨_, hRenew⟩ | hRenew := w₁.store.renew_eq_or r r'
    all_goals
      rw [hRenew]
      exact h.relink (hNext.symm ▸ hNew) (congrArg (_ ++ ·) (hInherit.trans hLinks))

theorem Root.qualify_tied (h : r.Tied low b w) :
    Leads r.qualify w (fun _ _ => True) fun r' w' => r'.Tied low b w' := by
  refine .traced (.bind (P := fun st w' => st = w.store ∧ w' = w) (.store ⟨rfl, rfl⟩)
    fun st w₁ ⟨hst, hw₁⟩ => ?_)
  subst hst hw₁
  have hBelow := List.forall_mem_map.1 fun i hi => (h.span.mem i hi).2
  exact Check.update_tied h ((Root.qualify?_recast (fun n _ => .any n) hBelow).mono
    fun _ _ _ hNew => hNew.drawn)

theorem Root.flatten_tied (h : r.Tied low b w) :
    Leads r.flatten w (fun _ _ => True) fun r' w' => r'.Tied low b w' := by
  have hBelow := List.forall_mem_map.1 fun i hi => (h.span.mem i hi).2
  exact .traced (Check.update_tied h ((Root.flatten?_recast hBelow).mono fun _ _ _ hNew => hNew.drawn))

theorem Root.discover_lasts (hLoad : load.Keeps World.Lasts) (r : Root Meta) :
    Check.Keeps World.Lasts (r.discover load) := by
  have hAdd (d : Declared) : Check.Keeps World.Lasts (Check.modifyStore (·.addTop d)) :=
    fun _ => .modifyStore ⟨Nat.le_refl _, fun _ _ => rfl⟩
  have hTop : Check.Keeps World.Lasts (Discovery.declareTop r) := by
    refine (Check.Keeps.of_quiet Quiet.find).bind fun symbols => ?_
    cases symbols with
    | cons => exact (Check.Keeps.of_quiet Quiet.alreadyDefined).bind fun _ => .pure
    | nil =>
      refine (Check.Keeps.of_quiet Quiet.declare).bind fun _ => (hAdd _).bind fun _ => ?_
      refine .of_quiet (Q := fun _ => True) (Quiet.log.after fun _ => ?_)
      simp only
      split
      · exact Quiet.scopeOf.after fun _ => Quiet.declare.after fun _ => .pure trivial
      · exact .pure trivial
  refine .traced (hTop.bind fun errors => ?_)
  cases errors with
  | nil => exact Discovery.rest_keeps hLoad r
  | cons => exact .pure

/-- A check leaves a linked tree, and the nodes with numbers below those of the tree in their places. -/
theorem Root.check_tied (hLoad : load.Keeps World.Lasts)
    (hSpan : Span low w.store.next (Node.root r).ids) :
    Leads (r.check load) w (fun _ _ => True) fun p w' => p.1.Tied low w w' := by
  have hIds := r.ids_place
  refine .traced (.bind (P := fun r' w' => r' = r.place ∧ w' = w.openAll r.scopes) ?_ ?_)
  · refine .traced (.bind (P := fun _ w' => w' = w.openAll r.scopes) (.modifyStore rfl) ?_)
    exact fun _ w' hw' => .pure ⟨rfl, hw'⟩
  rintro r₁ w₁ ⟨rfl, rfl⟩
  refine .bind (P := fun _ w' => r.place.Tied low w w') (.modifyStore ?_) fun _ w₂ h₂ => ?_
  · refine ⟨hIds.symm ▸ hSpan, Store.linked_link _ (hIds.symm ▸ hSpan.nodup), Nat.le_refl _, fun i hi => ?_⟩
    exact Store.relativesOf?_link _ fun hMem => Nat.not_lt.2 (hSpan.mem i (hIds ▸ hMem)).1 hi
  refine (Root.discover_lasts hLoad r.place w₂).bind fun found w₃ hw₃ => ?_
  have h₃ := h₂.lasts hw₃
  refine .bind (P := fun _ w' => r.place.Tied low w w') (.store h₃) fun st w₄ h₄ => ?_
  split
  · exact .pure h₄
  · refine (Root.qualify_tied h₄).bind fun r₂ w₅ h₅ => (Root.flatten_tied h₅).bind fun r₃ w₆ h₆ => ?_
    refine (r₃.resolveNames_quiet.leads w₆).bind fun names w₇ ⟨hQuiet₇, _⟩ => ?_
    have h₇ := h₆.lasts (World.Frame.quiet hQuiet₇)
    refine (r₃.infer_quiet w₇).bind fun types w₈ ⟨hQuiet₈, _⟩ => .pure ?_
    exact h₇.lasts (World.Frame.quiet hQuiet₈)

end

instance : World.Frame.Checked World.Lasts where
  check hLoad _ _ _ hQuiet hSpan := (Root.check_tied hLoad hSpan).mono (fun _ _ => id) fun _ _ h =>
    ⟨hQuiet.next.trans h.next, fun i hi =>
      (h.links i hi).trans (congrArg (List.lookup i) hQuiet.links)⟩

end Assay
