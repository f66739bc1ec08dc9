import Mathlib
import Assay.Proofs.Intact
import Assay.Proofs.Mentioned
import Assay.Proofs.Retyped
import Assay.Proofs.Touched

/-! What the work on other sources leaves alone, whatever namespaces there are. As long as nothing
that is known has to do with some nodes, no step on other nodes comes to have: what a source declares
are its own nodes, and a reference means what is declared. -/

namespace Assay

open Check (Leads)

variable {n n' : Node Meta} {id k k' low : Nat} {O P : Nat → Prop} {symbol : Symbol} {path : Path}
  {name : Name}

theorem Node.Within.mono {P' : Nat → Prop} (h : n.Within P) (hP : ∀ i, P i → P' i) : n.Within P' :=
  ⟨hP _ h.1, h.2.imp_right fun hAll => hAll.mono fun _ => hP _⟩

theorem Node.Within.of_isType (hType : n.IsType) (h : P n.ann.id) : n.Within P :=
  ⟨h, .inl hType⟩

theorem Node.Within.of_all (h : n.All (P ·.ann.id)) : n.Within P :=
  ⟨h.self, .inr h⟩

def Symbol.Within (P : Nat → Prop) (symbol : Symbol) : Prop :=
  ∀ n, symbol.node? = some n → n.Within P

/-- All that a store knows has to do with nodes whose numbers satisfy `P`. -/
structure Store.Within (P : Nat → Prop) (st : Store) : Prop where
  table : ∀ {path key name symbol}, st.table.Entry path key name symbol → symbol.Within P
  refs : ∀ {i symbols}, st.refsOf? i = some symbols → P i ∧ ∀ symbol ∈ symbols, symbol.Within P
  types : ∀ {i t}, st.typeOf? i = some t → P i
  tops : ∀ d ∈ st.tops, P d.top.ann.id

namespace Store.Within

variable {P P' : Nat → Prop} {st : Store}

theorem mono (h : st.Within P) (hP : ∀ i, P i → P' i) : st.Within P' where
  table hEntry n hn := (h.table hEntry n hn).mono hP
  refs hRefs := ⟨hP _ (h.refs hRefs).1, fun symbol hs n hn => ((h.refs hRefs).2 symbol hs n hn).mono hP⟩
  types hType := hP _ (h.types hType)
  tops d hd := hP _ (h.tops d hd)

theorem decl? (h : st.Within P) (hs : symbol.Within P) (hn : st.decl? symbol = some n) :
    n.Within P := by
  cases symbol with
  | type name origin =>
    cases origin with
    | declared id =>
      obtain ⟨d, hd, rfl⟩ := Option.map_eq_some_iff.1 hn
      exact .of_isType trivial (h.tops d (List.mem_of_find?_eq_some hd))
    | _ => exact hs n hn
  | named | «alias» => exact hs n hn
  | _ => exact nomatch hn

theorem find (h : st.Within P) {symbols : List Symbol}
    (hFind : st.table.find path name = .ok symbols) : ∀ symbol ∈ symbols, symbol.Within P := by
  intro symbol hs
  obtain ⟨_, _, _, _, _, hEntry⟩ := Scope.entry_of_mem_find hFind hs
  exact h.table hEntry

theorem declare (h : st.Within P) (hs : symbol.Within P) :
    ({ st with table := (st.table.declare path name symbol).1 } : Store).Within P where
  table hEntry := by
    obtain hOld | ⟨_, _, _, _, rfl⟩ := Scope.entry_of_declare hEntry
    · exact h.table hOld
    · exact hs
  refs := h.refs
  types := h.types
  tops := h.tops

theorem setType (h : st.Within P) (hId : P id) (t : TypeSpec Meta) :
    (st.setType id t).Within P where
  table := h.table
  refs := h.refs
  types {i t'} hType := by
    by_cases hi : i = id
    · exact hi ▸ hId
    · rw [Store.typeOf?_setType_of_ne _ _ hi] at hType
      exact h.types hType
  tops := h.tops

theorem setRefs (h : st.Within P) (hId : P id) {symbols : List Symbol}
    (hs : ∀ symbol ∈ symbols, symbol.Within P) : (st.setRefs id symbols).Within P where
  table := h.table
  refs {i symbols'} hRefs := by
    by_cases hi : i = id
    · subst hi
      rw [Store.refsOf?_setRefs_self] at hRefs
      obtain rfl := Option.some.inj hRefs
      exact ⟨hId, hs⟩
    · rw [Store.refsOf?_setRefs_of_ne _ _ hi] at hRefs
      exact h.refs hRefs
  types := h.types
  tops := h.tops

theorem addTop (h : st.Within P) {d : Declared} (hd : P d.top.ann.id) : (st.addTop d).Within P where
  table := h.table
  refs := h.refs
  types := h.types
  tops := List.forall_mem_append.2 ⟨h.tops, List.forall_mem_singleton.2 hd⟩

theorem setTop (h : st.Within P) {top : TopLevel Meta} (hTop : P top.ann.id) :
    (st.setTop id top).Within P where
  table := h.table
  refs := h.refs
  types := h.types
  tops := by
    intro d hd
    obtain ⟨d', hd', rfl⟩ := List.mem_map.1 hd
    split
    · exact hTop
    · exact h.tops d' hd'

end Store.Within

/-- The numbers that are given out, but for those that satisfy `O`. -/
def World.Other (O : Nat → Prop) (w : World) (i : Nat) : Prop := i < w.store.next ∧ ¬O i

/-- Nothing that is known has to do with the nodes whose numbers satisfy `O`, and loaders give no
trees. -/
structure World.Avoids (O : Nat → Prop) (w : World) : Prop where
  bounded : ∀ i, O i → i < w.store.next
  within : w.store.Within (w.Other O)
  loaders : ∀ l ∈ w.config.loaders, ∀ name symbol, l.known? name = some symbol →
    symbol.node? = none

namespace World.Avoids

variable {O : Nat → Prop} {w w' : World}

theorem store (h : w.Avoids O) (hNext : w.store.next ≤ w'.store.next)
    (hConfig : w'.config = w.config) (hStore : w'.store.Within (w'.Other O)) : w'.Avoids O where
  bounded i hi := (h.bounded i hi).trans_le hNext
  within := hStore
  loaders := hConfig ▸ h.loaders

theorem other (h : w.store.next ≤ w'.store.next) {i : Nat} (hi : w.Other O i) : w'.Other O i :=
  ⟨hi.1.trans_le h, hi.2⟩

end World.Avoids

/-- From a world that avoids some nodes, and has given out the numbers below `k`, a step leads to one
that avoids them, with a result that satisfies `Q`. -/
def Check.Avoiding {α : Type} (O : Nat → Prop) (k : Nat) (m : Check α) (Q : α → Prop) : Prop :=
  ∀ w, w.Avoids O → k ≤ w.store.next → Leads m w (fun _ _ => True) fun a w' =>
    w'.Avoids O ∧ w.store.next ≤ w'.store.next ∧ Q a

/-- A way to load types that avoids all nodes, and gives no trees. -/
def Load.Avoiding (load : Load) : Prop :=
  ∀ O name trigger, Check.Avoiding O 0 (load name trigger) fun found =>
    ∀ symbol, found = some symbol → symbol.node? = none

namespace Check.Avoiding

variable {α β : Type} {O : Nat → Prop} {k : Nat}

theorem pure {a : α} {Q : α → Prop} (h : Q a) : Avoiding O k (Pure.pure a) Q :=
  fun _ hw _ => .pure ⟨hw, Nat.le_refl _, h⟩

theorem bind {m : Check α} {f : α → Check β} {P : α → Prop} {Q : β → Prop} (hm : Avoiding O k m P)
    (hf : ∀ a, P a → Avoiding O k (f a) Q) : Avoiding O k (m >>= f) Q := by
  intro w hw hk
  refine (hm w hw hk).bind fun a w₁ ⟨hw₁, hNext₁, ha⟩ => ?_
  refine (hf a ha w₁ hw₁ (hk.trans hNext₁)).mono (fun _ _ => id) fun b w₂ ⟨hw₂, hNext₂, hb⟩ => ?_
  exact ⟨hw₂, hNext₁.trans hNext₂, hb⟩

theorem mono {m : Check α} {P Q : α → Prop} (hm : Avoiding O k' m P) (hk : k' ≤ k)
    (h : ∀ a, P a → Q a) : Avoiding O k m Q :=
  fun w hw hNext => (hm w hw (hk.trans hNext)).mono (fun _ _ => id) fun _ _ ⟨hw', hNext', ha⟩ =>
    ⟨hw', hNext', h _ ha⟩

theorem traced {name : Text} {errors : α → List Diagnostic} {m : Check α} {Q : α → Prop}
    (h : Avoiding O k m Q) : Avoiding O k (Check.traced name errors m) Q :=
  fun w hw hk => .traced (h w hw hk)

theorem collect {step : α → Check (List Diagnostic)} {xs : List α}
    (h : ∀ x ∈ xs, Avoiding O k (step x) fun _ => True) :
    Avoiding O k (Check.collect step xs) fun _ => True := by
  induction xs with
  | nil => exact pure trivial
  | cons x rest ih =>
    rw [Check.collect]
    refine (h x List.mem_cons_self).bind fun _ _ => ?_
    exact (ih fun y hy => h y (List.mem_cons_of_mem _ hy)).bind fun _ _ => pure trivial

theorem same {m : Check α} {Q : α → Prop}
    (h : ∀ w, Leads m w (fun _ _ => True) fun a w' => w' = w ∧ Q a) : Avoiding O k m Q := by
  intro w hw _
  refine (h w).mono (fun _ _ => id) fun a w' ⟨hSame, ha⟩ => ?_
  subst hSame
  exact ⟨hw, Nat.le_refl _, ha⟩

theorem throw {f : Fault} {Q : α → Prop} : Avoiding O k (MonadExcept.throw f : Check α) Q :=
  fun _ _ _ => .throw trivial

theorem get {f : State → Check β} {Q : β → Prop} (h : ∀ s, Avoiding O k (f s) Q) :
    Avoiding O k (MonadState.get >>= f) Q :=
  fun w hw hk => .get fun s _ => h s w hw hk

theorem find : Avoiding O k (Check.find path name) fun _ => True := by
  refine same fun w => .find ?_
  cases w.store.table.find path name with
  | error f => trivial
  | ok symbols => exact ⟨rfl, trivial⟩

theorem findIn : Avoiding O k (Check.findIn path name) fun _ => True := by
  refine same fun w => .findIn ?_
  cases w.store.table.findIn path name with
  | error f => trivial
  | ok symbol => exact ⟨rfl, trivial⟩

theorem scopeOf {m : Meta} : Avoiding O k (Check.scopeOf m) fun _ => True := by
  unfold Check.scopeOf
  split
  · exact pure trivial
  · exact throw

theorem orFault {result : Except Fault α} : Avoiding O k (Check.orFault result) fun _ => True := by
  cases result with
  | ok a => exact pure trivial
  | error f => exact throw

theorem log {line : Text} : Avoiding O k (Check.log line) fun _ => True :=
  same fun _ => .log ⟨rfl, trivial⟩

theorem alreadyDefined {name : Text} {previous : Symbol} :
    Avoiding O k (Check.alreadyDefined name previous n) fun _ => True :=
  same fun _ => .alreadyDefined fun _ => ⟨rfl, trivial⟩

theorem declare (hs : symbol.Within fun i => i < k ∧ ¬O i) :
    Avoiding O k (Check.declare path name symbol) fun _ => True := by
  intro w hw hk
  refine .declare (fun _ _ => trivial) fun _ => ⟨hw.store (Nat.le_refl _) rfl ?_, Nat.le_refl _,
    trivial⟩
  exact hw.within.declare fun n hn => (hs n hn).mono fun i hi => ⟨hi.1.trans_le hk, hi.2⟩

end Check.Avoiding

theorem Check.Avoiding.modify {f : State → State}
    (hf : ∀ s, (f s).store = s.store ∧ (f s).config = s.config) :
    Check.Avoiding O k (modify f) fun _ => True := by
  intro w hw _ s hs
  have hStore : (f s).world.store = w.store := (hf s).1.trans (congrArg World.store hs)
  have hConfig : (f s).world.config = w.config := (hf s).2.trans (congrArg World.config hs)
  have hNext := congrArg Store.next hStore
  have hOther : (f s).world.Other O = w.Other O := by
    funext i
    rw [World.Other, hNext, World.Other]
  have hAvoids : (f s).world.Avoids O := by
    refine hw.store hNext.ge hConfig ?_
    rw [hOther, hStore]
    exact hw.within
  exact ⟨hAvoids, hNext.ge, trivial⟩

theorem Symbol.within_of_bare (h : symbol.node? = none) : symbol.Within P := by
  intro n hn
  rw [h] at hn
  cases hn

namespace Discovery

variable {O : Nat → Prop} {k : Nat} {load : Load} {r : Root Meta}

open Check (Avoiding)

theorem resolve_avoiding (hLoad : load.Avoiding) (name : Name) (trigger : Node Meta) :
    Avoiding O k (resolve load name trigger) fun _ => True := by
  refine Avoiding.find.bind fun symbols _ => ?_
  cases symbols with
  | cons => exact .pure trivial
  | nil =>
    refine ((hLoad O name trigger).mono (Nat.zero_le k) fun _ => id).bind fun found hFound => ?_
    cases found with
    | none => exact .pure trivial
    | some symbol =>
      refine (Avoiding.declare (Symbol.within_of_bare (hFound symbol rfl))).bind fun _ _ => ?_
      exact Avoiding.log.bind fun _ _ => .pure trivial

theorem resolveFirst_avoiding (hLoad : load.Avoiding) (trigger : Node Meta) (names : List Name) :
    Avoiding O k (resolveFirst load trigger names) fun _ => True := by
  induction names with
  | nil => exact .pure trivial
  | cons name rest ih =>
    rw [resolveFirst]
    refine (resolve_avoiding hLoad name trigger).bind fun found _ => ?_
    cases found with
    | some symbol => exact .pure trivial
    | none => exact ih

theorem declareTop_avoiding (hTop : r.top.ann.id < k ∧ ¬O r.top.ann.id) :
    Avoiding O k (declareTop r) fun _ => True := by
  refine Avoiding.find.bind fun symbols _ => ?_
  cases symbols with
  | cons => exact Avoiding.alreadyDefined.bind fun _ _ => .pure trivial
  | nil =>
    refine (Avoiding.declare (Symbol.within_of_bare rfl)).bind fun _ _ => ?_
    have hAdd : Avoiding O k (Check.modifyStore
        (·.addTop ⟨r.top.ann.id, r.fullName, r.top⟩)) fun _ => True := by
      intro w hw hk
      refine .modifyStore ⟨hw.store (Nat.le_refl _) rfl ?_, Nat.le_refl _, trivial⟩
      exact hw.within.addTop ⟨hTop.1.trans_le hk, hTop.2⟩
    refine hAdd.bind fun _ _ => Avoiding.log.bind fun _ _ => ?_
    simp only
    split
    · refine Avoiding.scopeOf.bind fun _ _ => (Avoiding.declare ?_).bind fun _ _ => .pure trivial
      intro n hn
      obtain rfl := Option.some.inj hn
      exact .of_isType trivial hTop
    · exact .pure trivial

theorem declareUse_avoiding (hLoad : load.Avoiding) (space : Text) {u : Use Meta}
    (hu : u.ann.id < k ∧ ¬O u.ann.id) :
    Avoiding O k (declareUse load space u) fun _ => True := by
  refine Avoiding.scopeOf.bind fun path _ => Avoiding.findIn.bind fun found _ => ?_
  cases found with
  | some previous =>
    simp only
    split
    · exact .pure trivial
    · exact Avoiding.alreadyDefined.bind fun _ _ => .pure trivial
  | none =>
    refine (resolve_avoiding hLoad _ _).bind fun found _ => ?_
    cases found with
    | none => exact .pure trivial
    | some symbol =>
      refine (Avoiding.declare fun n hn => ?_).bind fun _ _ => .pure trivial
      obtain rfl := Option.some.inj hn
      exact .of_isType trivial hu

theorem visitVariable_avoiding (hn : ∀ p, n = .typeParam p → n.ann.id < k ∧ ¬O n.ann.id) :
    Avoiding O k (visitVariable n) fun _ => True := by
  cases n with
  | typeParam p =>
    refine Avoiding.scopeOf.bind fun path _ => Avoiding.findIn.bind fun found _ => ?_
    cases found with
    | some previous => exact Avoiding.alreadyDefined.bind fun _ _ => .pure trivial
    | none =>
      refine (Avoiding.declare fun n hNode => ?_).bind fun _ _ => .pure trivial
      obtain rfl := Option.some.inj hNode
      exact .of_all (Node.all_iff.2 ⟨hn p rfl, by simp [Node.children]⟩)
  | _ => exact .pure trivial

theorem visitSpec_avoiding (hLoad : load.Avoiding)
    (hn : ∀ s, n = .spec s → n.ann.id < k ∧ ¬O n.ann.id) :
    Avoiding O k (visitSpec load r n) fun _ => True := by
  unfold visitSpec
  split
  · refine Avoiding.scopeOf.bind fun path _ => Avoiding.find.bind fun symbols _ => ?_
    cases symbols with
    | cons => exact .pure trivial
    | nil =>
      refine (resolveFirst_avoiding hLoad _ _).bind fun found _ => ?_
      cases found with
      | none => exact .pure trivial
      | some found =>
        simp only
        split
        · refine Avoiding.scopeOf.bind fun _ _ => (Avoiding.declare fun n hNode => ?_).bind
            fun _ _ => .pure trivial
          obtain rfl := Option.some.inj hNode
          exact .of_isType trivial (hn _ rfl)
        · exact .pure trivial
  · exact .pure trivial

end Discovery

/-- A node of a body: it has a type or symbols of its own, and stands for no type. -/
def Node.Inner : Node Meta → Prop
  | .attribute _ => True
  | .method _ => True
  | .signature _ => True
  | .param _ => True
  | .statement _ => True
  | .reference _ => True
  | .value _ => True
  | _ => False

theorem Node.inner_of_label (h : n.label = n'.label) (hn : n.Inner) : n'.Inner := by
  cases n with
  | root | use | top | typeParam | spec => exact hn.elim
  | value v =>
    cases v <;> (
      cases n' with
      | value => trivial
      | top t => cases t <;> exact nomatch h
      | spec s => cases s <;> exact nomatch h
      | _ => exact nomatch h)
  | _ =>
    cases n' with
    | value v => cases v <;> exact nomatch h
    | top t => cases t <;> exact nomatch h
    | spec s => cases s <;> exact nomatch h
    | root | use | typeParam => exact nomatch h
    | _ => trivial

theorem Root.discover_avoiding {load : Load} {r : Root Meta} (hLoad : load.Avoiding)
    (hr : ∀ n ∈ (Node.root r).nodes, ¬n.Inner → n.ann.id < k ∧ ¬O n.ann.id) :
    Check.Avoiding O k (r.discover load) fun _ => True := by
  have hTop := hr (.top r.top)
    (Node.mem_nodes_of_child (Node.self_mem_nodes _) (by simp [Node.children])) id
  refine .traced ((Discovery.declareTop_avoiding hTop).bind fun errors _ => ?_)
  cases errors with
  | cons => exact .pure trivial
  | nil =>
    refine (Check.Avoiding.collect fun u hu => ?_).bind fun _ _ => ?_
    · exact Discovery.declareUse_avoiding hLoad _ (hr (.use u)
        (Node.mem_nodes_of_child (Node.self_mem_nodes _) (by simp [Node.children, hu])) id)
    refine (Check.Avoiding.collect fun n hn => ?_).bind fun _ _ => ?_
    · exact Discovery.visitVariable_avoiding fun p hp => hr n hn (hp ▸ id)
    refine (Check.Avoiding.collect fun n hn => ?_).bind fun _ _ => .pure trivial
    exact Discovery.visitSpec_avoiding hLoad fun s hs => hr n hn (hs ▸ id)

section Update

theorem Store.Unknown.inherit_of_notMem {st : Store} (h : st.Unknown k) (hLow : low ≤ k)
    (hRenews : Node.Renews low k k' (n.renewals Meta.id n')) {i : Nat}
    (hi : i ∉ (n.renewals Meta.id n').map Prod.snd) :
    (st.inherit n n').typeOf? i = st.typeOf? i ∧ (st.inherit n n').refsOf? i = st.refsOf? i := by
  have hApart (p : Nat × Nat) (hp : p ∈ n.renewals Meta.id n') (q : Nat × Nat)
      (hq : q ∈ n.renewals Meta.id n') : p.1 ≠ q.2 := by
    have := hRenews.old p hp
    have := hRenews.new q hq
    omega
  exact ⟨(look_foldl_derive typeOf? typeOf?_derive hRenews.nodup hApart
      fun q hq => h.types _ (hRenews.new q hq).1).2 i hi,
    (look_foldl_derive refsOf? refsOf?_derive hRenews.nodup hApart
      fun q hq => h.refs _ (hRenews.new q hq).1).2 i hi⟩

theorem Store.Within.inherit {Q : Nat → Prop} {st : Store} (h : st.Within P)
    (hUnknown : st.Unknown k) (hRenews : Node.Renews k k k' (n.renewals Meta.id n'))
    (hP : ∀ i, P i → Q i) (hNew : ∀ p ∈ n.renewals Meta.id n', P p.1 → Q p.2) :
    (st.inherit n n').Within Q := by
  obtain ⟨hTable, hTops, -, -⟩ := st.inherit_frame n n'
  refine ⟨fun hEntry => ?_, fun {i symbols} hRefs => ?_, fun {i t} hType => ?_, ?_⟩
  · rw [hTable] at hEntry
    exact fun j hj => (h.table hEntry j hj).mono hP
  · by_cases hi : i ∈ (n.renewals Meta.id n').map Prod.snd
    · obtain ⟨p, hp, rfl⟩ := List.mem_map.1 hi
      rw [(hUnknown.inherit (Nat.le_refl k) hRenews hp).2] at hRefs
      exact ⟨hNew p hp (h.refs hRefs).1, fun symbol hs j hj => ((h.refs hRefs).2 symbol hs j hj).mono hP⟩
    · rw [(hUnknown.inherit_of_notMem (Nat.le_refl k) hRenews hi).2] at hRefs
      exact ⟨hP i (h.refs hRefs).1, fun symbol hs j hj => ((h.refs hRefs).2 symbol hs j hj).mono hP⟩
  · by_cases hi : i ∈ (n.renewals Meta.id n').map Prod.snd
    · obtain ⟨p, hp, rfl⟩ := List.mem_map.1 hi
      rw [(hUnknown.inherit (Nat.le_refl k) hRenews hp).1] at hType
      exact hNew p hp (h.types hType)
    · rw [(hUnknown.inherit_of_notMem (Nat.le_refl k) hRenews hi).1] at hType
      exact hP i (h.types hType)
  · rw [hTops]
    exact fun d hd => hP _ (h.tops d hd)

variable {f : Revision (TypeSpec Meta)} {O : Nat → Prop} {w : World} {r : Root Meta}

/-- A change of a source, after which the nodes that satisfy `O'` are to be left alone: those of before,
or those that are built anew in the places of such. -/
theorem Check.update_avoids {change : Revision (Root Meta)} (hChange : change r = Root.revise f r)
    (hf : f.Counts) {B : Option (Root Meta) → Nat → Prop} (hw : w.Avoids O)
    (hBelow : (Node.root r).All (·.ann.id < w.store.next))
    (hGives : (Root.revise f r).Gives w.store.next (fun _ => True) B) :
    Leads (Check.update r change) w (fun _ _ => True) fun r' w' =>
      w.store.next ≤ w'.store.next ∧
      (∃ new, r' = new.getD r ∧ r.Updates f w.store.next new w'.store.next ∧ B new w'.store.next) ∧
      ∀ O' : Nat → Prop, (∀ i, O' i → i < w'.store.next) → (∀ i, w.Other O i → ¬O' i) →
        ¬O' r'.top.ann.id → r'.top.ann.id < w'.store.next →
        (∀ p ∈ (Node.root r).renewals Meta.id (.root r'), O' p.2 → O p.1) → w'.Avoids O' := by
  unfold Check.update
  rw [hChange]
  refine .bind (P := fun new w' => w' = { w with store := { w.store with next := w'.store.next } } ∧
    w.store.next ≤ w'.store.next ∧ r.Updates f w.store.next new w'.store.next ∧ B new w'.store.next)
    (.revise ((Root.revise_updates (hf.revisable fun _ _ _ _ _ _ => trivial) hBelow).and hGives)
      (fun _ _ _ => trivial)
      fun new next hLe hNew => ⟨rfl, hLe, hNew⟩)
    fun new w₁ ⟨hSame, hLe, hNew, hB⟩ => ?_
  have hWithin : w₁.store.Within (w.Other O) := by
    rw [hSame]
    exact ⟨hw.within.table, hw.within.refs, hw.within.types, hw.within.tops⟩
  have hUnknown : w₁.store.Unknown w.store.next := by
    refine ⟨fun i hi => ?_, fun i hi => ?_⟩
    · cases hType : w₁.store.typeOf? i with
      | none => rfl
      | some t => exact absurd (hWithin.types hType).1 (Nat.not_lt.2 hi)
    · cases hRefs : w₁.store.refsOf? i with
      | none => rfl
      | some symbols => exact absurd (hWithin.refs hRefs).1.1 (Nat.not_lt.2 hi)
  have hConfig : w₁.config = w.config := by rw [hSame]
  cases new with
  | none =>
    refine .pure ⟨hLe, ⟨none, rfl, hNew, hB⟩, fun O' hBounded hOther _ _ _ => ⟨hBounded, ?_, ?_⟩⟩
    · exact hWithin.mono fun i hi => ⟨hi.1.trans_le hLe, hOther i hi⟩
    · exact hConfig ▸ hw.loaders
  | some r' =>
    refine .bind (P := fun _ w' => w' = { w₁ with store := (w₁.store.renew r r').link (.root r') })
      (.modifyStore rfl) fun _ w₂ hw₂ => .pure ?_
    have hNext : w₂.store.next = w₁.store.next := by
      obtain ⟨-, -, -, hNext⟩ := w₁.store.inherit_frame (.root r) (.root r')
      obtain ⟨_, hRenew⟩ | hRenew := w₁.store.renew_eq_or r r' <;> rw [hw₂, hRenew] <;> exact hNext
    refine ⟨hLe.trans hNext.ge, ⟨some r', rfl, hNext ▸ hNew, hNext ▸ hB⟩,
      fun O' hBounded hOther hTop hTopBelow hAnew => ⟨hBounded, ?_, ?_⟩⟩
    · have hInherit := hWithin.inherit (Q := fun i => i < w₁.store.next ∧ ¬O' i) hUnknown hNew.renews
        (fun i hi => ⟨hi.1.trans_le hLe, hOther i hi⟩)
        fun p hp hOld => ⟨(hNew.renews.new p hp).2, fun hi => hOld.2 (hAnew p hp hi)⟩
      have hRenewed : (w₁.store.renew r r').Within fun i => i < w₁.store.next ∧ ¬O' i := by
        obtain ⟨i, hRenew⟩ | hRenew := w₁.store.renew_eq_or r r' <;> rw [hRenew]
        · exact hInherit.setTop ⟨hNext ▸ hTopBelow, hTop⟩
        · exact hInherit
      change w₂.store.Within fun i => i < w₂.store.next ∧ ¬O' i
      rw [hNext, hw₂]
      exact ⟨hRenewed.table, hRenewed.refs, hRenewed.types, hRenewed.tops⟩
    · rw [hw₂]
      exact hConfig ▸ hw.loaders

theorem TypeSpec.qualify?_counts (table : Scope) (space : Text) :
    Revision.Counts (TypeSpec.qualify? table space) :=
  fun s k => (TypeSpec.qualify?_recast k s fun n _ => .any n).1

theorem TypeSpec.flatten?_counts : Revision.Counts fun s => liftM s.flatten? :=
  fun s k => (TypeSpec.flatten?_recast k s).1

/-- A node that has a number below `k` and is not to be left alone; the numbers from `low` on are
free. -/
structure Node.Elsewhere (O : Nat → Prop) (low k : Nat) (n : Node Meta) : Prop where
  low : low ≤ k
  below : n.ann.id < k
  other : ¬O n.ann.id

theorem Node.Elsewhere.renewed (hO : ∀ i, O i → i < low) (hLow : low ≤ k) (hId : n.ann.id = k) :
    n.Elsewhere O low (k + 1) :=
  ⟨hLow.trans (Nat.le_succ k), hId ▸ Nat.lt_succ_self k,
    fun hi => absurd (hO _ hi) (hId ▸ Nat.not_lt.2 hLow)⟩

theorem Node.elsewhere_renewable (hO : ∀ i, O i → i < low) :
    Renewable (Node.Elsewhere O low) where
  mono hLe h := ⟨h.low.trans hLe, h.below.trans_le hLe, h.other⟩
  renew h _ _ hAnn := .renewed hO h.low (by rw [hAnn])

/-- The nodes of a tree have numbers that are given out, and are not to be left alone. -/
def Root.Other (O : Nat → Prop) (r : Root Meta) (w : World) : Prop :=
  (Node.root r).All fun n => w.Other O n.ann.id

theorem Root.Other.mono {w' : World} (h : r.Other O w) (hNext : w.store.next ≤ w'.store.next) :
    r.Other O w' :=
  Node.All.mono h fun _ => World.Avoids.other hNext

theorem Check.update_other {change : Revision (Root Meta)} (hChange : change r = Root.revise f r)
    (hf : f.Counts) {E : Node Meta → Node.Label → Prop} {splices : Bool}
    (hRecast : (Root.revise f r).Gives w.store.next (fun _ => True) fun new k' =>
      r.Recast E splices w.store.next (new.getD r) new.isSome k')
    (hw : w.Avoids O) (hr : r.Other O w) :
    Leads (Check.update r change) w (fun _ _ => True) fun r' w' =>
      w'.Avoids O ∧ w.store.next ≤ w'.store.next ∧ r'.Other O w' := by
  refine (Check.update_avoids hChange hf hw (Node.All.mono hr fun _ hn => hn.1) hRecast).mono
    (fun _ _ => id) fun r' w' ⟨hNext, ⟨new, hEq, hUpdates, hNew⟩, hAvoids⟩ => ?_
  have hElsewhere : (Node.root (new.getD r)).All (Node.Elsewhere O w.store.next w'.store.next) := by
    refine hNew.all (Node.elsewhere_renewable hw.bounded) (fun {k n n'} hn _ hAnn => ?_)
      (Node.All.mono hr fun n hn => ⟨Nat.le_refl _, hn.1, hn.2⟩)
    exact .renewed hw.bounded hn.low (by rw [hAnn])
  have hAll : r'.Other O w' := by
    rw [hEq]
    exact hElsewhere.mono fun n hn => ⟨hn.below, hn.other⟩
  have hTop : w'.Other O r'.top.ann.id :=
    (Node.All.child (k := .top r'.top) hAll (by simp [Node.children])).self
  refine ⟨hAvoids O (fun i hi => (hw.bounded i hi).trans_le hNext) (fun i hi => hi.2) hTop.2 hTop.1
    fun p hp hi => ?_, hNext, hAll⟩
  exact absurd (hw.bounded _ hi) (Nat.not_lt.2 (hUpdates.renews.new p (hEq ▸ hp)).1)

theorem Root.qualify_other (hw : w.Avoids O) (hr : r.Other O w) :
    Leads r.qualify w (fun _ _ => True) fun r' w' =>
      w'.Avoids O ∧ w.store.next ≤ w'.store.next ∧ r'.Other O w' := by
  refine .traced (.bind (P := fun st w' => st = w.store ∧ w' = w) (.store ⟨rfl, rfl⟩)
    fun st w₁ ⟨hst, hw₁⟩ => ?_)
  subst hst hw₁
  exact Check.update_other rfl (TypeSpec.qualify?_counts _ r.space) (Root.qualify?_recast
    (fun n _ => .any n) (Node.All.mono hr fun _ hn => hn.1)) hw hr

theorem Root.flatten_other (hw : w.Avoids O) (hr : r.Other O w) :
    Leads r.flatten w (fun _ _ => True) fun r' w' =>
      w'.Avoids O ∧ w.store.next ≤ w'.store.next ∧ r'.Other O w' :=
  .traced (Check.update_other rfl TypeSpec.flatten?_counts
    (Root.flatten?_recast (Node.All.mono hr fun _ hn => hn.1)) hw hr)

end Update

section Names

variable {O : Nat → Prop} {k : Nat} {r : Root Meta}

open Check (Avoiding)

theorem NameEvent.declareName_avoiding (path : Path) (name : Text)
    (hn : n.All fun j => j.ann.id < k ∧ ¬O j.ann.id) :
    Avoiding O k (declareName path name n) fun _ => True := by
  refine Avoiding.findIn.bind fun found _ => ?_
  cases found with
  | some previous => exact Avoiding.alreadyDefined.bind fun _ _ => .pure trivial
  | none =>
    refine (Avoiding.declare fun j hj => ?_).bind fun _ _ =>
      Avoiding.log.bind fun _ _ => .pure trivial
    obtain rfl := Option.some.inj hj
    exact .of_all hn

theorem NameEvent.resolve_avoiding {ref : Reference Meta}
    (hRef : ref.ann.id < k ∧ ¬O ref.ann.id) : Avoiding O k (resolve ref) fun _ => True := by
  refine (Avoiding.same (Q := fun _ => True) fun _ => .store ⟨rfl, trivial⟩).bind fun st _ =>
    Avoiding.orFault.bind fun name _ => Avoiding.scopeOf.bind fun path _ => ?_
  intro w hw hk
  refine .bind (P := fun symbols w' => w' = w ∧ ∀ symbol ∈ symbols, symbol.Within (w.Other O))
    (.find ?_) fun symbols w₁ ⟨hSame, hSymbols⟩ => ?_
  · cases hFind : w.store.table.find path (Name.ofText name) with
    | error f => trivial
    | ok symbols => exact ⟨rfl, hw.within.find hFind⟩
  subst hSame
  cases symbols with
  | nil => exact .pure ⟨hw, Nat.le_refl _, trivial⟩
  | cons symbol rest =>
    refine .bind (P := fun _ w' => w'.Avoids O ∧ w₁.store.next ≤ w'.store.next)
      (.modifyStore ⟨?_, Nat.le_refl _⟩) fun _ w₂ h₂ => .pure ⟨h₂.1, h₂.2, trivial⟩
    exact hw.store (Nat.le_refl _) rfl
      (hw.within.setRefs ⟨hRef.1.trans_le hk, hRef.2⟩ hSymbols)

theorem Root.resolveNames_avoiding (hr : (Node.root r).All fun n => n.ann.id < k ∧ ¬O n.ann.id) :
    Avoiding O k r.resolveNames fun _ => True := by
  have hNode {e : NameEvent} (he : e ∈ r.top.nameEvents) :
      e.node.All fun n => n.ann.id < k ∧ ¬O n.ann.id :=
    (hr.child (k := .top r.top) (by simp [Node.children])).of_mem
      (TopLevel.node_of_mem_nameEvents he)
  refine .traced ((Avoiding.collect fun e he => ?_).bind fun _ _ =>
    (Avoiding.collect fun e he => ?_).bind fun _ _ => .pure trivial)
  · cases e with
    | declare scope name n =>
      cases scope with
      | some path => exact NameEvent.declareName_avoiding _ _ (hNode he)
      | none => exact .throw
    | refer ref name =>
      rw [NameEvent.settle]
      split
      · exact .pure trivial
      · exact NameEvent.resolve_avoiding (hNode he).self
  · cases e with
    | declare => exact .pure trivial
    | refer ref name =>
      rw [NameEvent.settleLate]
      split
      · exact NameEvent.resolve_avoiding (hNode he).self
      · exact .pure trivial

end Names

namespace Infer

variable {P : Nat → Prop} {p p' : Stage}

theorem Stage.note_within (h : P id) (t : Option Spec) (hp : p.store.Within P) :
    (p.note id t).store.Within P := by
  cases t with
  | none => exact hp
  | some t => exact hp.setType h t

theorem Stage.Step.within (h : Stage.Step P (Node.Within P) p p') (hp : p.store.Within P) :
    p'.store.Within P := by
  cases h with
  | note h t => exact note_within h t hp
  | narrow h hRefs hs =>
    exact hp.setRefs h (List.forall_mem_singleton.2 ((hp.refs hRefs).2 _ hs))
  | report =>
    rw [Stage.store_report]
    exact hp
  | grow => exact ⟨hp.table, hp.refs, hp.types, hp.tops⟩
  | finish | enter | leave => exact hp
  | start => exact hp
  | @close n t h _ _ =>
    refine note_within h.1 t ?_
    obtain hEq | ⟨-, -, -, hEq⟩ := p.conclude_eq n t
    · rw [hEq]
      exact hp
    · rw [hEq, Stage.leave, Stage.store_report]
      exact hp
  | @widen n old h _ t =>
    have hGrown : (p.fresh (oneOf [old, t])).2.store.Within P :=
      ⟨hp.table, hp.refs, hp.types, hp.tops⟩
    exact hGrown.setType h.1 _

theorem targets_of_within (hp : p.store.Within P) : p.Targets fun i n => P i → n.Within P :=
  fun _ _ hRefs symbol hs _ hn _ => hp.decl? ((hp.refs hRefs).2 symbol hs) hn

theorem RunsEach.steps {ns : List (Node Meta)} (h : RunsEach ns p p') (hns : ∀ n ∈ ns, n.Within P)
    (hp : p.Targets fun i n => P i → n.Within P) : Stage.Steps P (Node.Within P) p p' := by
  induction h with
  | nil => exact .refl _
  | cons h hRest ih =>
    have hFirst := h.steps (fun _ => id) (hns _ List.mem_cons_self) hp
    exact hFirst.trans (ih (fun n hn => hns n (List.mem_cons_of_mem _ hn)) (hFirst.later.targets hp))

end Infer

theorem Root.units_within {r : Root Meta} (hr : (Node.root r).All (P ·.ann.id)) :
    ∀ n ∈ r.units, n.Within P := by
  have hTop : (Node.top r.top).All (P ·.ann.id) := hr.child (by simp [Node.children])
  have hChild : ∀ n ∈ r.units, n ∈ (Node.top r.top).children := by
    unfold Root.units
    cases r.top <;> simp only [Node.children, List.mem_append] <;> grind
  exact fun n hn => .of_all (hTop.child (hChild n hn))

section Check

variable {O : Nat → Prop} {w : World} {r : Root Meta} {load : Load}

theorem Root.infer_other (hw : w.Avoids O) (hr : r.Other O w) :
    Leads r.infer w (fun _ _ => True) fun _ w' =>
      w'.Avoids O ∧ w.store.next ≤ w'.store.next := by
  refine (r.infer_follows w).mono (fun _ _ => id) fun errors w' ⟨hSame, p, hRuns, _, hSettles⟩ => ?_
  have hTop : w.Other O r.top.ann.id :=
    (Node.All.child (k := .top r.top) hr (by simp [Node.children])).self
  have hBegin := Infer.Stage.begin_steps (P := w.Other O) (Q := Node.Within (w.Other O))
    ⟨.start, w.store⟩ r hTop
  have hSteps := hBegin.trans (hRuns.steps (Root.units_within hr)
    (hBegin.later.targets (Infer.targets_of_within hw.within)))
  have hWithin : p.store.Within (w.Other O) := hSteps.keep (fun h => h.within) hw.within
  have hNext : w.store.next ≤ w'.store.next := hSteps.later.next.trans hSettles.next
  refine ⟨hw.store hNext (by rw [hSame]) ?_, hNext⟩
  refine Store.Within.mono (P := w.Other O) ⟨?_, ?_, ?_, ?_⟩ fun _ => World.Avoids.other hNext
  · rw [hSettles.table]
    exact hWithin.table
  · unfold Store.refsOf?
    rw [hSettles.refs]
    exact hWithin.refs
  · intro i t ht
    have hTyped := hSettles.isSome i
    rw [ht] at hTyped
    obtain ⟨t', ht'⟩ := Option.isSome_iff_exists.1 hTyped.symm
    exact hWithin.types ht'
  · rw [hSettles.tops]
    exact hWithin.tops

theorem World.Avoids.openAll (hw : w.Avoids O) (paths : List Path) : (w.openAll paths).Avoids O where
  bounded := hw.bounded
  within := by
    refine ⟨fun {path key name symbol} hEntry => ?_, hw.within.refs, hw.within.types, hw.within.tops⟩
    unfold Scope.Entry at hEntry
    rw [World.openAll, Scope.bindingsAt_openAll] at hEntry
    exact hw.within.table hEntry
  loaders := hw.loaders

theorem World.Avoids.link (hw : w.Avoids O) (n : Node Meta) :
    World.Avoids O { w with store := w.store.link n } :=
  ⟨hw.bounded, ⟨hw.within.table, hw.within.refs, hw.within.types, hw.within.tops⟩, hw.loaders⟩

theorem Root.check_other (hLoad : load.Avoiding) (hw : w.Avoids O) (hr : r.Other O w) :
    Leads (r.check load) w (fun _ _ => True) fun _ w' =>
      w'.Avoids O ∧ w.store.next ≤ w'.store.next := by
  have hPlace : r.place.Other O w := by
    intro n hn
    have hId : n.ann.id ∈ (Node.root r).ids := r.ids_place ▸ List.mem_map_of_mem hn
    obtain ⟨k, hk, hEq⟩ := List.mem_map.1 hId
    exact hEq ▸ hr k hk
  refine .traced (.bind (P := fun r' w' => r' = r.place ∧ w' = w.openAll r.scopes) ?_ ?_)
  · refine .traced (.bind (P := fun _ w' => w' = w.openAll r.scopes) (.modifyStore rfl) ?_)
    exact fun _ w' hw' => .pure ⟨rfl, hw'⟩
  rintro r₁ w₁ ⟨rfl, rfl⟩
  refine .bind (P := fun _ w' => w'.Avoids O ∧ w.store.next = w'.store.next)
    (.modifyStore ⟨(hw.openAll _).link _, rfl⟩) fun _ w₂ ⟨hw₂, hNext₂⟩ => ?_
  have hPlace₂ := hPlace.mono hNext₂.le
  refine (Root.discover_avoiding hLoad (fun n hn _ => hPlace₂ n hn) w₂ hw₂ (Nat.le_refl _)).bind
    fun found w₃ ⟨hw₃, hNext₃, _⟩ => ?_
  refine .bind (P := fun _ w' => w' = w₃) (.store rfl) fun st w₄ hw₄ => ?_
  subst hw₄
  have hNext := hNext₂.le.trans hNext₃
  split
  · exact .pure ⟨hw₃, hNext⟩
  · refine (Root.qualify_other hw₃ (hPlace₂.mono hNext₃)).bind fun r₂ w₅ ⟨hw₅, hNext₅, hr₂⟩ => ?_
    refine (Root.flatten_other hw₅ hr₂).bind fun r₃ w₆ ⟨hw₆, hNext₆, hr₃⟩ => ?_
    refine (Root.resolveNames_avoiding hr₃ w₆ hw₆ (Nat.le_refl _)).bind
      fun names w₇ ⟨hw₇, hNext₇, _⟩ => ?_
    refine (Root.infer_other hw₇ (hr₃.mono hNext₇)).bind fun types w₈ ⟨hw₈, hNext₈⟩ => .pure ⟨hw₈, ?_⟩
    omega

end Check

namespace Compilation

variable {O : Nat → Prop} {k : Nat} {load : Load}

open Check (Avoiding)

theorem read_other (u : SourceUnit) {w : World} (hw : w.Avoids O) :
    Leads (read u) w (fun _ _ => True) fun result w' => w'.Avoids O ∧
      w.store.next ≤ w'.store.next ∧ ∀ r, result = some r → r.Other O w' := by
  unfold read
  refine .get fun s hs => ?_
  subst hs
  cases hRead : Root.read s.files u.space u.path u.text s.store.next with
  | mk files rest =>
    obtain ⟨result, next⟩ := rest
    obtain ⟨-, hNext, hOk⟩ := Root.read_spec hRead
    simp only
    refine .bind (.set (Q := fun _ w' => w'.Avoids O ∧ s.store.next ≤ w'.store.next ∧
      w'.store.next = next) ⟨hw.store hNext rfl ?_, hNext, rfl⟩)
      fun _ w₁ ⟨hw₁, hNext₁, hEq⟩ => ?_
    · refine Store.Within.mono (P := World.Other O s.world)
        ⟨hw.within.table, hw.within.refs, hw.within.types, hw.within.tops⟩ fun i hi => ?_
      exact ⟨hi.1.trans_le hNext, hi.2⟩
    have hChange (f : SourceUnit → SourceUnit) : Leads (modify fun s => s.changeUnit u.name f) w₁
        (fun _ _ => True) fun _ w' => w'.Avoids O ∧ s.store.next ≤ w'.store.next ∧
          w'.store.next = next := by
      rintro s' rfl
      exact ⟨⟨hw₁.bounded, hw₁.within, hw₁.loaders⟩, hNext₁, hEq⟩
    cases result with
    | error m => exact (hChange _).bind fun _ _ h => .pure ⟨h.1, h.2.1, by simp⟩
    | ok r =>
      refine (hChange _).bind fun _ w₂ ⟨hw₂, hNext₂, hEq₂⟩ => .pure ⟨hw₂, hNext₂, fun r' hr => ?_⟩
      obtain rfl := Option.some.inj hr
      intro n hn
      obtain ⟨hLow, hHigh⟩ := (hOk r rfl).2.1.mem _ (List.mem_map_of_mem hn)
      exact ⟨hEq₂ ▸ hHigh, fun hi => absurd (hw.bounded _ hi) (Nat.not_lt.2 hLow)⟩

theorem compileWith_avoiding (hLoad : load.Avoiding) (u : SourceUnit) :
    Avoiding O k (compileWith load u) fun _ => True := by
  have hStatus (status : Status) : Avoiding O k
      (modify fun s => s.changeUnit u.name fun u => { u with status } : Check Unit) fun _ => True :=
    .modify fun s => ⟨rfl, rfl⟩
  unfold compileWith
  split
  · exact .pure trivial
  · exact .pure trivial
  · refine .traced ((hStatus _).bind fun _ _ => Avoiding.bind (P := fun _ => True) ?_
      fun _ _ => hStatus _)
    intro w hw hk
    refine .caught (G := fun _ _ => True) ?_ fun f w' _ => ?_
    · refine (read_other u hw).bind fun result w₁ ⟨hw₁, hNext₁, hRead⟩ => ?_
      cases result with
      | none => exact .pure ⟨hw₁, hNext₁, trivial⟩
      | some r =>
        refine (Root.check_other hLoad hw₁ (hRead r rfl)).bind fun p w₂ ⟨hw₂, hNext₂⟩ => ?_
        refine ((Avoiding.modify (O := O) (k := 0) (by intro s; exact ⟨rfl, rfl⟩)) w₂ hw₂ (Nat.zero_le _)).mono
          (fun _ _ => id) fun _ w₃ ⟨hw₃, hNext₃, _⟩ => ⟨hw₃, ?_, trivial⟩
        omega
    · intro s _
      rw [Check.ending_bind]
      trivial

theorem symbol_bare {s : State} {name : Text}
    (h : ((s.unit? name).bind fun u => u.symbol? s.store) = some symbol) : symbol.node? = none := by
  obtain ⟨u, _, hSymbol⟩ := Option.bind_eq_some_iff.1 h
  obtain ⟨d, _, rfl⟩ := Option.map_eq_some_iff.1 hSymbol
  rfl

theorem loadBy_avoiding {compile : SourceUnit → Check Unit}
    (hCompile : ∀ u, Avoiding O k (compile u) fun _ => True) (name : Name) :
    Avoiding O k (loadBy compile name) fun found =>
      ∀ symbol, found = some symbol → symbol.node? = none := by
  refine .get fun s => ?_
  split
  · exact .pure (by simp)
  · rename_i u _
    have hRest : Avoiding O k (do
        compile u
        let s ← get
        return (s.unit? name.full).bind fun u => u.symbol? s.store) fun found =>
          ∀ symbol, found = some symbol → symbol.node? = none :=
      (hCompile u).bind fun _ _ => .get fun s => .pure fun symbol h => symbol_bare h
    simp only
    split
    · exact Avoiding.log.bind fun _ _ => hRest
    · exact hRest

end Compilation

theorem Check.ask_avoiding (name : Name) (trigger : Option (Node Meta)) {loaders : List Loader}
    (h : ∀ l ∈ loaders, ∀ name symbol, l.known? name = some symbol → symbol.node? = none) :
    Check.Avoiding O k (Check.ask name trigger loaders) fun found =>
      ∀ symbol, found = some symbol → symbol.node? = none := by
  induction loaders with
  | nil => exact .pure (by simp)
  | cons l rest ih =>
    rw [Check.ask]
    refine (Check.Avoiding.modify (by intro s; exact ⟨rfl, rfl⟩)).bind fun _ _ => ?_
    split
    · rename_i symbol hKnown
      refine .pure fun symbol' hSymbol => ?_
      obtain rfl := Option.some.inj hSymbol
      exact h l List.mem_cons_self name symbol hKnown
    · exact ih fun l hl => h l (List.mem_cons_of_mem _ hl)

theorem Check.loadListed_avoiding : Load.Avoiding Check.loadListed := by
  intro O name trigger w hw hk
  refine .get fun s hs => ?_
  have hLoaders : s.config = w.config := congrArg World.config hs
  exact Check.ask_avoiding name _ (hLoaders ▸ hw.loaders) w hw hk

namespace Compilation

theorem orListed_avoiding {first : Name → Check (Option Symbol)}
    (h : ∀ O name, Check.Avoiding O 0 (first name) fun found =>
      ∀ symbol, found = some symbol → symbol.node? = none) : (orListed first).Avoiding := by
  intro O name trigger
  refine (h O name).bind fun found hFound => ?_
  cases found with
  | some symbol => exact .pure hFound
  | none => exact Check.loadListed_avoiding O name trigger

theorem load_avoiding (depth : Nat) (O : Nat → Prop) (name : Name) :
    Check.Avoiding O 0 (load depth name) fun found =>
      ∀ symbol, found = some symbol → symbol.node? = none := by
  induction depth generalizing O name with
  | zero =>
    refine loadBy_avoiding (fun u => ?_) name
    split
    · exact .throw
    · exact .pure trivial
  | succ depth ih => exact loadBy_avoiding (compileWith_avoiding (orListed_avoiding ih)) name

theorem compile_avoiding (O : Nat → Prop) (u : SourceUnit) :
    Check.Avoiding O 0 (compile u) fun _ => True :=
  .get fun _ => compileWith_avoiding (orListed_avoiding (load_avoiding _)) u

end Compilation

namespace Supply

def Treeless : Supply → Prop
  | .answers f => ∀ name trigger symbol, f name trigger = some symbol → symbol.node? = none
  | .loaders ls => ∀ l ∈ ls, ∀ name symbol, l.known? name = some symbol → symbol.node? = none
  | .units => True

theorem load_avoiding {supply : Supply} (h : supply.Treeless) : supply.load.Avoiding := by
  intro O name trigger
  cases supply with
  | answers f => exact .pure fun symbol hSymbol => h name trigger symbol hSymbol
  | loaders ls => exact Check.ask_avoiding _ _ h
  | units => exact .get fun _ => Compilation.load_avoiding _ O name

theorem chain_avoiding {supplies : List Supply} (h : ∀ supply ∈ supplies, supply.Treeless) :
    (chain supplies).Avoiding := by
  induction supplies with
  | nil => exact fun _ _ _ => .pure (by simp)
  | cons supply rest ih =>
    intro O name trigger
    refine (load_avoiding (h supply List.mem_cons_self) O name trigger).bind fun found hFound => ?_
    cases found with
    | some symbol => exact .pure hFound
    | none => exact ih (fun s hs => h s (List.mem_cons_of_mem _ hs)) O name trigger

end Supply

end Assay
