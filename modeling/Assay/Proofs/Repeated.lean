import Mathlib
import Assay.Proofs.Calls
import Assay.Proofs.Mapped

/-! A source that declares a type again. Its check opens scopes, finds the type declared, and stops
there: it says so and changes nothing else, whatever types are loaded from. -/

namespace Assay

/-- A table that has at most new scopes, with nothing in them. Names with a key are found in it as
before. -/
structure Scope.OpensOnly (t t' : Scope) : Prop where
  kept : ∀ q s, t.at? q = some s → ∃ s', t'.at? q = some s' ∧ s'.symbols = s.symbols
  bare : ∀ q s', t.at? q = none → t'.at? q = some s' → s'.symbols = []
  find : ∀ q name key, name.key = .ok key → t'.find q name = t.find q name

namespace Scope

variable {t t' : Scope}

theorem membersAt_congr (h : ∀ q, t'.bindingsAt q = t.bindingsAt q) (q : Path) (key : Key) :
    t'.membersAt q key = t.membersAt q key := by
  rw [membersAt, membersAt, h]

theorem find_congr (h : ∀ q, t'.bindingsAt q = t.bindingsAt q) (q : Path) {name : Name} {key : Key}
    (hKey : name.key = .ok key) : t'.find q name = t.find q name := by
  by_cases hQualified : name.isQualified
  · have hRoot (u : Scope) : u.find q name = u.find [] name := by
      rw [Scope.find, Scope.find, if_pos hQualified, if_pos hQualified]
    rw [hRoot t', hRoot t, find_root hKey, find_root hKey, membersAt_congr h]
  · simp only [Scope.find, if_neg hQualified, nearest?_eq_findSome?, membersAt_congr h]

theorem isSome_at?_openAt {q : Path} (path : Path) (h : (t.at? q).isSome) :
    ((t.openAt path).at? q).isSome := by
  induction q using List.reverseRecOn with
  | nil => rfl
  | append_singleton q name _ =>
    rw [isSome_at?_concat] at h ⊢
    rw [openAt, namesAt_change Local.id]
    split
    · split
      · exact h
      · unfold withName
        split
        · exact h
        · exact List.mem_append_left _ h
    · exact h

theorem openAt_foldl (paths : List Path) (t : Scope) :
    (∀ q, (paths.foldl (fun u path => u.openAt path) t).bindingsAt q = t.bindingsAt q) ∧
      ∀ q, (t.at? q).isSome → ((paths.foldl (fun u path => u.openAt path) t).at? q).isSome := by
  induction paths generalizing t with
  | nil => exact ⟨fun _ => rfl, fun _ => id⟩
  | cons path rest ih =>
    obtain ⟨hBindings, hSome⟩ := ih (t.openAt path)
    exact ⟨fun q => (hBindings q).trans (bindingsAt_openAt path q t),
      fun q h => hSome q (isSome_at?_openAt path h)⟩

theorem opensOnly_foldl (paths : List Path) (t : Scope) :
    t.OpensOnly (paths.foldl (fun u path => u.openAt path) t) := by
  obtain ⟨hBindings, hSome⟩ := openAt_foldl paths t
  refine ⟨fun q s hs => ?_, fun q s' hs hs' => ?_, fun q name key => find_congr hBindings q⟩
  · obtain ⟨s', hs'⟩ := Option.isSome_iff_exists.1 (hSome q (hs ▸ rfl))
    have hSame := hBindings q
    rw [bindingsAt_of_at? hs', bindingsAt_of_at? hs] at hSame
    exact ⟨s', hs', congrArg (List.flatMap Binding.members) hSame⟩
  · have hSame := hBindings q
    rw [bindingsAt_of_at? hs', bindingsAt, hs] at hSame
    exact congrArg (List.flatMap Binding.members) hSame

end Scope

def State.Matches (s t : State) : Prop := t.world = s.world ∧ t.asked = s.asked

namespace Check

variable {α β : Type} {m : Check α} {s s₁ s₂ : State} {a : α}

/-- From a state a step comes to a result and another state, where the trace does not count. -/
def ComesTo (m : Check α) (s : State) (a : α) (s' : State) : Prop :=
  ∀ t, s.Matches t → ∃ t', ending m t = (.ok a, t') ∧ s'.Matches t'

namespace ComesTo

theorem pure (a : α) (s : State) : ComesTo (Pure.pure a) s a s := fun t h => ⟨t, rfl, h⟩

theorem bind {k : α → Check β} {b : β} (hm : ComesTo m s a s₁) (hk : ComesTo (k a) s₁ b s₂) :
    ComesTo (m >>= k) s b s₂ := by
  intro t ht
  obtain ⟨t₁, hEnd, ht₁⟩ := hm t ht
  rw [ending_bind, hEnd]
  exact hk t₁ ht₁

theorem modified {f : State → State} (hf : ∀ t, s.Matches t → s₁.Matches (f t)) :
    ComesTo (modify f) s () s₁ := fun t ht => ⟨f t, rfl, hf t ht⟩

theorem modifyStore (f : Store → Store) :
    ComesTo (Check.modifyStore f) s () { s with store := f s.store } := by
  refine modified ?_
  rintro t ⟨hWorld, hAsked⟩
  exact ⟨congrArg (fun w : World => { w with store := f w.store }) hWorld, hAsked⟩

theorem store : ComesTo Check.store s s.store s :=
  fun t ht => ⟨t, congrArg (fun w : World => (Except.ok w.store, t)) ht.1, ht⟩

theorem log (line : Text) : ComesTo (Check.log line) s () s := by
  refine modified fun t ht => ?_
  split
  · exact ht
  · exact ht

theorem caught {k : Fault → Check α} (h : ComesTo m s a s₁) : ComesTo (tryCatch m k) s a s₁ := by
  intro t ht
  obtain ⟨t', hEnd, ht'⟩ := h t ht
  exact ⟨t', by rw [ending_tryCatch, hEnd], ht'⟩

theorem get {k : State → Check α} (h : ∀ t, ComesTo (k t) s a s₁) :
    ComesTo (MonadState.get >>= k) s a s₁ := by
  intro t ht
  rw [ending_bind]
  exact h t t ht

theorem traced {name : Text} {errors : α → List Diagnostic} (h : ComesTo m s a s₁) :
    ComesTo (Check.traced name errors m) s a s₁ := by
  have hDepth {s : State} (n : Nat) : ComesTo (modify fun s => { s with depth := n }) s () s :=
    modified fun _ ht => ht
  unfold Check.traced
  refine bind (log name) (get fun t => ?_)
  have hLast : ComesTo (do modify fun s' => { s' with depth := t.depth }; return a) s₁ a s₁ :=
    bind (hDepth t.depth) (.pure a s₁)
  refine bind (hDepth (t.depth + 1)) (bind (caught h) ?_)
  simp only
  split
  · exact hLast
  · exact bind (log _) hLast

theorem find {path : Path} {name : Name} {symbols : List Symbol}
    (h : s.store.table.find path name = .ok symbols) : ComesTo (Check.find path name) s symbols s := by
  refine bind store ?_
  rw [h]
  exact .pure symbols s

end ComesTo

end Check

namespace Root

variable {r : Root Meta} {s : State} {previous : Symbol} {more : List Symbol}

/-- The state in which the check of a source stops that declares a type again. -/
def stopped (r : Root Meta) (s : State) : State :=
  let table := r.scopes.foldl (fun t path => t.openAt path) s.store.table
  { s with store := Store.link { s.store with table } (.root r.place) }

def again (r : Root Meta) (st : Store) (previous : Symbol) : Diagnostic :=
  .ofNode (.alreadyDefined r.fullName ((st.position? previous).map (·.location))) (.top r.place.top)

theorem check_comesTo (hFound : s.store.table.find [] (Name.ofText r.fullName) = .ok (previous :: more))
    (hNew : s.store.declaredBy? r.top = none) (load : Load) :
    Check.ComesTo (r.check load) s (r.place, [r.again s.store previous]) (r.stopped s) := by
  have hName := r.fullName_place
  have hOpen : Check.ComesTo r.openScopes s r.place { s with store := { s.store with
      table := r.scopes.foldl (fun t path => t.openAt path) s.store.table } } :=
    .traced (.bind (.modifyStore _) (.pure _ _))
  have hStopped : (r.stopped s).store.table.find [] (Name.ofText r.place.fullName) =
      .ok (previous :: more) := by
    obtain ⟨_, key, _, _, hKey, _⟩ := Scope.entry_of_mem_find hFound List.mem_cons_self
    rw [hName, ← hFound]
    exact (Scope.opensOnly_foldl r.scopes s.store.table).find [] _ key hKey
  have hDeclare : Check.ComesTo (Discovery.declareTop r.place) (r.stopped s)
      [r.again s.store previous] (r.stopped s) := by
    rw [again, ← hName]
    exact .bind (.find hStopped) (.bind (.bind .store (.pure _ _)) (.pure _ _))
  have hDiscover : Check.ComesTo (r.place.discover load) (r.stopped s) [r.again s.store previous]
      (r.stopped s) :=
    .traced (.bind hDeclare (.pure _ _))
  have hBy : (r.stopped s).store.declaredBy? r.place.top = none := by
    rw [Store.declaredBy?, show r.place.top.ann.id = r.top.ann.id from TopLevel.id_place _ _]
    exact hNew
  refine .traced (.bind hOpen (.bind (.modifyStore _) (.bind hDiscover (.bind .store ?_))))
  have hSort (d : Diagnostic) : Diagnostic.sort [d] = [d] := by
    rw [Diagnostic.sort, List.mergeSort_singleton]
    rfl
  simp only [hBy, hSort]
  exact .pure _ _

/-- A source whose full name is found in the table before its check, and which was not checked before,
is left alone, whatever is done to load a type: the check gives back its tree, with its nodes in their
scopes, and the one diagnostic that its top-level declaration is there already. No loader is asked, and
nothing is declared: the scopes of the table keep their symbols, and new ones have none. -/
theorem repeated_declaration_inert
    (hFound : s.store.table.find [] (Name.ofText r.fullName) = .ok (previous :: more))
    (hNew : s.store.declaredBy? r.top = none) (load : Load) :
    ∃ r' s', Check.ending (r.check load) s = (.ok (r', [.ofNode (.alreadyDefined r.fullName
        ((s.store.position? previous).map (·.location))) (.top r'.top)]), s') ∧
      (Node.root r').map Meta.unplaced = (Node.root r).map Meta.unplaced ∧
      s'.asked = s.asked ∧ s'.units = s.units ∧ s'.store.tops = s.store.tops ∧
      s'.store.types = s.store.types ∧ s'.store.refs = s.store.refs ∧
      s.store.table.OpensOnly s'.store.table := by
  obtain ⟨s', hEnd, hWorld, hAsked⟩ := check_comesTo hFound hNew load s ⟨rfl, rfl⟩
  obtain ⟨hStore, -, -, hUnits⟩ := World.mk.inj hWorld
  refine ⟨r.place, s', hEnd, r.unplaced_place, hAsked, hUnits, ?_⟩
  rw [hStore]
  exact ⟨rfl, rfl, rfl, Scope.opensOnly_foldl r.scopes s.store.table⟩

/-- A source that declares the type of a unit again, with a method that the unit does not have. -/
theorem repeated_declaration_inert_of_unit :
    let s := Call.after [.add "p.A" "p" "A.th" "class A { }", .compileAll] (.start .default)
    ∃ r r' d s', (Root.read s.files "p" "B.th" "class A { m() { } }" s.store.next).2.1 = .ok r ∧
      Check.ending (r.check fun _ _ => throw .impossible) s = (.ok (r', [d]), s') ∧
      d.node = some (.top r'.top) ∧ s.store.table.OpensOnly s'.store.table := by
  intro s
  have hFacts : (Root.read s.files "p" "B.th" "class A { m() { } }" s.store.next).2.1.toOption.map
      (fun r => ((s.store.table.find [] (Name.ofText r.fullName)).toOption.map List.length,
        (s.store.declaredBy? r.top).isNone)) = some (some 1, true) := by
    decide +kernel
  cases hRead : (Root.read s.files "p" "B.th" "class A { m() { } }" s.store.next).2.1 with
  | error e =>
    rw [hRead] at hFacts
    cases hFacts
  | ok r =>
    rw [hRead] at hFacts
    obtain ⟨hOne, hNone⟩ := Prod.mk.inj (Option.some.inj hFacts)
    cases hFound : s.store.table.find [] (Name.ofText r.fullName) with
    | error f =>
      rw [hFound] at hOne
      cases hOne
    | ok symbols =>
      rw [hFound] at hOne
      obtain ⟨previous, rfl⟩ := List.length_eq_one_iff.1 (Option.some.inj hOne)
      obtain ⟨r', s', hEnd, -, -, -, -, -, -, hOpens⟩ := repeated_declaration_inert hFound
        (Option.isNone_iff_eq_none.1 hNone) fun _ _ => throw .impossible
      exact ⟨r, r', _, s', rfl, hEnd, rfl, hOpens⟩

/-- A name that has no key, in a scope that a source opens in vain: nothing is found under it before,
and afterwards it is a fault to look it up. -/
theorem keyless_name_found_no_more :
    let s : State := { State.start .default with
      store := { Store.empty with table := (Scope.table.declare [] (.ofText "A") (.library "A")).1 } }
    ∃ r symbol, (Root.read [] "" "A.th" "class A { }" 1).2.1 = .ok r ∧
      s.store.table.find [] (Name.ofText r.fullName) = .ok [symbol] ∧
      s.store.declaredBy? r.top = none ∧
      s.store.table.find [] (Name.ofText "A.f(") = .ok [] ∧
      ∀ symbols, (Check.ending (r.check Check.loadListed) s).2.store.table.find []
        (Name.ofText "A.f(") ≠ .ok symbols := by
  intro s
  have hFacts : (Root.read [] "" "A.th" "class A { }" 1).2.1.toOption.map (fun r => (r.fullName,
      ((Check.ending (r.check Check.loadListed) s).2.store.table.find []
        (Name.ofText "A.f(")).toOption.isNone)) = some (Text.ofString "A", true) := by
    decide +kernel
  cases hRead : (Root.read [] "" "A.th" "class A { }" 1).2.1 with
  | error e =>
    rw [hRead] at hFacts
    cases hFacts
  | ok r =>
    rw [hRead] at hFacts
    obtain ⟨hName, hFault⟩ := Prod.mk.inj (Option.some.inj hFacts)
    refine ⟨r, .library "A", rfl, by rw [hName]; rfl, rfl, rfl, fun symbols hFind => ?_⟩
    rw [hFind] at hFault
    cases hFault

end Root

end Assay
