import Mathlib
import Assay.Proofs.Watched

/-! The types that sources name. What a source names and discovery does not report has a meaning in
the scope where it is named, and what the tree of a compiled unit names in full is found from the root
ever after. This is observed at each discovery, check and load of a call, however deep they are, so
also while the units of such types are being compiled. -/

namespace Assay

open Check (Leads Guards ending)

variable {plain : Plain} {K : Nat → Prop} {T : Root Meta → Prop} {b w : World} {r : Root Meta}
  {first : Nat}

namespace Scope

def declareAll (t : Scope) (more : List (Path × Name × Symbol)) : Scope :=
  more.foldl (fun t d => (t.declare d.1 d.2.1 d.2.2).1) t

/-- Something is found under a name in the scope at a path, and no name of a value. -/
def NamesType (t : Scope) (path : Path) (text : Text) : Prop :=
  ∃ symbols, t.find path (Name.ofText text) = .ok symbols ∧ symbols ≠ [] ∧
    ∀ symbol ∈ symbols, ¬symbol.IsValue

/-- Something is found under a full name from the root, whatever is declared besides. -/
def FindsEver (t : Scope) (text : Text) : Prop :=
  ∀ more, ∃ symbols, (t.declareAll more).find [] (Name.ofText text) = .ok symbols ∧ symbols ≠ []

variable {t : Scope} {path : Path} {text : Text}

theorem extends_declareAll (t : Scope) (more : List (Path × Name × Symbol)) :
    t.Extends (t.declareAll more) := by
  induction more generalizing t with
  | nil => exact .refl t
  | cons d rest ih => exact Extends.trans (fun _ _ => free_of_declare) (ih _)

theorem Seen.exists_find (h : t.Seen path text) (hText : Text.isDotted text) :
    ∃ symbols, t.find path (Name.ofText text) = .ok symbols ∧ symbols ≠ [] := by
  cases hFind : t.find path (Name.ofText text) with
  | error f => exact nomatch (Name.dotted_ofText hText).key.symm.trans (key_of_find_fault hFind)
  | ok symbols => exact ⟨symbols, rfl, fun hNil => h.find_ne_nil hText (hNil ▸ hFind)⟩

theorem Taken.findsEver (h : t.Taken text) (hText : Text.isDotted text) : t.FindsEver text :=
  fun more => ((taken_iff_seen.1 h).mono (t.extends_declareAll more)).exists_find hText

end Scope

theorem Node.Resolves.findsEver {t : Scope} {m : Meta} {text : Text} {args : List (TypeSpec Meta)}
    (h : (Node.spec (.simple m text args)).Resolves t) (hDot : 46 ∈ text) : t.FindsEver text := by
  obtain ⟨hText, path, _, hSeen⟩ := h
  refine (hSeen.taken ?_).findsEver hText
  by_contra hOne
  exact Text.not_mem_of_isWord (Name.isWord_of_isDotted hText hOne) (by decide) (by decide +kernel) hDot

/-- What holds when the types of a source are discovered: if its type is declared, each type that it
names and that is not reported has a meaning in the scope where it is named. -/
def Root.DiscoversWell (r : Root Meta) (errors : List Diagnostic) (w : World) : Prop :=
  (w.store.declaredBy? r.top).isSome → ∀ m text args,
    .spec (.simple m text args) ∈ (Node.root r).nodes →
    (∀ e ∈ errors, e.kind = .typeNotDefined → e.node ≠ some (.spec (.simple m text args))) →
      ∃ path, m.scope = some path ∧ w.store.table.NamesType path text

/-- If the type of a source is declared and no type that it names is reported, then each type that it
names in full is found ever after. -/
def Root.Resolved (r : Root Meta) (errors : List Diagnostic) (st : Store) : Prop :=
  (st.declaredBy? r.top).isSome → (∀ e ∈ errors, e.kind ≠ .typeNotDefined) → ∀ m text args,
    .spec (.simple m text args) ∈ (Node.root r).nodes → 46 ∈ text → st.table.FindsEver text

def World.Resolved (w : World) : Prop :=
  ∀ u ∈ w.units, u.status = .compiled → ∀ r, u.root = some r → r.Resolved u.errors w.store

theorem Root.resolved_of_declared {errors : List Diagnostic} {st : Store} {p : Prop}
    (h : (∃ d ∈ st.tops, d.Of r) ∧ r.Reports errors st.table ∨ (∀ d ∈ st.tops, ¬d.Of r) ∧ p) :
    r.Resolved errors st := by
  intro hDeclared hNone m text args hn hDot
  obtain ⟨_, hReports⟩ | ⟨hNot, _⟩ := h
  · obtain ⟨e, he, hKind⟩ | hAll := hReports.resolved
    · exact absurd hKind (hNone e he)
    · exact (hAll _ hn).findsEver hDot
  · obtain ⟨d, hFind⟩ := Option.isSome_iff_exists.1 hDeclared
    refine absurd ?_ (hNot d (List.mem_of_find?_eq_some hFind))
    simpa [Declared.Of] using List.find?_some hFind

theorem Sound.resolved (h : Sound plain w) (hp : plain) : w.Resolved :=
  fun u hu hStatus r hr => Root.resolved_of_declared ((h.outcomes hp u hu hStatus).declared r hr)

theorem Discovering.namesType (h : Discovering plain K T b r first w) (hp : plain) {m : Meta}
    {text : Text} {args : List (TypeSpec Meta)}
    (hn : .spec (.simple m text args) ∈ (Node.root r).nodes)
    (hResolves : (Node.spec (.simple m text args)).Resolves w.store.table) :
    ∃ path, m.scope = some path ∧ w.store.table.NamesType path text := by
  obtain ⟨hText, path, hScope, hSeen⟩ := hResolves
  obtain ⟨q, hq, hInside⟩ := (h.fit _ hn).inside
  obtain rfl : q = path := Option.some.inj (hq.symm.trans hScope)
  obtain ⟨symbols, hFind, hNonempty⟩ := hSeen.exists_find hText
  refine ⟨q, hScope, symbols, hFind, hNonempty, fun symbol hs hValue => ?_⟩
  obtain ⟨p, key, n, hSees, _, hEntry⟩ := Scope.entry_of_mem_find hFind hs
  unfold Scope.Sees at hSees
  split at hSees
  · -- The scope that a qualifier names is in no body, and names of values are in bodies.
    obtain ⟨_, _, hBody⟩ := (h.sound.table hEntry).inside hp hValue
    refine not_inBody (fun part hPart => ?_) hBody
    exact (Name.dotted_ofText hText).parts part (List.mem_append_left _ (hSees ▸ hPart))
  · exact h.not_isValue hp hInside hSees hEntry hValue

section Observed

variable {depth : Nat}

noncomputable def Root.discoverObserved (discover : Root Meta → Check (List Diagnostic))
    (r : Root Meta) : Check (List Diagnostic) :=
  Check.watch (fun _ errors w => r.DiscoversWell errors w) (discover r)

/-- A check that is a fault unless units are resolved before and after it, and its source with them. -/
noncomputable def Root.checkObserved (check : Root Meta → Check (Root Meta × List Diagnostic))
    (r : Root Meta) : Check (Root Meta × List Diagnostic) :=
  Check.watch (fun w result w' => w.Resolved ∧ w'.Resolved ∧ result.1.Resolved result.2 w'.store)
    (check r)

/-- A load that is a fault unless units are resolved before and after it. -/
noncomputable def Compilation.loadObserved (load : Name → Check (Option Symbol)) (name : Name) :
    Check (Option Symbol) :=
  Check.watch (fun w _ w' => w.Resolved ∧ w'.Resolved) (load name)

theorem Discovers.observed {discover : Root Meta → Check (List Diagnostic)}
    (h : Discovers plain depth discover) (hp : plain) :
    Discovers plain depth (Root.discoverObserved discover) := by
  intro K T b w r hDepth hChecking hLinked hTops hRefs
  refine (h hDepth hChecking hLinked hTops hRefs).watch fun errors w' hEnd hDeclared m text args hn hNone => ?_
  obtain ⟨hDiscovering, _, hEach⟩ | ⟨rfl, _⟩ := hEnd
  · obtain ⟨e, he, name, rfl⟩ | hResolves := hEach _ hn
    · exact absurd rfl (hNone _ he rfl)
    · exact hDiscovering.namesType hp hn (hResolves hp)
  · simp [hChecking.declaredBy?_eq_none hTops] at hDeclared

theorem Checks.observed {check : Root Meta → Check (Root Meta × List Diagnostic)}
    (h : Checks plain depth check) (hp : plain) : Checks plain depth (Root.checkObserved check) := by
  intro K b r hDepth hChecking
  exact (h hDepth hChecking).watch fun result w' hEnd => ⟨hChecking.sound.resolved hp,
    hEnd.checking.sound.resolved hp, Root.resolved_of_declared (hEnd.declared hp)⟩

theorem Compilation.Loads.observed {load : Name → Check (Option Symbol)}
    (h : Loads plain depth load) (hp : plain) : Loads plain depth (loadObserved load) :=
  fun w name hSound hFlying hDepth => (h w name hSound hFlying hDepth).watch fun _ _ hEnd =>
    ⟨hSound.resolved hp, hEnd.1.sound.resolved hp⟩

end Observed

namespace Compilation

/-- Compiles a unit, with its discovery and its check observed. -/
noncomputable def compileObservedWith (load : Load) : SourceUnit → Check Unit :=
  compileBy (Root.checkObserved (Root.checkBy (Root.discoverObserved (Root.discover load))))

/-- Loads a type as `load` does, with all discoveries, checks and loads on the way observed. -/
noncomputable def observedLoad : (depth : Nat) → Name → Check (Option Symbol)
  | 0 => loadObserved (loadBy fun u => if u.status = .pending then throw .exhausted else pure ())
  | depth + 1 => loadObserved (loadBy (compileObservedWith (orListed (observedLoad depth))))

noncomputable def observedCompile (u : SourceUnit) : Check Unit := do
  compileObservedWith (orListed (observedLoad (← get).units.length)) u

noncomputable def observedCompileAll : Check (List Diagnostic) := do
  return Diagnostic.sort (← compileEach observedCompile ((← get).units.map (·.name)))

/-- Loads a type from the sources only, with all on the way observed. -/
noncomputable def observedLoadUnit (name : Name) : Check (Option Symbol) := do
  observedLoad ((← get).units.length + 1) name

theorem compileObservedWith_guards {load load' : Load} (h : load.Guards load') (u : SourceUnit) :
    Guards (compileObservedWith load u) (compileWith load' u) :=
  compileBy_guards (fun r => (Root.checkBy_guards (fun r => (Root.discover_guards h r).watch) r).watch) u

theorem loadObserved_guards {load load' : Name → Check (Option Symbol)} {name : Name}
    (h : Guards (load name) (load' name)) : Guards (loadObserved load name) (load' name) :=
  h.watch

theorem observedLoad_guards (depth : Nat) (name : Name) :
    Guards (observedLoad depth name) (load depth name) := by
  induction depth generalizing name with
  | zero => exact loadObserved_guards (.refl _)
  | succ depth ih =>
    exact loadObserved_guards (loadBy_guards (compileObservedWith_guards (orListed_guards ih)) name)

theorem observedCompile_guards (u : SourceUnit) : Guards (observedCompile u) (compile u) :=
  (Guards.refl _).bind fun _ => compileObservedWith_guards (orListed_guards (observedLoad_guards _)) u

theorem compileObservedWith_spec {load : Load} {depth : Nat} (hLoad : load.Meets plain depth)
    (hp : plain) : Compiles plain (depth + 1) (compileObservedWith load) :=
  compileBy_spec (Checks.observed
    (Root.checkBy_spec (Discovers.observed (Discovery.discover_spec hLoad) hp)) hp)

theorem observedLoad_loads (hp : plain) (depth : Nat) : Loads plain depth (observedLoad depth) := by
  induction depth with
  | zero => exact (load_loads 0).observed hp
  | succ depth ih => exact (loadBy_loads (compileObservedWith_spec (orListed_meets ih) hp)).observed hp

end Compilation

namespace Call

/-- The steps of a call in which all discoveries, checks and loads are observed. -/
noncomputable def observed : Call → Check Unit :=
  runBy Compilation.observedCompile Compilation.observedCompileAll Compilation.observedLoadUnit

theorem observed_guards (c : Call) : Guards c.observed c.run := by
  refine runBy_guards Compilation.observedCompile_guards ?_ (fun name => ?_) c
  · exact (Guards.refl _).bind fun s =>
      (Compilation.compileEach_guards Compilation.observedCompile_guards _).bind fun _ => .refl _
  · exact (Guards.refl _).bind fun s => Compilation.observedLoad_guards _ name

theorem observed_spec (hp : plain) (c : Call) (hSpaced : c.Spaced) (h : Settled plain w) :
    Leads c.observed w (Stops plain w) fun _ w' => Comes plain w w' :=
  have hCompile : Compilation.Works plain Compilation.observedCompile := .of_compiles fun depth =>
    Compilation.compileObservedWith_spec
      (Compilation.orListed_meets (Compilation.observedLoad_loads hp depth)) hp
  runBy_spec hCompile ((Compilation.compileAll_comes hCompile h).mono (fun _ _ => id)
      fun _ _ hEnd => hEnd.1)
    (Compilation.load_comes (Compilation.observedLoad_loads hp) h) c (fun _ => hSpaced) h

/-- After any calls, with loaders of the runtime library and of the host platform, a call ends as it
does when all its discoveries, checks and loads are observed: what a source names and discovery does
not report has a meaning where it is named, and what compiled units name in full is found. In the end
it is found too. -/
theorem named_types_resolve {config : Config} (hLoaders : ∀ l ∈ config.loaders, l.Standard)
    {calls : List Call} (hSpaced : ∀ c ∈ calls, c.Spaced) {s : State}
    (hs : s = after calls (.start config)) (c : Call) (hc : c.Spaced) :
    ∃ s', ending c.run s = (.ok (), s') ∧ ending c.observed s = (.ok (), s') ∧
      s'.world.Resolved := by
  have hp : Plain.of True := trivial
  have hSettled : Settled (.of True) s.world := by
    rw [hs]
    exact (after_comes (fun _ => hSpaced)
      (.start (fun l hl => (hLoaders l hl).bare) fun _ _ _ _ _ _ => trivial)).settled
  have hRun := run_spec c (fun _ => hc) hSettled s rfl
  have hObserved := observed_spec hp c hc hSettled s rfl
  cases hEnd : ending c.run s with
  | mk result s' =>
    rw [hEnd] at hRun
    cases result with
    | error f => exact absurd hp hRun.odd
    | ok u =>
      refine ⟨s', rfl, ?_, hRun.settled.sound.resolved hp⟩
      obtain hSame | ⟨s'', hStop⟩ := observed_guards c s
      · exact hSame.trans hEnd
      · rw [hStop] at hObserved
        exact absurd hp hObserved.odd

/-- Two classes that name each other, one of which also names a type that is not there: the other one
is resolved. -/
theorem named_types_resolve_in_cycle :
    let s := after [add "p.A" "p" "A.th" "class A { val b: B }",
      add "p.B" "p" "B.th" "class B { val a: A val x: X }"] (.start .default)
    ∃ s', ending compileAll.run s = (.ok (), s') ∧ ending compileAll.observed s = (.ok (), s') ∧
      s'.world.Resolved ∧ (s'.units.map fun u => (u.status, u.errors.map (·.message))) =
        [(Status.compiled, []), (Status.compiled, [("type not defined: X" : Text)])] := by
  intro s
  have hLoaders : ∀ l ∈ Config.default.loaders, l.Standard := by
    rintro l (_ | ⟨_, ⟨⟩⟩)
    trivial
  have hSpace : Text.Spaced "p" := .inr (by decide +kernel)
  have hCalls : ∀ call ∈ [add "p.A" "p" "A.th" "class A { val b: B }",
      add "p.B" "p" "B.th" "class B { val a: A val x: X }"], call.Spaced := by
    simp [Spaced, hSpace]
  obtain ⟨s', hRun, hObserved, hResolved⟩ :=
    named_types_resolve hLoaders hCalls (s := s) rfl compileAll trivial
  refine ⟨s', hRun, hObserved, hResolved, ?_⟩
  have hUnits : ((ending compileAll.run s).2.units.map fun u =>
      (u.status, u.errors.map (·.message))) =
        [(Status.compiled, []), (Status.compiled, [("type not defined: X" : Text)])] := by
    decide +kernel
  rwa [hRun] at hUnits

end Call

end Assay
