import Mathlib
import Assay.Proofs.Calls

/-! Loads that are watched. A watched load is a fault unless units have only moved on, and unless for
a unit that is being compiled it has done nothing but give the symbol that the unit has declared. To
compile with watched loads is to compile, so that is how loads go, however deep they are. -/

namespace Assay

open Check (Leads ending)

/-- How a load for a name may change a world, and what it may find. -/
structure LoadsWell (w : World) (name : Name) (found : Option Symbol) (w' : World) : Prop where
  /-- Units stay, but for those that were pending and are compiled. -/
  units : List.Forall₂ (fun u u' => u' = u ∨
    u'.name = u.name ∧ u.status = .pending ∧ u'.status = .compiled) w.units w'.units
  /-- A unit that is being compiled is not started again: its type, which is declared by then, is
  found. -/
  inFlight : ∀ u ∈ w.units, u.name = name.full → u.status = .compiling →
    w' = w ∧ ∃ r d, u.root = some r ∧ d ∈ w.store.tops ∧ d.id = r.top.ann.id ∧
      d.name = r.fullName ∧ found = some d.symbol

namespace Compilation

open Classical in
noncomputable def watch (load : Name → Check (Option Symbol)) (name : Name) :
    Check (Option Symbol) := do
  let before ← get
  let found ← load name
  let after ← get
  if LoadsWell before.world name found after.world then return found else throw .impossible

/-- Loads a type as `load` does, but all loads on the way are watched. -/
noncomputable def watchedLoad : (depth : Nat) → Name → Check (Option Symbol)
  | 0 => watch (loadBy fun u => if u.status = .pending then throw .exhausted else pure ())
  | depth + 1 => watch (loadBy (compileWith (orListed (watchedLoad depth))))

noncomputable def watchedCompile (u : SourceUnit) : Check Unit := do
  compileWith (orListed (watchedLoad (← get).units.length)) u

noncomputable def watchedCompileAll : Check (List Diagnostic) := do
  return Diagnostic.sort (← compileEach watchedCompile ((← get).units.map (·.name)))

/-- Loads a type from the sources only, with watched loads. -/
noncomputable def watchedLoadUnit (name : Name) : Check (Option Symbol) := do
  watchedLoad ((← get).units.length + 1) name

end Compilation

noncomputable def Call.watched : Call → Check Unit :=
  runBy Compilation.watchedCompile Compilation.watchedCompileAll Compilation.watchedLoadUnit

namespace Check

variable {α β : Type} {m m' : Check α}

/-- A step ends as another one does, unless what should not be stops it. -/
def Guards (m m' : Check α) : Prop :=
  ∀ s, ending m s = ending m' s ∨ ∃ s', ending m s = (.error .impossible, s')

namespace Guards

theorem refl (m : Check α) : Guards m m := fun _ => .inl rfl

theorem bind {k k' : α → Check β} (hm : Guards m m') (hk : ∀ a, Guards (k a) (k' a)) :
    Guards (m >>= k) (m' >>= k') := by
  intro s
  rw [ending_bind, ending_bind]
  obtain hSame | ⟨s', hStop⟩ := hm s
  · rw [hSame]
    cases ending m' s with
    | mk result s' =>
      cases result with
      | ok a => exact hk a s'
      | error f => exact .inl rfl
  · exact .inr ⟨s', by rw [hStop]⟩

theorem caught {k : Fault → Check α}
    (hk : ∀ s, ∃ s', ending (k .impossible) s = (.error .impossible, s')) (hm : Guards m m') :
    Guards (tryCatch m k) (tryCatch m' k) := by
  intro s
  rw [ending_tryCatch, ending_tryCatch]
  obtain hSame | ⟨s', hStop⟩ := hm s
  · exact .inl (by rw [hSame])
  · rw [hStop]
    exact .inr (hk s')

theorem traced {name : Text} {errors : α → List Diagnostic} (hm : Guards m m') :
    Guards (Check.traced name errors m) (Check.traced name errors m') := by
  unfold Check.traced
  refine (refl _).bind fun _ => (refl _).bind fun s => (refl _).bind fun _ => ?_
  exact (hm.caught fun s' => ⟨_, rfl⟩).bind fun _ => refl _

theorem collect {step step' : α → Check (List Diagnostic)} (h : ∀ x, Guards (step x) (step' x))
    (xs : List α) : Guards (Check.collect step xs) (Check.collect step' xs) := by
  induction xs with
  | nil => exact refl _
  | cons x rest ih => exact (h x).bind fun _ => ih.bind fun _ => refl _

end Guards

open Classical in
/-- A step that is a fault unless it goes well: `Well` is said of the world before it, its result and
the world after it. -/
noncomputable def watch (Well : World → α → World → Prop) (m : Check α) : Check α := do
  let before ← get
  let a ← m
  let after ← get
  if Well before.world a after.world then return a else throw .impossible

variable {Well : World → α → World → Prop}

open Classical in
theorem ending_watch (m : Check α) (s : State) :
    ending (watch Well m) s =
      match ending m s with
      | (.ok a, s') => (if Well s.world a s'.world then .ok a else .error .impossible, s')
      | (.error f, s') => (.error f, s') := by
  have hWatch : ending (watch Well m) s = ending (do
      let a ← m
      let after ← get
      if Well s.world a after.world then return a else throw .impossible) s := by
    rw [watch, ending_bind]
    rfl
  rw [hWatch, ending_bind]
  cases ending m s with
  | mk result s' =>
    cases result with
    | error f => rfl
    | ok a =>
      change ending (if Well s.world a s'.world then _ else _) s' = _
      simp only
      split <;> rfl

theorem Guards.watch (h : Guards m m') : Guards (Check.watch Well m) m' := by
  intro s
  rw [ending_watch]
  obtain hSame | ⟨s', hStop⟩ := h s
  · rw [← hSame]
    cases ending m s with
    | mk result s' =>
      cases result with
      | error f => exact .inl rfl
      | ok a =>
        simp only
        split
        · exact .inl rfl
        · exact .inr ⟨s', rfl⟩
  · exact .inr ⟨s', by rw [hStop]⟩

theorem Leads.watch {w : World} {F : Fault → World → Prop} {Q : α → World → Prop}
    (h : Leads m w F Q) (hWell : ∀ a w', Q a w' → Well w a w') : Leads (Check.watch Well m) w F Q := by
  refine .get fun s hs => h.bind fun a w₁ ha => .get fun s₁ hs₁ => ?_
  rw [hs, hs₁, if_pos (hWell a w₁ ha)]
  exact .pure ha

end Check

open Check (Guards)

def Load.Guards (load load' : Load) : Prop :=
  ∀ name trigger, Check.Guards (load name trigger) (load' name trigger)

namespace Discovery

variable {load load' : Load}

theorem resolve_guards (h : load.Guards load') (name : Name) (trigger : Node Meta) :
    Guards (resolve load name trigger) (resolve load' name trigger) := by
  refine (Guards.refl _).bind fun found => ?_
  cases found with
  | cons symbol _ => exact .refl _
  | nil => exact (h name trigger).bind fun _ => .refl _

theorem declareUse_guards (h : load.Guards load') (space : Text) (u : Use Meta) :
    Guards (declareUse load space u) (declareUse load' space u) := by
  refine (Guards.refl _).bind fun path => (Guards.refl _).bind fun previous => ?_
  cases previous with
  | some previous => exact .refl _
  | none => exact (resolve_guards h _ _).bind fun _ => .refl _

theorem resolveFirst_guards (h : load.Guards load') (trigger : Node Meta) (names : List Name) :
    Guards (resolveFirst load trigger names) (resolveFirst load' trigger names) := by
  induction names with
  | nil => exact .refl _
  | cons name rest ih =>
    refine (resolve_guards h name trigger).bind fun found => ?_
    cases found with
    | some _ => exact .refl _
    | none => exact ih

theorem visitSpec_guards (h : load.Guards load') (r : Root Meta) (n : Node Meta) :
    Guards (visitSpec load r n) (visitSpec load' r n) := by
  unfold visitSpec
  split
  · refine (Guards.refl _).bind fun path => (Guards.refl _).bind fun found => ?_
    cases found with
    | cons _ _ => exact .refl _
    | nil => exact (resolveFirst_guards h _ _).bind fun _ => .refl _
  · exact .refl _

end Discovery

theorem Root.discover_guards {load load' : Load} (h : load.Guards load') (r : Root Meta) :
    Guards (r.discover load) (r.discover load') := by
  refine Guards.traced ((Guards.refl _).bind fun errors => ?_)
  cases errors with
  | cons _ _ => exact .refl _
  | nil =>
    refine (Guards.collect (Discovery.declareUse_guards h r.space) _).bind fun _ => ?_
    exact (Guards.refl _).bind fun _ =>
      (Guards.collect (Discovery.visitSpec_guards h r) _).bind fun _ => .refl _

theorem Root.checkBy_guards {discover discover' : Root Meta → Check (List Diagnostic)}
    (h : ∀ r, Guards (discover r) (discover' r)) (r : Root Meta) :
    Guards (r.checkBy discover) (r.checkBy discover') :=
  Guards.traced ((Guards.refl _).bind fun r => (Guards.refl _).bind fun _ =>
    (h r).bind fun _ => .refl _)

namespace Compilation

theorem compileBy_guards {check check' : Root Meta → Check (Root Meta × List Diagnostic)}
    (h : ∀ r, Guards (check r) (check' r)) (u : SourceUnit) :
    Guards (compileBy check u) (compileBy check' u) := by
  unfold compileBy
  split
  · exact .refl _
  · exact .refl _
  · refine Guards.traced ((Guards.refl _).bind fun _ => ?_)
    refine (Guards.caught (fun s => ⟨_, rfl⟩) ?_).bind fun _ => .refl _
    refine (Guards.refl _).bind fun result => ?_
    cases result with
    | none => exact .refl _
    | some r => exact (h r).bind fun _ => .refl _

theorem compileWith_guards {load load' : Load} (h : load.Guards load') (u : SourceUnit) :
    Guards (compileWith load u) (compileWith load' u) :=
  compileBy_guards (Root.checkBy_guards (Root.discover_guards h)) u

theorem loadBy_guards {compile compile' : SourceUnit → Check Unit}
    (h : ∀ u, Guards (compile u) (compile' u)) (name : Name) :
    Guards (loadBy compile name) (loadBy compile' name) := by
  refine (Guards.refl _).bind fun s => ?_
  split
  · exact .refl _
  · rename_i u _
    have hRest := (h u).bind fun _ => Guards.refl (do
      let s ← get
      return (s.unit? name.full).bind fun u => u.symbol? s.store)
    simp only
    split
    · exact (Guards.refl _).bind fun _ => hRest
    · exact hRest

theorem watch_eq (load : Name → Check (Option Symbol)) (name : Name) :
    watch load name = Check.watch (LoadsWell · name · ·) (load name) :=
  rfl

theorem watch_guards {load load' : Name → Check (Option Symbol)} {name : Name}
    (h : Guards (load name) (load' name)) : Guards (watch load name) (load' name) :=
  watch_eq load name ▸ h.watch

theorem orListed_guards {load load' : Name → Check (Option Symbol)}
    (h : ∀ name, Guards (load name) (load' name)) : (orListed load).Guards (orListed load') :=
  fun name _ => (h name).bind fun _ => .refl _

theorem watchedLoad_guards (depth : Nat) (name : Name) :
    Guards (watchedLoad depth name) (load depth name) := by
  induction depth generalizing name with
  | zero => exact watch_guards (.refl _)
  | succ depth ih =>
    exact watch_guards (loadBy_guards (compileWith_guards (orListed_guards ih)) name)

theorem watchedCompile_guards (u : SourceUnit) : Guards (watchedCompile u) (compile u) :=
  (Guards.refl _).bind fun _ => compileWith_guards (orListed_guards (watchedLoad_guards _)) u

theorem compileEach_guards {compile compile' : SourceUnit → Check Unit}
    (h : ∀ u, Guards (compile u) (compile' u)) (names : List Text) :
    Guards (compileEach compile names) (compileEach compile' names) := by
  induction names with
  | nil => exact .refl _
  | cons name rest ih =>
    refine (Guards.refl _).bind fun s => ?_
    split
    · exact ih
    · exact (h _).bind fun _ => (Guards.refl _).bind fun _ => ih.bind fun _ => .refl _

end Compilation

namespace Call

theorem runBy_guards {compile compile' : SourceUnit → Check Unit}
    {compileAll compileAll' : Check (List Diagnostic)} {load load' : Name → Check (Option Symbol)}
    (hCompile : ∀ u, Guards (compile u) (compile' u)) (hAll : Guards compileAll compileAll')
    (hLoad : ∀ name, Guards (load name) (load' name)) (c : Call) :
    Guards (c.runBy compile compileAll load) (c.runBy compile' compileAll' load') := by
  cases c with
  | add => exact .refl _
  | compile name =>
    refine (Guards.refl _).bind fun s => ?_
    cases s.unit? name with
    | some u => exact hCompile u
    | none => exact .refl _
  | compileAll => exact hAll.bind fun _ => .refl _
  | load name => exact (hLoad name).bind fun _ => .refl _

theorem watched_guards (c : Call) : Guards c.watched c.run := by
  refine runBy_guards Compilation.watchedCompile_guards ?_ (fun name => ?_) c
  · exact (Guards.refl _).bind fun s =>
      (Compilation.compileEach_guards Compilation.watchedCompile_guards _).bind fun _ => .refl _
  · exact (Guards.refl _).bind fun s => Compilation.watchedLoad_guards _ name

end Call

variable {plain : Plain} {w : World} {u : SourceUnit}

namespace Compilation

theorem loadBy_inFlight {compile : SourceUnit → Check Unit}
    (hCompile : ∀ u, u.status = .compiling → compile u = pure ()) {name : Name}
    (hSound : Sound plain w) (hu : u ∈ w.units) (hName : u.name = name.full)
    (hStatus : u.status = .compiling) {r : Root Meta} {d : Declared} (hRoot : u.root = some r)
    (hd : d ∈ w.store.tops) (hId : d.id = r.top.ann.id) {F : Fault → World → Prop} :
    Leads (loadBy compile name) w F fun found w' => w' = w ∧ found = some d.symbol := by
  have hFind {s : State} (hs : s.world = w) : s.unit? name.full = some u := by
    have hUnits : s.units = w.units := congrArg World.units hs
    cases hFound : s.unit? name.full with
    | none =>
      rw [State.unit?, hUnits, List.find?_eq_none] at hFound
      exact absurd hName (by simpa using hFound u hu)
    | some v =>
      have hv : v.name = name.full := by simpa using List.find?_some hFound
      have hMem : v ∈ w.units := hUnits ▸ List.mem_of_find?_eq_some hFound
      rw [hSound.eq_of_name hu hMem (hv.trans hName.symm)]
  have hDeclared := hSound.declaredBy?_of_mem hd (.inl hId)
  unfold loadBy
  refine .get fun s hs => ?_
  rw [hFind hs]
  simp only [hStatus, if_true, hCompile u hStatus, pure_bind]
  refine .bind (P := fun _ w' => w' = w) (.log rfl) fun _ w₁ hw₁ => ?_
  subst hw₁
  refine .get fun s₁ hs₁ => .pure ⟨rfl, ?_⟩
  have hStore : s₁.store = w₁.store := congrArg World.store hs₁
  rw [hFind hs₁, hStore]
  simp only [Option.bind_some, SourceUnit.symbol?, hRoot, hDeclared, Option.map_some]

theorem watch_loads {load : Name → Check (Option Symbol)} {depth : Nat}
    (hLoad : Loads plain depth load)
    (hInFlight : ∀ {w u name r d}, Sound plain w → u ∈ w.units → u.name = name.full →
      u.status = .compiling → u.root = some r → d ∈ w.store.tops → d.id = r.top.ann.id →
        Leads (load name) w (fun _ _ => False) fun found w' => w' = w ∧ found = some d.symbol) :
    Loads plain depth (watch load) := by
  intro w name hSound hFlying hDepth
  have hLeads := hLoad w name hSound hFlying hDepth
  have hAnswer : Leads (load name) w (fun _ _ => True) fun found w' => ∀ u ∈ w.units,
      u.name = name.full → u.status = .compiling → w' = w ∧ ∃ r d, u.root = some r ∧
        d ∈ w.store.tops ∧ d.id = r.top.ann.id ∧ d.name = r.fullName ∧ found = some d.symbol := by
    by_cases hIn : ∃ u ∈ w.units, u.name = name.full ∧ u.status = .compiling
    · obtain ⟨u, hu, hName, hStatus⟩ := hIn
      obtain ⟨r, d, hRoot, hd, hId, hFull⟩ := hFlying u hu hStatus
      refine (hInFlight hSound hu hName hStatus hRoot hd hId).mono (fun _ _ _ => trivial)
        fun found w' ⟨hSame, hFound⟩ v hv hName' _ => ?_
      obtain rfl := hSound.eq_of_name hu hv (hName'.trans hName.symm)
      exact ⟨hSame, r, d, hRoot, hd, hId, hFull, hFound⟩
    · exact hLeads.mono (fun _ _ _ => trivial)
        fun _ _ _ u hu hName hStatus => absurd ⟨u, hu, hName, hStatus⟩ hIn
  rw [watch_eq]
  refine ((hLeads.and hAnswer).watch fun found w₁ ⟨⟨hAdvances, _⟩, hAnswer⟩ => ⟨?_, hAnswer⟩).mono
    (fun _ _ => id) fun _ _ hEnd => hEnd.1
  exact hAdvances.moves.units.imp fun _ _ hStep =>
    hStep.imp_right fun ⟨hPending, hCompiled, hName, _⟩ => ⟨hName, hPending, hCompiled⟩

theorem watchedLoad_loads (depth : Nat) : Loads plain depth (watchedLoad depth) := by
  induction depth with
  | zero =>
    refine watch_loads (load_loads 0) fun hSound hu hName hStatus hRoot hd hId =>
      loadBy_inFlight (fun u hu => ?_) hSound hu hName hStatus hRoot hd hId
    rw [if_neg (by simp [hu])]
  | succ depth ih =>
    refine watch_loads (loadBy_loads (compileWith_spec (orListed_meets ih)))
      fun hSound hu hName hStatus hRoot hd hId =>
        loadBy_inFlight (fun u hu => ?_) hSound hu hName hStatus hRoot hd hId
    rw [compileWith, hu]

end Compilation

namespace Call

theorem watched_spec (c : Call) (hSpaced : plain → c.Spaced) (h : Settled plain w) :
    Leads c.watched w (Stops plain w) fun _ w' => Comes plain w w' :=
  have hCompile : Compilation.Works plain Compilation.watchedCompile := .of_compiles fun depth =>
    Compilation.compileWith_spec (Compilation.orListed_meets (Compilation.watchedLoad_loads depth))
  runBy_spec hCompile ((Compilation.compileAll_comes hCompile h).mono (fun _ _ => id)
      fun _ _ hEnd => hEnd.1)
    (Compilation.load_comes Compilation.watchedLoad_loads h) c hSpaced h

/-- How a call goes that compiles units once. -/
structure Orderly (c : Call) (s : State) : Prop where
  /-- No recursion runs out of its bound. -/
  ends : (ending c.run s).1 ≠ .error .exhausted
  /-- Watched loads end as loads do, and not because one does not go well. -/
  loads : ending c.watched s = ending c.run s ∧ (ending c.run s).1 ≠ .error .impossible
  /-- Units stay, but for those that were pending and are compiled. -/
  units : List.Forall₂ (fun u u' => u' = u ∨
      u'.name = u.name ∧ u.status = .pending ∧ u'.status = .compiled)
    s.units ((ending c.run s).2.units.take s.units.length)
  /-- No unit is being compiled when the call has ended. -/
  idle : ∀ u ∈ (ending c.run s).2.units, u.status ≠ .compiling
  /-- The files are the sources of the units that are no longer pending, each once. -/
  files : ((ending c.run s).2.files.map fun f => (f.path, f.text)).Perm
    (((ending c.run s).2.units.filter (·.status ≠ .pending)).map fun u => (u.path, u.text))

/-- Whatever sources are added, and whatever is compiled and loaded in whatever order, each call ends
and compiles units once; what is asked for while it is being compiled is found declared. -/
theorem orderly_after {config : Config} (hLoaders : ∀ l ∈ config.loaders, l.Bare False)
    (calls : List Call) (c : Call) : c.Orderly (after calls (.start config)) := by
  have hStart : Settled (.of False) (State.start config).world :=
    .start hLoaders fun _ _ _ _ _ _ => trivial
  have hNo {p : Prop} (hp : Plain.of False) : p := False.elim hp
  have hComes : Comes (.of False) _ (after calls (.start config)).world := after_comes hNo hStart
  generalize after calls (.start config) = s at hComes
  have hSettled := hComes.settled
  have hRun := run_spec c hNo hSettled s rfl
  have hWatched := watched_spec c hNo hSettled s rfl
  have hNames : ∀ f, (ending c.run s).1 = .error f → f.OfNames := fun f hf => by
    rw [hf] at hRun
    exact hRun.ofNames
  have hNext := comes c hNo hSettled
  refine ⟨fun hStop => (hNames _ hStop).1 rfl, ⟨?_, fun hStop => (hNames _ hStop).2 rfl⟩, ?_,
    hNext.settled.idle, ?_⟩
  · obtain hSame | ⟨s', hStop⟩ := watched_guards c s
    · exact hSame
    · rw [hStop] at hWatched
      exact absurd rfl hWatched.ofNames.2
  · exact hNext.later.units.imp fun _ _ hStep => hStep.imp_right fun ⟨hPending, hCompiled, hName, _⟩ =>
      ⟨hName, hPending, hCompiled⟩
  · -- From the start on, as many sources are read as are started.
    have hFiles := (hComes.trans hNext).later.files
    exact Multiset.coe_eq_coe.1 (by simpa [World.read, World.started, State.world, State.start] using hFiles)

/-- Two classes that name each other are compiled at one go. -/
theorem orderly_after_cycle :
    let s := after [add "p.A" "p" "A.th" "class A { val b: B }",
      add "p.B" "p" "B.th" "class B { val a: A }"] (.start .default)
    compileAll.Orderly s ∧
      (ending compileAll.run s).2.units.map (·.status) = [.compiled, .compiled] := by
  have hLoaders : ∀ l ∈ Config.default.loaders, l.Bare False := fun l hl => by
    obtain rfl := List.mem_singleton.1 hl
    exact Loader.Standard.bare trivial
  exact ⟨orderly_after hLoaders _ _, by decide +kernel⟩

end Call

end Assay
