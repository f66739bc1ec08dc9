import Mathlib
import Assay.Proofs.Compiled

/-! Sequences of calls from outside. Between calls no unit is being compiled, and over calls, whether
they end well or not, the units that are compiled stay as they are. -/

namespace Assay

open Check (Leads ending)

/-- What a compilation can be asked for. -/
inductive Call where
  | add (name space path text : Text)
  | compile (name : Text)
  | compileAll
  | load (name : Name)

namespace Call

/-- The steps of a call, with the given ways to compile a unit, all units, and to load a type. -/
def runBy (compile : SourceUnit → Check Unit) (compileAll : Check (List Diagnostic))
    (load : Name → Check (Option Symbol)) : Call → Check Unit
  | .add name space path text => do
    match (← get).addSource name space path text with
    | .ok s => set s
    | .error _ => pure ()
  | .compile name => do
    match (← get).unit? name with
    | some u => compile u
    | none => pure ()
  | .compileAll => do
    let _ ← compileAll
  | .load name => do
    let _ ← load name

def run : Call → Check Unit :=
  runBy Compilation.compile Compilation.compileAll Compilation.loadUnit

/-- A source that is added has an empty namespace or one of words between dots. -/
def Spaced : Call → Prop
  | .add _ space _ _ => Text.Spaced space
  | _ => True

/-- The state after calls. A call that ends with a fault leaves the state that it has reached. -/
def after (calls : List Call) (s : State) : State :=
  calls.foldl (fun s c => (ending c.run s).2) s

end Call

/-- A loader of the runtime library or of the host platform. -/
def Loader.Standard : Loader → Prop
  | .library => True
  | .host .. => True
  | .listed .. => False

theorem Loader.Standard.loaded {l : Loader} (h : l.Standard) {name : Name} {symbol : Symbol}
    (hKnown : l.known? name = some symbol) : symbol.loaded? = some name.full := by
  cases l with
  | library =>
    simp only [known?] at hKnown
    split at hKnown
    · obtain rfl := Option.some.inj hKnown
      rfl
    · exact nomatch hKnown
  | host classes interfaces =>
    simp only [known?] at hKnown
    split at hKnown
    · obtain rfl := Option.some.inj hKnown
      rfl
    · split at hKnown
      · obtain rfl := Option.some.inj hKnown
        rfl
      · exact nomatch hKnown
  | listed label known => exact h.elim

theorem Symbol.node?_of_loaded? {symbol : Symbol} {full : Text} (h : symbol.loaded? = some full) :
    symbol.node? = none := by
  cases symbol with
  | type name origin =>
    cases origin with
    | unknown => rfl
    | _ => exact nomatch h
  | hostClass | hostInterface | library => rfl
  | _ => exact nomatch h

theorem Loader.Standard.bare {plain : Prop} {l : Loader} (h : l.Standard) : l.Bare plain := by
  intro name symbol hKnown
  have hLoaded := h.loaded hKnown
  refine ⟨Symbol.node?_of_loaded? hLoaded, ?_, fun hName full hFull => ?_, fun _ _ => hLoaded⟩
  · rintro full id rfl
    cases hLoaded
  · exact Option.some.inj ((Symbol.full?_of_loaded? hLoaded).symm.trans hFull) ▸ hName

/-- What holds of a world between calls. -/
structure Settled (plain : Plain) (w : World) : Prop where
  sound : Sound plain w
  idle : ∀ u ∈ w.units, u.status ≠ .compiling

/-- What calls leave alone: units are added at the end, those that were compiled stay as they are, and
so do the symbols of the nodes whose numbers satisfy `K`, and their types, but for those that an
assignment stands for. -/
structure Later (plain : Prop) (K : Nat → Prop) (b w : World) : Prop where
  next : b.store.next ≤ w.store.next
  tops : b.store.tops <+: w.store.tops
  table : b.store.table.Extends w.store.table
  log : b.store.refs <:+ w.store.refs
  refs : plain → ∀ id, K id → w.store.refsOf? id = b.store.refsOf? id
  types : plain → ∀ id, K id →
    w.store.typeOf? id = b.store.typeOf? id ∨ w.Assigns K (fun _ => False) id
  units : List.Forall₂ (SourceUnit.Step K) b.units (w.units.take b.units.length)
  files : w.read + b.started = b.read + w.started

variable {plain : Plain} {K K' : Nat → Prop} {b w w' : World} {u : SourceUnit}

namespace Settled

theorem flying (h : Settled plain w) : Flying w :=
  fun u hu hStatus => absurd hStatus (h.idle u hu)

theorem of_moves {T : Root Meta → Prop} (h : Settled plain w) (hSound : Sound plain w')
    (hMoves : Moves plain K T w w') : Settled plain w' where
  sound := hSound
  idle u hu hStatus := h.idle u (hMoves.mem_of_compiling hu hStatus) hStatus

theorem start {config : Config} (hLoaders : ∀ l ∈ config.loaders, l.Bare plain)
    (hGiven : plain → ∀ l ∈ config.loaders, ∀ name symbol, l.known? name = some symbol →
      plain.given symbol) : Settled plain (State.start config).world where
  sound :=
    { names := List.nodup_nil
      spaces := fun _ => List.forall_mem_nil _
      loaders := hLoaders
      given := hGiven
      filled := by
        intro path b hb
        rw [show (State.start config).world.store.table = .empty [] from rfl,
          Scope.bindingsAt_empty] at hb
        exact absurd hb List.not_mem_nil
      table := by
        rintro path key n symbol ⟨binding, hMem, _⟩
        rw [show (State.start config).world.store.table = .empty [] from rfl,
          Scope.bindingsAt_empty] at hMem
        exact absurd hMem List.not_mem_nil
      logged := fun hLog => absurd hLog List.not_mem_nil
      refs := fun hLog => absurd hLog List.not_mem_nil
      tops := List.forall_mem_nil _
      apart := List.Pairwise.nil
      topNames := List.nodup_nil
      roots := List.forall_mem_nil _
      unread := List.forall_mem_nil _
      named := fun _ => List.forall_mem_nil _
      outcomes := fun _ => List.forall_mem_nil _ }
  idle := List.forall_mem_nil _

end Settled

namespace Later

variable {plain : Prop}

theorem of_moves (h : Moves plain K' (fun _ => False) b w) (hK : ∀ id, K id → K' id) :
    Later plain K b w := by
  have hMoves : Moves plain K (fun _ => False) b w := h.mono hK fun _ => id
  exact
    { next := h.next
      tops := h.prefix_tops
      table := fun _ _ => h.taken
      log := h.log
      refs := hMoves.refs
      types := hMoves.types
      units := by rw [h.units.length_eq, List.take_length]; exact hMoves.units
      files := h.files }

theorem refl (plain : Prop) (K : Nat → Prop) (b : World) : Later plain K b b :=
  of_moves (.refl plain K _ b) fun _ => id

theorem length_units (h : Later plain K b w) : b.units.length ≤ w.units.length := by
  have := h.units.length_eq
  rw [List.length_take] at this
  omega

theorem mem_units (h : Later plain K b w) (hu : u ∈ b.units) (hStatus : u.status ≠ .pending) :
    u ∈ w.units := by
  obtain ⟨i, hi, rfl⟩ := List.getElem_of_mem hu
  have hi' : i < (w.units.take b.units.length).length := h.units.length_eq ▸ hi
  have hStep := List.forall₂_iff_get.1 h.units |>.2 i hi hi'
  exact List.mem_of_mem_take (List.mem_iff_getElem.2 ⟨i, hi', hStep.eq_of_started hStatus⟩)

theorem exists_unit (h : Later plain K b w) (hu : u ∈ b.units) : ∃ u' ∈ w.units, u'.name = u.name := by
  obtain ⟨i, hi, rfl⟩ := List.getElem_of_mem hu
  have hi' : i < (w.units.take b.units.length).length := h.units.length_eq ▸ hi
  exact ⟨_, List.mem_of_mem_take (List.getElem_mem hi'),
    (List.forall₂_iff_get.1 h.units |>.2 i hi hi').name⟩

theorem exists_step (h : Later plain K b w) (hLength : w.units.length = b.units.length)
    (hu : u ∈ w.units) : ∃ u' ∈ b.units, u'.Step K u := by
  have hUnits := h.units
  rw [← hLength, List.take_length] at hUnits
  obtain ⟨i, hi, rfl⟩ := List.getElem_of_mem hu
  have hi' : i < b.units.length := hLength ▸ hi
  exact ⟨_, List.getElem_mem hi', List.forall₂_iff_get.1 hUnits |>.2 i hi' hi⟩

theorem trans (h : Later plain K b w) (h' : Later plain K' w w') (hK : ∀ id, K id → K' id) :
    Later plain K b w' where
  next := Nat.le_trans h.next h'.next
  tops := h.tops.trans h'.tops
  table := h.table.trans h'.table
  log := h.log.trans h'.log
  refs hp id hId := (h'.refs hp id (hK id hId)).trans (h.refs hp id hId)
  types hp id hId := by
    obtain hSame' | hAssigns := h'.types hp id (hK id hId)
    · obtain hSame | hAssigns := h.types hp id hId
      · exact .inl (hSame'.trans hSame)
      · exact .inr (hAssigns.keep (fun u hu hStatus => h'.mem_units hu (by simp [hStatus]))
          h'.tops h'.log)
    · exact .inr (hAssigns.mono hK fun _ => False.elim)
  units := by
    have hTake := List.forall₂_take b.units.length h'.units
    rw [List.take_take, Nat.min_eq_left h.length_units] at hTake
    refine List.forall₂_iff_get.2 ⟨h.units.length_eq.trans hTake.length_eq, fun i hi hi' => ?_⟩
    have hi₁ : i < (w.units.take b.units.length).length := h.units.length_eq ▸ hi
    exact ((List.forall₂_iff_get.1 h.units).2 i hi hi₁).trans
      (((List.forall₂_iff_get.1 hTake).2 i hi₁ hi').mono hK)
  files := World.files_trans h.files h'.files

end Later

/-- What calls that start in a world come to: a world between calls again, and a later one, in which
what was declared since is declared by units. -/
structure Comes (plain : Plain) (w w' : World) : Prop where
  settled : Settled plain w'
  later : Later plain (· < w.store.next) w w'
  owned : plain → w.Owned w'

/-- How calls may end with a fault. -/
structure Stops (plain : Plain) (w : World) (f : Fault) (w' : World) : Prop extends
    Comes plain w w' where
  odd : ¬plain
  ofNames : f.OfNames

namespace Comes

theorem refl (h : Settled plain w) : Comes plain w w := ⟨h, .refl _ _ _, fun _ _ => .inl⟩

theorem of_advances (h : Settled plain w) (hAdvances : Advances plain w w') : Comes plain w w' :=
  ⟨h.of_moves hAdvances.sound hAdvances.moves, .of_moves hAdvances.moves fun _ => id,
    fun _ => hAdvances.owned⟩

theorem trans {w'' : World} (h : Comes plain w w') (h' : Comes plain w' w'') :
    Comes plain w w'' where
  settled := h'.settled
  later := h.later.trans h'.later fun _ hId => Nat.lt_of_lt_of_le hId h.later.next
  owned hp d hd := by
    obtain hd | hUnit := h'.owned hp d hd
    · obtain hd | ⟨u, hu, hStatus, hOf⟩ := h.owned hp d hd
      · exact .inl hd
      · exact .inr ⟨u, h'.later.mem_units hu (by simp [hStatus]), hStatus, hOf⟩
    · exact .inr hUnit

theorem stops {w'' : World} {f : Fault} (h : Comes plain w w') (h' : Stops plain w' f w'') :
    Stops plain w f w'' :=
  ⟨h.trans h'.toComes, h'.odd, h'.ofNames⟩

end Comes

theorem Failing.stops {f : Fault} (h : Failing plain (· < w.store.next) w f w')
    (hSettled : Settled plain w) : Stops plain w f w' :=
  ⟨⟨hSettled.of_moves h.sound h.moves, .of_moves h.moves fun _ => id, fun hp => absurd hp h.odd⟩,
    h.odd, h.ofNames⟩

namespace Compilation

def Works (plain : Plain) (compile : SourceUnit → Check Unit) : Prop :=
  ∀ w u, Settled plain w → u ∈ w.units →
    Leads (compile u) w (Stops plain w) fun _ w' => Comes plain w w' ∧
      w'.units.length = w.units.length ∧
        ∃ u' ∈ w'.units, u'.name = u.name ∧ u'.status = .compiled

theorem Works.of_compiles {compile : Nat → SourceUnit → Check Unit}
    (hCompile : ∀ depth, Compiles plain (depth + 1) (compile depth)) :
    Works plain (fun u => do compile (← get).units.length u) := by
  intro w u h hu
  refine (compile_length_spec hCompile h.sound h.flying hu).mono (fun _ _ hFail => hFail.stops h)
    fun _ w' ⟨hAdvances, u', hu', hName, hStatus⟩ => ?_
  have hComes : Comes plain w w' := .of_advances h hAdvances
  refine ⟨hComes, hAdvances.moves.units.length_eq.symm, u', hu', hName, ?_⟩
  cases hNow : u'.status with
  | pending => exact absurd hNow hStatus
  | compiling => exact absurd hNow (hComes.settled.idle u' hu')
  | compiled => rfl

theorem compile_works : Works plain compile :=
  .of_compiles fun depth => compileWith_spec (orListed_meets (load_loads depth))

theorem compileEach_spec {compile : SourceUnit → Check Unit} (hCompile : Works plain compile)
    (names : List Text) (h : Settled plain w) :
    Leads (compileEach compile names) w (Stops plain w) fun errors w' => Comes plain w w' ∧
      w'.units.length = w.units.length ∧
      (∀ u ∈ w.units, u.name ∈ names → ∃ u' ∈ w'.units, u'.name = u.name ∧ u'.status = .compiled) ∧
        ∀ e ∈ errors, ∃ u ∈ w'.units, u.status = .compiled ∧ e ∈ u.errors := by
  induction names generalizing w with
  | nil => exact .pure ⟨.refl h, rfl, by simp, by simp⟩
  | cons name rest ih =>
    rw [compileEach]
    refine .get fun s hs => ?_
    have hUnits : s.units = w.units := congrArg World.units hs
    split
    · rename_i hNone
      refine (ih h).mono (fun _ _ => id) fun errors w' ⟨hComes, hLength, hAll, hErrors⟩ =>
        ⟨hComes, hLength, fun u hu hName => ?_, hErrors⟩
      obtain hEq | hName := List.mem_cons.1 hName
      · exact absurd hEq (by simpa using List.find?_eq_none.1 hNone u (hUnits ▸ hu))
      · exact hAll u hu hName
    · rename_i u hFind
      have hu : u ∈ w.units := hUnits ▸ List.mem_of_find?_eq_some hFind
      have hName : u.name = name := by simpa using List.find?_some hFind
      refine (hCompile w u h hu).bind fun _ w₁ ⟨h₁, hLength₁, u₁, hu₁, hName₁, hStatus₁⟩ => ?_
      refine .get fun s₁ hs₁ => ?_
      subst hs₁
      refine ((ih h₁.settled).mono (fun _ _ => h₁.stops) fun _ _ => id).bind
        fun more w₂ ⟨h₂, hLength₂, hAll, hMore⟩ => ?_
      have hKept {x : SourceUnit} (hx : x ∈ s₁.world.units) (hStatus : x.status = .compiled) :
          x ∈ w₂.units :=
        h₂.later.mem_units hx (by simp [hStatus])
      refine .pure ⟨h₁.trans h₂, hLength₂.trans hLength₁, fun x hx hOne => ?_,
        List.forall_mem_append.2 ⟨fun e he => ?_, hMore⟩⟩
      · obtain hEq | hRest := List.mem_cons.1 hOne
        · exact ⟨u₁, hKept hu₁ hStatus₁, by rw [hName₁, hName, hEq], hStatus₁⟩
        · obtain ⟨x₁, hx₁, hSame⟩ := h₁.later.exists_unit hx
          obtain ⟨x₂, hx₂, hSame₂, hStatus₂⟩ := hAll x₁ hx₁ (hSame ▸ hRest)
          exact ⟨x₂, hx₂, hSame₂.trans hSame, hStatus₂⟩
      · cases hNow : s₁.unit? name with
        | none => simp [hNow] at he
        | some x =>
          have hx : x ∈ s₁.world.units := List.mem_of_find?_eq_some hNow
          have hEq : x.name = name := by simpa using List.find?_some hNow
          obtain rfl := h₁.settled.sound.eq_of_name hu₁ hx (hEq.trans (hName.symm.trans hName₁.symm))
          exact ⟨x, hKept hx hStatus₁, hStatus₁, by simpa [hNow] using he⟩

theorem compileAll_comes {compile : SourceUnit → Check Unit} (hCompile : Works plain compile)
    (h : Settled plain w) :
    Leads (do return Diagnostic.sort (← compileEach compile ((← get).units.map (·.name)))) w
      (Stops plain w) fun errors w' => Comes plain w w' ∧ w'.units.length = w.units.length ∧
        (∀ u ∈ w.units, ∃ u' ∈ w'.units, u'.name = u.name ∧ u'.status = .compiled) ∧
          ∀ e ∈ errors, ∃ u ∈ w'.units, u.status = .compiled ∧ e ∈ u.errors := by
  refine .get fun s hs => ?_
  have hUnits : s.units = w.units := congrArg World.units hs
  refine (compileEach_spec hCompile _ h).bind fun errors w₁ ⟨h₁, hLength, hAll, hErrors⟩ =>
    .pure ⟨h₁, hLength, fun u hu => hAll u hu (hUnits ▸ List.mem_map_of_mem hu), fun e he => ?_⟩
  exact hErrors e (Diagnostic.mem_of_mem_sort he)

theorem compileAll_spec (h : Settled plain w) :
    Leads compileAll w (Stops plain w) fun errors w' => Comes plain w w' ∧
      w'.units.length = w.units.length ∧
        (∀ u ∈ w.units, ∃ u' ∈ w'.units, u'.name = u.name ∧ u'.status = .compiled) ∧
          ∀ e ∈ errors, ∃ u ∈ w'.units, u.status = .compiled ∧ e ∈ u.errors :=
  compileAll_comes compile_works h

theorem load_comes {load : Nat → Name → Check (Option Symbol)}
    (hLoad : ∀ depth, Loads plain depth (load depth)) (h : Settled plain w) (name : Name) :
    Leads (do load ((← get).units.length + 1) name) w (Stops plain w)
      fun _ w' => Comes plain w w' :=
  (load_length_spec hLoad h.sound h.flying name).mono (fun _ _ hFail => hFail.stops h)
    fun _ _ ⟨hAdvances, _⟩ => .of_advances h hAdvances

end Compilation

theorem Settled.add (h : Settled plain w) (hNew : ∀ x ∈ w.units, x.name ≠ u.name)
    (hSpaced : plain → Text.Spaced u.space) (hStatus : u.status = .pending)
    (hRoot : u.root = none) : Comes plain w { w with units := w.units ++ [u] } := by
  have hMem {x : SourceUnit} (hx : x ∈ w.units ++ [u]) : x ∈ w.units ∨ x = u := by
    simpa using hx
  have hGrows : w.Grows { w with units := w.units ++ [u] } :=
    ⟨Nat.le_refl _, fun d hd => ⟨d, hd, rfl, rfl⟩, id,
      fun x hx r hr => ⟨x, List.mem_append_left _ hx, rfl, r, hr, rfl⟩⟩
  refine ⟨⟨{ h.sound with
      names := ?_
      spaces := ?_
      table := fun hEntry => (h.sound.table hEntry).mono hGrows
      roots := ?_
      unread := ?_
      named := ?_
      outcomes := ?_ }, ?_⟩,
    { Later.refl plain (· < w.store.next) w with types := fun _ _ _ => .inl rfl, units := ?_, files := ?_ },
    fun _ _ => .inl⟩
  · rw [List.map_append, List.nodup_append]
    refine ⟨h.sound.names, List.nodup_singleton _, fun a ha b hb => ?_⟩
    obtain ⟨x, hx, rfl⟩ := List.mem_map.1 ha
    rw [List.mem_singleton.1 hb]
    exact hNew x hx
  · intro hp x hx
    obtain hx | rfl := hMem hx
    · exact h.sound.spaces hp x hx
    · exact hSpaced hp
  · intro x hx r hr
    obtain hx | rfl := hMem hx
    · exact h.sound.roots x hx r hr
    · simp [hRoot] at hr
  · intro x hx hPending
    obtain hx | rfl := hMem hx
    · exact h.sound.unread x hx hPending
    · exact hRoot
  · intro hp x hx r hr
    obtain hx | rfl := hMem hx
    · exact h.sound.named hp x hx r hr
    · simp [hRoot] at hr
  · intro hp x hx hCompiled
    obtain hx | rfl := hMem hx
    · exact h.sound.outcomes hp x hx hCompiled
    · simp [hStatus] at hCompiled
  · intro x hx
    obtain hx | rfl := hMem hx
    · exact h.idle x hx
    · simp [hStatus]
  · rw [List.take_left]
    exact List.forall₂_same.2 fun x _ => .refl x
  · simp [World.started, World.read, hStatus]

namespace Call

theorem runBy_spec {compile : SourceUnit → Check Unit} {compileAll : Check (List Diagnostic)}
    {load : Name → Check (Option Symbol)} (hCompile : Compilation.Works plain compile)
    (hAll : Leads compileAll w (Stops plain w) fun _ w' => Comes plain w w')
    (hLoad : ∀ name, Leads (load name) w (Stops plain w) fun _ w' => Comes plain w w')
    (c : Call) (hSpaced : plain → c.Spaced) (h : Settled plain w) :
    Leads (c.runBy compile compileAll load) w (Stops plain w) fun _ w' => Comes plain w w' := by
  cases c with
  | add name space path text =>
    refine .get fun s hs => ?_
    subst hs
    unfold State.addSource
    cases hFind : s.unit? name with
    | some u => exact .pure (.refl h)
    | none =>
      have hNew : ∀ x ∈ s.world.units, x.name ≠ name := fun x hx => by
        simpa using List.find?_eq_none.1 hFind x hx
      exact .set (h.add (u := SourceUnit.ofSource name space path text) hNew hSpaced rfl rfl)
  | compile name =>
    refine .get fun s hs => ?_
    have hUnits : s.units = w.units := congrArg World.units hs
    split
    · rename_i u hFind
      exact (hCompile w u h (hUnits ▸ List.mem_of_find?_eq_some hFind)).mono (fun _ _ => id)
        fun _ _ hEnd => hEnd.1
    · exact .pure (.refl h)
  | compileAll => exact hAll.bind fun _ _ h₁ => .pure h₁
  | load name => exact (hLoad name).bind fun _ _ h₁ => .pure h₁

theorem run_spec (c : Call) (hSpaced : plain → c.Spaced) (h : Settled plain w) :
    Leads c.run w (Stops plain w) fun _ w' => Comes plain w w' :=
  runBy_spec Compilation.compile_works
    ((Compilation.compileAll_spec h).mono (fun _ _ => id) fun _ _ hEnd => hEnd.1)
    (Compilation.load_comes Compilation.load_loads h) c hSpaced h

theorem comes (c : Call) {s : State} (hSpaced : plain → c.Spaced) (h : Settled plain s.world) :
    Comes plain s.world (ending c.run s).2.world :=
  ((run_spec c hSpaced h).mono (fun _ _ hStops => hStops.toComes) fun _ _ => id).ending_world rfl

theorem after_comes {calls : List Call} {s : State} (hSpaced : plain → ∀ c ∈ calls, c.Spaced)
    (h : Settled plain s.world) : Comes plain s.world (after calls s).world := by
  induction calls generalizing s with
  | nil => exact .refl h
  | cons c rest ih =>
    have hComes := comes c (fun hp => hSpaced hp c List.mem_cons_self) h
    exact hComes.trans (ih (fun hp x hx => hSpaced hp x (List.mem_cons_of_mem _ hx)) hComes.settled)

end Call

end Assay
