import Mathlib
import Assay.Proofs.Calls

/-! Units that each declare the type that they are named for. No namespace of a unit is to be the name
of one of them: the scope of that type would be the namespace, and the short name of the type would
stand there as a full name. Then each unit has its type under its name, and none is told that its name
is taken. -/

namespace Assay

open Check (ending)

/-- The text of a unit can be read, and declares the type that the unit is named for. -/
def SourceUnit.DeclaresName (u : SourceUnit) : Prop :=
  ∀ next, ∃ r after, Root.parse u.space u.text next = .ok (r, after) ∧ r.fullName = u.name

theorem SourceUnit.DeclaresName.of_parse {u : SourceUnit}
    (h : ∀ next, (Root.parse u.space u.text next).toOption.map (·.1.fullName) = some u.name) :
    u.DeclaresName := by
  intro next
  obtain ⟨p, hParse, hName⟩ := Option.map_eq_some_iff.1 (h next)
  cases hRead : Root.parse u.space u.text next with
  | error e => simp [hRead, Except.toOption] at hParse
  | ok q =>
    rw [hRead] at hParse
    obtain rfl := Option.some.inj hParse
    exact ⟨q.1, q.2, rfl, hName⟩

def Symbol.OfLibrary (symbol : Symbol) : Prop :=
  ∃ simple, Text.isWord simple ∧ symbol = .library (librarySpace ++ "." ++ simple)

/-- Namespaces are names of words, and no types are given but those of the runtime library. -/
def Plain.library : Plain := ⟨True, Symbol.OfLibrary⟩

theorem Loader.ofLibrary_of_known {name : Name} {symbol : Symbol}
    (h : Loader.library.known? name = some symbol) : symbol.OfLibrary := by
  simp only [known?] at h
  split at h
  · rename_i hName
    simp only [Bool.and_eq_true, decide_eq_true_eq, Name.isQualified, Bool.not_eq_true',
      List.isEmpty_eq_false_iff] at hName
    obtain ⟨⟨⟨hQualified, _⟩, hSpace⟩, hSimple⟩ := hName
    have hWords : ∀ simple ∈ libraryNames, Text.isWord simple := by decide +kernel
    refine ⟨name.simple, hWords _ (by simpa using hSimple), ?_⟩
    rw [← Option.some.inj h, Name.full, Name.parts, Text.join_concat _ hQualified, hSpace]
  · simp at h

namespace Text.At

variable {text other : Text} {path : Path} {key : Key}

theorem splitOn (h : text.At path key) (hText : isDotted text) :
    ∃ simple, key = .plain simple ∧ Text.splitOn 46 text = path ++ [simple] := by
  obtain ⟨rfl, rfl⟩ := h
  refine ⟨_, rfl, ?_⟩
  have hHome : Scope.home [] (Name.ofText text) = (Name.ofText text).qualifier := by
    unfold Scope.home Name.isQualified
    cases (Name.ofText text).qualifier <;> rfl
  rw [hHome, ← Name.parts_ofText (Name.not_mem_of_isDotted hText)]
  rfl

theorem eq (h : text.At path key) (h' : other.At path key) (hText : isDotted text)
    (hOther : isDotted other) : text = other := by
  obtain ⟨simple, rfl, hParts⟩ := h.splitOn hText
  obtain ⟨_, hKey, hParts'⟩ := h'.splitOn hOther
  obtain rfl := Key.plain.inj hKey
  exact splitOn_injective 46 (hParts.trans hParts'.symm)

end Text.At

/-- What holds in the end if units declare the types that they are named for. -/
structure World.Apart (w : World) : Prop where
  sound : Sound .library w
  compiled : ∀ u ∈ w.units, u.status = .compiled
  names : ∀ u ∈ w.units, u.DeclaresName
  spaces : ∀ u ∈ w.units, u.space ≠ librarySpace ∧ ∀ v ∈ w.units, u.space ≠ v.name
  owned : ∀ d ∈ w.store.tops, ∃ u ∈ w.units, ∃ r, u.root = some r ∧ d.Of r

namespace World.Apart

variable {w : World} {u : SourceUnit}

theorem splitOn_name (h : w.Apart) (hu : u ∈ w.units) :
    Text.isDotted u.name ∧ ∃ simple, Text.splitOn 46 u.name = spacePath u.space ++ [simple] := by
  obtain ⟨r, after, hParse, hName⟩ := h.names u hu 0
  obtain ⟨hSpace, _, hWorded⟩ := Root.parse_spec _ _ _ _ hParse
  have hWord : Text.isWord r.top.name := (hWorded.child (k := .top r.top) (by simp [Node.children])).self
  have hSpaced : Text.Spaced r.space := hSpace ▸ h.sound.spaces trivial u hu
  rw [← hName, ← hSpace]
  exact ⟨Root.isDotted_fullName hSpaced hWord, _, Root.splitOn_full hWord⟩

theorem root (h : w.Apart) (hu : u ∈ w.units) : ∃ r, u.root = some r ∧ r.fullName = u.name := by
  have hOutcome := h.sound.outcomes trivial u hu (h.compiled u hu)
  cases hRoot : u.root with
  | none =>
    obtain ⟨next, e, hError⟩ := hOutcome.unread hRoot
    obtain ⟨r, after, hParse, _⟩ := h.names u hu next
    exact nomatch hError.symm.trans hParse
  | some r =>
    obtain ⟨next, r', after, hRead, hFull⟩ := hOutcome.read r hRoot
    obtain ⟨r'', after', hParse, hName⟩ := h.names u hu next
    obtain ⟨rfl, _⟩ := Prod.mk.inj (Except.ok.inj (hRead.symm.trans hParse))
    exact ⟨r, rfl, hFull.symm.trans hName⟩

theorem unit_of_top (h : w.Apart) {d : Declared} (hd : d ∈ w.store.tops) :
    ∃ u ∈ w.units, d.name = u.name ∧ ∃ r, u.root = some r ∧ d.Of r := by
  obtain ⟨u, hu, r, hRoot, hOf⟩ := h.owned d hd
  obtain ⟨r', hRoot', hFull⟩ := h.root hu
  obtain rfl := Option.some.inj (hRoot.symm.trans hRoot')
  exact ⟨u, hu, (h.sound.named trivial u hu r hRoot d hd hOf).trans hFull, r, hRoot, hOf⟩

theorem symbol_of_entry (h : w.Apart) (hu : u ∈ w.units) {path : Path} {key : Key} {n : Text}
    {symbol : Symbol} (hAt : u.name.At path key) (hEntry : w.store.table.Entry path key n symbol) :
    ∃ d ∈ w.store.tops, d.name = u.name ∧ symbol = d.symbol := by
  have hFit := h.sound.table hEntry
  obtain ⟨hName, simple, hParts⟩ := h.splitOn_name hu
  obtain ⟨_, _, hOwn⟩ := hAt.splitOn hName
  have hPath : path = spacePath u.space := (List.append_inj' (hOwn.symm.trans hParts) rfl).1
  have hLoaded {full : Text} (hFull : symbol.loaded? = some full) : False := by
    obtain ⟨hFullAt, simple', hWord, hLibrary⟩ := hFit.loaded trivial full hFull
    subst hLibrary
    obtain rfl : librarySpace ++ "." ++ simple' = full := Option.some.inj hFull
    have hSame := (hFullAt.eq hAt (Text.isDotted_append (by decide +kernel)
      (Text.isDotted_of_isWord hWord)) hName).symm
    have hSplit : Text.splitOn 46 u.name = Text.splitOn 46 librarySpace ++ [simple'] := by
      rw [hSame, List.append_assoc]
      refine (Text.splitOn_append 46 librarySpace simple').trans ?_
      rw [Text.splitOn_of_not_mem (Text.not_mem_of_isWord hWord (by decide) (by decide +kernel))]
    have hSpace : spacePath u.space = Text.splitOn 46 librarySpace :=
      (List.append_inj' (hParts.symm.trans hSplit) rfl).1
    unfold spacePath at hSpace
    split at hSpace
    · exact absurd hSpace.symm (Text.splitOn_ne_nil _ _)
    · exact (h.spaces u hu).1 (Text.splitOn_injective 46 hSpace)
  have hHosted (hHosted : w.store.Hosted path) : False := by
    obtain ⟨_, _, hBody⟩ := hHosted
    refine not_inBody (fun part hPart => ?_) hBody
    exact List.all_eq_true.1 hName part (hOwn ▸ List.mem_append_left _ hPart)
  cases symbol with
  | type name origin =>
    cases hOrigin : origin with
    | declared id =>
      subst hOrigin
      obtain ⟨d, hd, rfl, rfl, hOwnAt | ⟨v, hv, hvAt, r, hRoot, hFull⟩⟩ :=
        hFit.declared trivial name id rfl
      · have hDotted : Text.isDotted d.name := (h.sound.tops d hd).dotted trivial
        exact ⟨d, hd, hOwnAt.eq hAt hDotted hName, rfl⟩
      · obtain ⟨r', hRoot', hFull'⟩ := h.root hv
        obtain rfl := Option.some.inj (hRoot.symm.trans hRoot')
        refine ⟨d, hd, ?_, rfl⟩
        rw [← hFull, hFull']
        exact hvAt.eq hAt (h.splitOn_name hv).1 hName
    | unknown => exact (hLoaded (by rw [hOrigin]; rfl)).elim
    | _ =>
      obtain ⟨hType, _⟩ | hInside := hFit.hosted trivial _ (by rw [hOrigin]; rfl)
      · exact hType.elim
      · exact (hHosted hInside).elim
  | named text decl => exact (hHosted (hFit.inside trivial trivial)).elim
  | hostClass name => exact (hLoaded rfl).elim
  | hostInterface name => exact (hLoaded rfl).elim
  | library name => exact (hLoaded rfl).elim
  | _ =>
    -- An alias is in the scope of a type, and so that of a unit.
    obtain ⟨d, hd, hScope⟩ := hFit.aliased trivial _ _ _ rfl
    obtain ⟨v, hv, hvName, _⟩ := h.unit_of_top hd
    rw [hPath, hvName] at hScope
    unfold spacePath at hScope
    split at hScope
    · exact absurd hScope.symm (Text.splitOn_ne_nil _ _)
    · exact absurd (Text.splitOn_injective 46 hScope) ((h.spaces u hu).2 v hv)

theorem declared (h : w.Apart) (hu : u ∈ w.units) :
    (∀ e ∈ u.errors, e.Spares) ∧ ∃ id, u.symbol? w.store = some (.type u.name (.declared id)) ∧
      w.store.table.find [] (Name.ofText u.name) = .ok [.type u.name (.declared id)] := by
  obtain ⟨r, hRoot, hFull⟩ := h.root hu
  obtain ⟨hName, _⟩ := h.splitOn_name hu
  have hKey := (Name.dotted_ofText hName).key
  have hOutcome := (h.sound.outcomes trivial u hu (h.compiled u hu)).declared r hRoot
  obtain ⟨⟨d, hd, hOf⟩, hReports⟩ | ⟨hNone, hTaken⟩ := hOutcome
  · have hdName : d.name = u.name := (h.sound.named trivial u hu r hRoot d hd hOf).trans hFull
    have hSymbol : d.symbol = .type u.name (.declared d.id) := by rw [Declared.symbol, hdName]
    refine ⟨hReports.spares, d.id, ?_, ?_⟩
    · rw [SourceUnit.symbol?, hRoot, Option.bind_some, h.sound.declaredBy?_of_mem hd hOf,
        Option.map_some, hSymbol]
    · have hTaken : w.store.table.Taken u.name := hdName ▸ (h.sound.tops d hd).taken trivial
      refine Scope.find_eq_singleton hKey (Scope.sees_root.2 rfl) hTaken
        fun path n other hPath hEntry => ?_
      obtain ⟨d', hd', hdName', rfl⟩ := h.symbol_of_entry hu ⟨Scope.sees_root.1 hPath, rfl⟩ hEntry
      rw [← hSymbol,
        List.inj_on_of_nodup_map (h.sound.topNames) hd' hd (hdName'.trans hdName.symm)]
  · -- What has taken the name is a type of that name, and there is no other unit to declare it.
    rw [hFull] at hTaken
    obtain ⟨n, symbol, hEntry⟩ := Scope.exists_entry_of_not_free hTaken
    obtain ⟨d, hd, hdName, _⟩ := h.symbol_of_entry hu ⟨rfl, rfl⟩ hEntry
    obtain ⟨v, hv, hvName, r', hRoot', hOf⟩ := h.unit_of_top hd
    obtain rfl := h.sound.eq_of_name hu hv (hvName.symm.trans hdName)
    obtain rfl := Option.some.inj (hRoot.symm.trans hRoot')
    exact absurd hOf (hNone d hd)

end World.Apart

/-- The units that stand after calls, where each of them declares the type that it is named for, none
in the namespace of the runtime library and none in a namespace that is the name of one of them: to
compile all gives no diagnostic that says of a top-level declaration that its name is taken, but for
the name `this`, and then each name denotes the type of its unit and nothing else. -/
theorem Compilation.compileAll_declares_each {calls : List Call} (hSpaced : ∀ c ∈ calls, c.Spaced)
    {s : State} (hs : s = Call.after calls (.start .default))
    (hNames : ∀ u ∈ s.units, u.DeclaresName) (hLibrary : ∀ u ∈ s.units, u.space ≠ librarySpace)
    (hApart : ∀ u ∈ s.units, ∀ v ∈ s.units, u.space ≠ v.name) :
    ∃ errors s', ending compileAll s = (.ok errors, s') ∧
      (∀ e ∈ errors, e.kind = .alreadyDefined → ∀ t, e.node = some (.top t) →
        e.message = "symbol already defined: this") ∧
      ∀ u ∈ s.units, ∃ u' ∈ s'.units, u'.name = u.name ∧ u'.status = .compiled ∧
        ∃ id, u'.symbol? s'.store = some (.type u.name (.declared id)) ∧
          s'.store.table.find [] (Name.ofText u.name) = .ok [.type u.name (.declared id)] := by
  have hStart : Settled .library (State.start .default).world := by
    refine .start (fun l hl => ?_) fun _ l hl name symbol hKnown => ?_
    · obtain rfl := List.mem_singleton.1 hl
      exact Loader.Standard.bare trivial
    · obtain rfl := List.mem_singleton.1 hl
      exact Loader.ofLibrary_of_known hKnown
  have hBefore : Comes .library (State.start .default).world s.world :=
    hs ▸ Call.after_comes (fun _ => hSpaced) hStart
  have hAll := compileAll_spec hBefore.settled s rfl
  cases hEnd : ending compileAll s with
  | mk result s' =>
    rw [hEnd] at hAll
    cases result with
    | error f => exact absurd trivial hAll.odd
    | ok errors =>
      obtain ⟨hComes, hLength, hCompiled, hErrors⟩ := hAll
      have hSound := hComes.settled.sound
      have hOld {u : SourceUnit} (hu : u ∈ s'.world.units) : ∃ v ∈ s.units, v.SameSource u := by
        obtain ⟨v, hv, hStep⟩ := hComes.later.exists_step hLength hu
        exact ⟨v, hv, hStep.sameSource⟩
      have hEach : s'.world.Apart := by
        refine ⟨hSound, fun u hu => ?_, fun u hu => ?_, fun u hu => ?_, fun d hd => ?_⟩
        · obtain ⟨v, hv, hSame⟩ := hOld hu
          obtain ⟨u', hu', hName, hStatus⟩ := hCompiled v hv
          rwa [hSound.eq_of_name hu' hu (hSame.name.trans hName.symm)]
        · obtain ⟨v, hv, hSame⟩ := hOld hu
          rw [SourceUnit.DeclaresName, hSame.space, hSame.text, hSame.name]
          exact hNames v hv
        · obtain ⟨v, hv, hSame⟩ := hOld hu
          refine ⟨hSame.space ▸ hLibrary v hv, fun x hx => ?_⟩
          obtain ⟨y, hy, hSame'⟩ := hOld hx
          rw [hSame.space, hSame'.name]
          exact hApart v hv y hy
        · obtain hd | ⟨u, hu, _, hOf⟩ := (hBefore.trans hComes).owned trivial d hd
          · exact absurd hd List.not_mem_nil
          · exact ⟨u, hu, hOf⟩
      refine ⟨errors, s', rfl, fun e he hKind t ht => ?_, fun u hu => ?_⟩
      · obtain ⟨u, hu, _, hMem⟩ := hErrors e he
        exact (hEach.declared hu).1 e hMem hKind t ht
      · obtain ⟨u', hu', hName, hStatus⟩ := hCompiled u hu
        exact ⟨u', hu', hName, hStatus, hName ▸ (hEach.declared hu').2⟩

/-- Three classes that name each other, two of them by one simple name in a namespace and in another
one inside it. -/
theorem Compilation.compileAll_declares_each_of_three :
    let s := Call.after [.add "p.A" "p" "A.th" "class A { val b: B val c: p.q.A }",
      .add "p.q.A" "p.q" "q.th" "class A { val a: p.A }",
      .add "p.B" "p" "B.th" "use p.q.A : C class B { m(c: C): C { c } }"] (.start .default)
    s.units.map (·.name) = ["p.A", "p.q.A", "p.B"] ∧
    ∃ errors s', ending compileAll s = (.ok errors, s') ∧
      (∀ e ∈ errors, e.kind = .alreadyDefined → ∀ t, e.node = some (.top t) →
        e.message = "symbol already defined: this") ∧
      ∀ u ∈ s.units, ∃ u' ∈ s'.units, u'.name = u.name ∧ u'.status = .compiled ∧
        ∃ id, u'.symbol? s'.store = some (.type u.name (.declared id)) ∧
          s'.store.table.find [] (Name.ofText u.name) = .ok [.type u.name (.declared id)] := by
  intro s
  have hSpaced : ∀ c ∈ [Call.add "p.A" "p" "A.th" "class A { val b: B val c: p.q.A }",
      .add "p.q.A" "p.q" "q.th" "class A { val a: p.A }",
      .add "p.B" "p" "B.th" "use p.q.A : C class B { m(c: C): C { c } }"], c.Spaced := by
    have hOuter : Text.Spaced "p" := .inr (by decide +kernel)
    have hInner : Text.Spaced "p.q" := .inr (by decide +kernel)
    simp [Call.Spaced, hOuter, hInner]
  have hUnits : s.units =
      [.ofSource "p.A" "p" "A.th" "class A { val b: B val c: p.q.A }",
        .ofSource "p.q.A" "p.q" "q.th" "class A { val a: p.A }",
        .ofSource "p.B" "p" "B.th" "use p.q.A : C class B { m(c: C): C { c } }"] := rfl
  refine ⟨by rw [hUnits]; rfl, compileAll_declares_each hSpaced rfl ?_ ?_ ?_⟩
  · rw [hUnits]
    simp only [List.forall_mem_cons]
    refine ⟨.of_parse fun next => ?_, .of_parse fun next => ?_,
      .of_parse fun next => ?_, by simp⟩
    all_goals with_unfolding_all rfl
  · rw [hUnits]
    decide +kernel
  · rw [hUnits]
    decide +kernel

/-- Where the namespace of a class is the name of another one, the class that is compiled later gets
into the way of the first: it is told that its name is taken, or its short name takes that of the
first. -/
theorem Compilation.compileAll_mixes_up_scopes :
    let outer := Call.add "p.A" "p" "A.th" "class A { }"
    let inner := Call.add "p.A.A" "p.A" "AA.th" "class A { }"
    ((ending compileAll (Call.after [outer, inner] (.start .default))).1.toOption.map
      fun errors => errors.map fun e => (e.kind, e.message)) =
        some [(Kind.alreadyDefined, ("symbol already defined: p.A.A" : Text))] ∧
    (((ending compileAll (Call.after [inner, outer] (.start .default))).2.store.table.find []
      (Name.ofText "p.A.A")).toOption.map fun symbols => symbols.map (·.toText)) =
        some [("(alias: p.A)" : Text)] := by
  decide +kernel

end Assay
