import Mathlib
import Assay.Proofs.Meant

/-! Each declaration of a source that is checked has a type, or there is one report that it has none.
What a check reports is sorted, and of two reports that read alike at one place the second is dropped;
declarations of one source start at different points, so a report is dropped only for one on another
source. -/

namespace Assay

open Check (ending)

def Diagnostic.isOn (kind : Kind) (n : Node Meta) (d : Diagnostic) : Bool :=
  d.kind = kind && d.node.map (·.ann.id) = some n.ann.id

theorem NameEvent.SettlesEach.fails {es : List NameEvent} {errors : List Diagnostic} {w w' : World}
    (h : SettlesEach es w errors w') : ∀ d ∈ errors, ∃ e ∈ es, e.Fails d := by
  induction h with
  | nil => simp
  | @cons e rest _ _ _ _ _ h _ ih =>
    refine List.forall_mem_append.2 ⟨fun d hd => ⟨e, List.mem_cons_self, ?_⟩, fun d hd => ?_⟩
    · cases h with
      | known | missing => exact ⟨_, List.mem_singleton.1 hd⟩
      | declared | found => cases hd
    · obtain ⟨e', he', hFails⟩ := ih d hd
      exact ⟨e', List.mem_cons_of_mem _ he', hFails⟩

namespace Root

variable {r : Root Meta} {w : World}

theorem Untouched.eq_of_location (h : r.Untouched w) {n m : Node Meta} {p p' : Problem}
    (hn : n ∈ (Node.root r).nodes) (hm : m ∈ (Node.root r).nodes) (hLeads : n.label.leads)
    (hLeads' : m.label.leads)
    (hSame : (Diagnostic.ofNode p n).location = (Diagnostic.ofNode p' m).location) : n = m := by
  obtain ⟨place, hPlace⟩ := Option.isSome_iff_exists.1 ((h.grounded.all n hn).position trivial)
  obtain ⟨place', hPlace'⟩ := Option.isSome_iff_exists.1 ((h.grounded.all m hm).position trivial)
  refine Node.eq_of_leading _ h.shapely.leading hn hm hLeads hLeads' ?_
  simp only [Diagnostic.ofNode, Diagnostic.location, hPlace, hPlace'] at hSame
  rw [Meta.first?, Meta.first?, hPlace, hPlace', Option.map_some, Option.map_some, hSame]

/-- Of all reports of a kind, the only one on a declaration or a reference of a source is left in the
end, unless another one reads alike at the same place, on what is not in the source. -/
theorem Untouched.reported (h : r.Untouched w) {ds : List Diagnostic} {n : Node Meta} {p : Problem}
    {on : Diagnostic → Bool} (hProblems : ∀ d ∈ ds, ∃ p n, d = .ofNode p n)
    (hn : n ∈ (Node.root r).nodes) (hLeads : n.label.leads) (hOne : ds.filter on = [.ofNode p n])
    (hOn : ∀ q : Problem, q.kind = p.kind → on (.ofNode q n))
    (hOthers : ∀ q m, .ofNode q m ∈ ds → q.kind = p.kind → m ∈ (Node.root r).nodes → m.label.leads) :
    (Diagnostic.sort ds).filter on = [.ofNode p n] ∨ (Diagnostic.sort ds).filter on = [] ∧
      ∃ q m, q.kind = p.kind ∧ m ∉ (Node.root r).nodes ∧ .ofNode q m ∈ Diagnostic.sort ds ∧
        (Diagnostic.ofNode q m).location = (Diagnostic.ofNode p n).location := by
  have hMem : Diagnostic.ofNode p n ∈ ds := (List.mem_filter.1 (hOne ▸ List.mem_singleton_self _)).1
  obtain ⟨e, he, hRepeats⟩ := Diagnostic.exists_mem_sort hMem
  obtain ⟨q, m, rfl⟩ := hProblems e (Diagnostic.mem_of_mem_sort he)
  obtain ⟨hLocation, hMessage⟩ := Diagnostic.repeats_iff.1 hRepeats
  have hKind : q.kind = p.kind := (Problem.kind_of_message hMessage).symm
  obtain hKept | hNone := Diagnostic.filter_sort_singleton hOne
  · exact .inl hKept
  refine .inr ⟨hNone, q, m, hKind, fun hm => ?_, he, hLocation.symm⟩
  obtain rfl := h.eq_of_location hn hm hLeads
    (hOthers q m (Diagnostic.mem_of_mem_sort he) hKind hm) hLocation
  have hMem : Diagnostic.ofNode q n ∈ (Diagnostic.sort ds).filter on :=
    List.mem_filter.2 ⟨he, hOn q hKind⟩
  rw [hNone] at hMem
  cases hMem

theorem Infers.leads {n : Node Meta} (h : r.Infers n) : n.label.leads := by
  obtain ⟨-, hInferable, -⟩ := h
  cases n with
  | «attribute» | param | signature => rfl
  | value v => cases v <;> first | rfl | exact hInferable.elim
  | _ => exact hInferable.elim

/-- What is known of a declaration in the end: it has a type and no report says that it has none, or it
has none and there is one report; but that one is dropped if there is another at the same place, on a
declaration that is not in the source. -/
def Answers (r : Root Meta) (st : Store) (errors : List Diagnostic) (n : Node Meta) : Prop :=
  (st.typeOf? n.ann.id).isSome ∧ errors.filter (·.isOn .notInferable n) = [] ∨
    st.typeOf? n.ann.id = none ∧
      (errors.filter (·.isOn .notInferable n) = [.ofNode .notInferable n] ∨
        errors.filter (·.isOn .notInferable n) = [] ∧ ∃ m ∉ (Node.root r).nodes,
          .ofNode .notInferable m ∈ errors ∧
            (Diagnostic.ofNode .notInferable m).location =
              (Diagnostic.ofNode .notInferable n).location)

namespace Finishes

variable {t : Scope} {found errors : List Diagnostic}

theorem types (h : r.Finishes t found errors w) (hFound : ∀ e ∈ found, e.Discovered r) :
    (∀ n, r.Infers n → r.Answers w.store errors n) ∧
      ∀ d ∈ errors, d.kind = .notInferable → ∃ n, d = .ofNode .notInferable n ∧ n.Inferable ∧
        (n ∈ (Node.root r).nodes → r.Infers n) := by
  obtain ⟨hUntouched, -, hNames, hTour, hTypes⟩ := h
  rename_i w₀ w₁ names p
  have hNodup := hUntouched.grounded.nodup
  have hApt := hUntouched.apt.settlesEach hNodup hNames
  have hBooked : p.Booked r := by
    refine hTour.steps.keep (I := fun p => p.Booked r) Infer.Stage.Step.booked ?_
    obtain ⟨done, -, hEq⟩ := Apt.begin_progress w₁.store r
    simp [Infer.Stage.Booked, hEq]
  have hEarly : ∀ d ∈ found ++ names, ∃ q n, d = .ofNode q n ∧ q ≠ .notInferable := by
    refine List.forall_mem_append.2 ⟨fun d hd => ?_, fun d hd => ?_⟩
    · obtain ⟨q, n, hEq, hNe, -⟩ := hFound d hd
      exact ⟨q, n, hEq, hNe⟩
    · obtain ⟨e, -, hFails⟩ := hNames.fails d hd
      cases e with
      | declare scope name n =>
        obtain ⟨place, rfl⟩ := hFails
        exact ⟨_, _, rfl, by simp⟩
      | refer ref name =>
        obtain ⟨_, hEq⟩ := hFails
        refine ⟨_, _, hEq, ?_⟩
        split <;> simp
  have hKind (q : Problem) : q.kind = .notInferable ↔ q = .notInferable := by
    cases q <;> simp [Problem.kind]
  have hLate (d : Diagnostic) (hd : d ∈ found ++ names ++ p.progress.errors)
      (hNot : d.kind = .notInferable) : ∃ n, d = .ofNode .notInferable n ∧ n.Inferable ∧
        r.Target n := by
    obtain hd | hd := List.mem_append.1 hd
    · obtain ⟨q, n, rfl, hNe⟩ := hEarly d hd
      exact absurd ((hKind q).1 hNot) hNe
    · obtain ⟨q, n, rfl, hReportable, hTarget⟩ := hBooked d hd
      obtain rfl := (hKind q).1 hNot
      obtain ⟨hInferable⟩ := hReportable
      exact ⟨n, rfl, hInferable, hTarget rfl⟩
  refine ⟨fun n hn => ?_, fun d hd hNot => ?_⟩
  · have hFilter : (found ++ names ++ p.progress.errors).filter (·.isOn .notInferable n) =
        (p.errorsOn n.ann.id).filter (·.kind = .notInferable) := by
      have hNone : (found ++ names).filter (·.isOn .notInferable n) = [] := by
        refine List.filter_eq_nil_iff.2 fun d hd => ?_
        obtain ⟨q, m, rfl, hNe⟩ := hEarly d hd
        have hOther : (Diagnostic.ofNode q m).kind ≠ .notInferable := fun h => hNe ((hKind q).1 h)
        simp [Diagnostic.isOn, hOther]
      rw [List.filter_append, hNone, List.nil_append, Infer.Stage.errorsOn, List.filter_filter]
      rfl
    have hAnswered := hTour.answered hUntouched.sane (fun i hi => (hApt.blank hNodup hi).1)
      (fun i hi => (hApt.blank hNodup hi).2) hn
    have hTyped := hTypes.isSome n.ann.id
    obtain ⟨hSome, hErrors⟩ | ⟨hNone, hErrors⟩ := hAnswered
    · rw [hErrors] at hFilter
      exact .inl ⟨hTyped.trans hSome, Diagnostic.filter_sort_eq_nil hFilter⟩
    · rw [hErrors] at hFilter
      refine .inr ⟨by rw [hNone] at hTyped; simpa using hTyped, ?_⟩
      have hProblems : ∀ d ∈ found ++ names ++ p.progress.errors, ∃ q m, d = .ofNode q m := by
        refine List.forall_mem_append.2 ⟨fun d hd => ?_, fun d hd => ?_⟩
        · obtain ⟨q, m, hEq, -⟩ := hEarly d hd
          exact ⟨q, m, hEq⟩
        · obtain ⟨q, m, hEq, -⟩ := hBooked d hd
          exact ⟨q, m, hEq⟩
      refine (hUntouched.reported hProblems hn.1 hn.leads hFilter ?_ ?_).imp_right ?_
      · intro q hq
        obtain rfl := (hKind q).1 hq
        simp [Diagnostic.isOn, Diagnostic.ofNode, Problem.kind]
      · intro q m hMem hq hm
        obtain ⟨m', hEq, hInferable, hTarget⟩ := hLate _ hMem hq
        obtain rfl : m = m' := Option.some.inj (congrArg Diagnostic.node hEq)
        exact (infers_of_target hm hInferable hTarget).leads
      · rintro ⟨hNil, q, m, hq, hm, hMem, hLocation⟩
        obtain rfl := (hKind q).1 hq
        exact ⟨hNil, m, hm, hMem, hLocation⟩
  · obtain ⟨n, rfl, hInferable, hTarget⟩ := hLate d (Diagnostic.mem_of_mem_sort hd) hNot
    exact ⟨n, rfl, hInferable, fun hn => infers_of_target hn hInferable hTarget⟩

theorem flat (h : r.Finishes t found errors w) {n : Node Meta} (hn : n ∈ (Node.root r).nodes)
    {s : TypeSpec Meta} (hType : w.store.typeOf? n.ann.id = some s) :
    s.IsFlat ∧ ∀ k, (s.flatten? k).1 = none := by
  obtain ⟨-, -, -, -, hTypes⟩ := h
  obtain ⟨_, -, hSettled⟩ := hTypes.exists_old hType
  have hFlat := (hSettled (List.mem_map_of_mem hn)).1
  exact ⟨hFlat, fun k => (TypeSpec.flatten?_flat (k := k) s).2.2.2 hFlat⟩

end Finishes

end Root

/-- Each attribute, variable and parameter of a source that is checked, and each signature of a type,
has a type in the end, or there is one report that it has none. No other node has such a report, and
all types of the nodes of the source are flat. -/
theorem declarations_typed_or_reported {supplies : List Supply} {s s' : State}
    {space path text : Text} {r r' : Root Meta} {errors : List Diagnostic}
    (h : Root.Examined supplies s space path text r r' errors s') :
    (∀ n, r'.Infers n → r'.Answers s'.store errors n) ∧
      (∀ d ∈ errors, d.kind = .notInferable → ∃ n, d = .ofNode .notInferable n ∧ n.Inferable ∧
        (n ∈ (Node.root r').nodes → r'.Infers n)) ∧
      ∀ n ∈ (Node.root r').nodes, ∀ t, s'.store.typeOf? n.ann.id = some t →
        t.IsFlat ∧ ∀ k, (t.flatten? k).1 = none := by
  obtain ⟨found, w, -, hFound, hFinishes⟩ := h.finishes
  obtain ⟨hAnswers, hOthers⟩ := hFinishes.types hFound
  exact ⟨hAnswers, hOthers, fun n hn t ht => hFinishes.flat hn ht⟩

theorem Supply.treeless_library : ∀ supply ∈ [Supply.units, .loaders [.library]], supply.Treeless := by
  simp only [List.forall_mem_cons, List.not_mem_nil, false_implies, implies_true, and_true, Treeless,
    true_and]
  exact fun name symbol => Loader.known?_bare (by simp)

/-- Whether an attribute or variable of a source has no type, and so many reports are on it. -/
def Root.untyped (count : Nat) (r : Root Meta) (errors : List Diagnostic) (s : State) : Bool :=
  (Node.root r).nodes.any fun n =>
    match n with
    | .attribute _ => unanswered n
    | .value (.bind ..) => unanswered n
    | _ => false
where
  /-- The same, for a node. -/
  unanswered (n : Node Meta) : Bool :=
    (s.store.typeOf? n.ann.id).isNone && (errors.filter (·.isOn .notInferable n)).length = count

theorem Root.exists_of_untyped {count : Nat} {r : Root Meta} {errors : List Diagnostic} {s : State}
    (h : r.untyped count errors s = true) : ∃ n, r.Infers n ∧ s.store.typeOf? n.ann.id = none ∧
      (errors.filter (·.isOn .notInferable n)).length = count := by
  obtain ⟨n, hn, h⟩ := List.any_eq_true.1 h
  have hUnanswered (h : untyped.unanswered count errors s n = true) :
      s.store.typeOf? n.ann.id = none ∧ (errors.filter (·.isOn .notInferable n)).length = count := by
    simpa [untyped.unanswered] using h
  split at h
  · exact ⟨_, ⟨hn, trivial, by simp⟩, hUnanswered h⟩
  · exact ⟨_, ⟨hn, trivial, by simp⟩, hUnanswered h⟩
  · cases h

/-- An attribute that waits for itself has no type, and there is one report on it. -/
theorem attribute_reported_in_cycle :
    ∃ r r' errors s', Root.Examined [.units, .loaders [.library]] (.start .default) "p" "A.th"
        "class A { val y = m() m() { y } }" r r' errors s' ∧
      (∃ n, r'.Infers n ∧ s'.store.typeOf? n.ann.id = none ∧
        (errors.filter (·.isOn .notInferable n)).length = 1) ∧
        ∀ n, r'.Infers n → r'.Answers s'.store errors n := by
  obtain ⟨r, r', errors, s', hExamined, hUntyped⟩ :=
    Root.Examined.of_examines (s := .start .default) (Root.untyped 1) .empty
      (State.start_avoids .default (by simp [Config.default]) []) Supply.treeless_library
      (show Root.examines _ _ "p" "A.th" "class A { val y = m() m() { y } }" _ = true by decide +kernel)
  exact ⟨r, r', errors, s', hExamined, Root.exists_of_untyped hUntyped,
    (declarations_typed_or_reported hExamined).1⟩

/-- The order of two diagnostics is found by one comparison. -/
def Diagnostic.sortFew : List Diagnostic → List Diagnostic
  | [d, e] => dropRepeats (if e.before d then [e, d] else [d, e])
  | ds => sort ds

theorem Diagnostic.sort_eq_sortFew : sort = sortFew := by
  funext ds
  unfold sortFew
  split
  · rename_i d e
    rw [sort]
    cases h : e.before d <;> simp [List.mergeSort, h]
  · rfl

def outerUnit : SourceUnit :=
  .ofSource "p.A" "p" "S.th" "class A {                   val y = m() m() { y } }"

/-- The report on a variable is dropped for the one on an attribute of another source, which reads alike
at the same place. So there is none on it, and it has no type either. -/
theorem report_dropped_for_another_source :
    let s := (ending (Compilation.compile outerUnit) { State.start .default with units := [outerUnit] }).2
    ∃ r r' errors s', Root.Examined [.units, .loaders [.library]] s "p.A.[body]" "S.th"
        "class B { k() { m() } a() { val y = n() } n() { y() } y() { n() } }" r r' errors s' ∧
      ∃ n, r'.Infers n ∧ s'.store.typeOf? n.ann.id = none ∧
        errors.filter (·.isOn .notInferable n) = [] := by
  intro s
  have hFiles : s.files.Built := by
    have hOne : s.files.map (fun f => (f.path, f.offset, f.text)) =
        [(("S.th" : Text), 0, outerUnit.text)] := by
      decide +kernel
    obtain ⟨⟨path, offset, text⟩, hEq, hf⟩ := List.map_eq_singleton_iff.1 hOne
    simp only [Prod.mk.injEq] at hf
    obtain ⟨rfl, rfl, rfl⟩ := hf
    exact hEq ▸ .added "S.th" outerUnit.text .empty
  have hKnown : s.world.Avoids fun _ => False := by
    have hOk : (ending (Compilation.compile outerUnit)
        { State.start .default with units := [outerUnit] }).1.isOk = true := by
      decide +kernel
    cases hResult : (ending (Compilation.compile outerUnit)
        { State.start .default with units := [outerUnit] }).1 with
    | error f =>
      rw [hResult] at hOk
      cases hOk
    | ok u =>
      have hGoes : Check.Goes (Compilation.compile outerUnit) _ u s.world :=
        ⟨_, s, rfl, Prod.ext hResult rfl, rfl⟩
      exact (hGoes.leads (Compilation.compile_avoiding _ outerUnit _
        (State.start_avoids .default (by simp [Config.default]) [outerUnit]) (Nat.zero_le _))).1
  have hRun : Root.examines [.units, .loaders [.library]] s "p.A.[body]" "S.th"
      "class B { k() { m() } a() { val y = n() } n() { y() } y() { n() } }" (Root.untyped 0) = true := by
    unfold Root.examines Root.check
    rw [Diagnostic.sort_eq_sortFew]
    decide +kernel
  obtain ⟨r, r', errors, s', hExamined, hUntyped⟩ := Root.Examined.of_examines _ hFiles hKnown
    Supply.treeless_library hRun
  obtain ⟨n, hn, hType, hNone⟩ := Root.exists_of_untyped hUntyped
  exact ⟨r, r', errors, s', hExamined, n, hn, hType, List.length_eq_zero_iff.1 hNone⟩

end Assay
