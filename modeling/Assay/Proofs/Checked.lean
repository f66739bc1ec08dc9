import Mathlib
import Assay.Proofs.Inferred
import Assay.Proofs.Sorted
import Assay.Proofs.Touched

/-! The check of a source: it ends with a tree in order, in a sound world in which what belongs to
others is as it was. Its type is declared and the types that it names are seen from where they are
named, if none of them is reported; or its type was declared before. -/

namespace Assay

open Check (Leads)

variable {plain : Plain} {K : Nat → Prop} {T : Root Meta → Prop} {b w : World} {r : Root Meta}
  {first : Nat}

variable {e : Diagnostic}

theorem Scope.bindingsAt_openAll (paths : List Path) (t : Scope) (path : Path) :
    (paths.foldl (fun table p => table.openAt p) t).bindingsAt path = t.bindingsAt path := by
  induction paths generalizing t with
  | nil => rfl
  | cons p rest ih => rw [List.foldl_cons, ih, bindingsAt_openAt]

def World.openAll (w : World) (paths : List Path) : World :=
  { w with store := { w.store with
      table := paths.foldl (fun table p => table.openAt p) w.store.table } }

theorem Checking.openAll (h : Checking plain K T b r first w) (paths : List Path) :
    Checking plain K T b r first (w.openAll paths) := by
  have hEntry {path : Path} {key : Key} {n : Text} {symbol : Symbol}
      (hEntry : (w.openAll paths).store.table.Entry path key n symbol) :
      w.store.table.Entry path key n symbol := by
    unfold Scope.Entry at hEntry ⊢
    rwa [World.openAll, Scope.bindingsAt_openAll] at hEntry
  refine h.change ⟨rfl, rfl, rfl, rfl, Nat.le_refl _, fun {path key} hFree => ?_,
    fun hFilled path => by rw [World.openAll, Scope.bindingsAt_openAll]; exact hFilled path,
    fun h => .inl (hEntry h), List.suffix_refl _, .inl⟩ (fun _ _ _ _ _ _ => hEntry)
    (fun _ _ _ => rfl) (fun _ _ _ => .inl rfl) fun _ _ => rfl
  unfold Scope.Free at hFree ⊢
  rwa [World.openAll, Scope.bindingsAt_openAll] at hFree

theorem Checking.mono {T' : Root Meta → Prop} (h : Checking plain K T b r first w)
    (hT : ∀ r, T r → T' r) : Checking plain K T' b r first w :=
  { h with moves := h.moves.mono (fun _ => id) hT }

theorem Underway.mono {T' : Root Meta → Prop} (h : Underway plain K T b r first w)
    (hT : ∀ r, T r → T' r) : Underway plain K T' b r first w :=
  { h with moves := h.moves.mono (fun _ => id) hT }

theorem Root.openScopes_spec (h : Checking plain K T b r.place first w) :
    Leads r.openScopes w (Failing plain K b) fun r' w' => r' = r.place ∧
      Checking plain K T b r' first w' ∧ w'.store.tops = w.store.tops ∧
        w'.store.refs = w.store.refs := by
  refine .traced ?_
  refine .bind (P := fun _ w' => w' = w.openAll r.scopes) (.modifyStore rfl) fun _ w₁ hw₁ => ?_
  subst hw₁
  exact .pure ⟨rfl, h.openAll _, rfl, rfl⟩

theorem TopLevel.id_place (t : TopLevel Meta) (body : Path) : (t.place body).ann.id = t.ann.id := by
  cases t <;> rfl

theorem TopLevel.name_place (t : TopLevel Meta) (body : Path) : (t.place body).name = t.name := by
  cases t <;> rfl

theorem Root.fullName_place (r : Root Meta) : r.place.fullName = r.fullName := by
  simp only [Root.fullName, Root.place, TopLevel.name_place]

theorem Root.scopePath_place (r : Root Meta) : r.place.scopePath = r.scopePath := by
  simp only [Root.scopePath, Root.place, TopLevel.name_place]

theorem Checking.of_read {low : Nat} (hSound : Sound plain b)
    (hSpan : Span low b.store.next (Node.root r).ids) (hWorded : (Node.root r).All Node.Worded)
    (hSpaced : plain → Text.Spaced r.space)
    (hTops : ∀ d ∈ b.store.tops, d.id < low ∧ d.top.ann.id < low)
    (hLogged : ∀ {i symbols}, (i, symbols) ∈ b.store.refs → i < low)
    (hFlying : ∀ u ∈ b.units, u.status = .compiling → ∃ r', u.root = some r' ∧
      ((∃ d ∈ b.store.tops, d.id = r'.top.ann.id ∧ d.name = r'.fullName) ∨ r' = r))
    (hUnits : ∀ u ∈ b.units, ∀ r', u.root = some r' →
      r' = r ∧ u.status = .compiling ∨ r'.top.ann.id < low) :
    Checking plain (· < low) (fun _ => False) b r.place r.top.ann.id b := by
  have hFit := Root.place_spec plain (K := (· < low)) (fun _ => id) hSpan hWorded
  have hTop : low ≤ r.top.ann.id := by
    have hMem : .top r.top ∈ (Node.root r).nodes :=
      Node.mem_nodes_of_child (Node.self_mem_nodes _) (by simp [Node.children])
    exact (hSpan.mem _ (List.mem_map_of_mem hMem)).1
  have hPlaced : r.place.top.ann.id = r.top.ann.id := TopLevel.id_place _ _
  refine
    { low := fun i hi => Nat.lt_of_lt_of_le hi hSpan.le
      flying := fun u hu hStatus => ?_
      absent := fun d hd => ?_
      unread := fun {i role} hi => ?_
      spaced := hSpaced
      nodup := r.ids_place ▸ hSpan.nodup
      sound := hSound
      moves := .refl _ _ _ _
      fit := r.scopePath_place ▸ hFit
      owned := fun _ => .inl
      others := fun u hu r' hr' => ?_ }
  · obtain ⟨r', hRoot, hDeclared | rfl⟩ := hFlying u hu hStatus
    · exact ⟨r', hRoot, .inl hDeclared⟩
    · exact ⟨r', hRoot, .inr ⟨rfl, r'.fullName_place.symm⟩⟩
  · obtain ⟨hId, hTopId⟩ := hTops d hd
    exact ⟨by omega, by omega⟩
  · obtain ⟨k, hk, rfl⟩ := Node.exists_of_mem_referrals hi
    cases hRefs : b.store.refsOf? k.ann.id with
    | none => rfl
    | some symbols =>
      exact absurd (hLogged (Store.refsOf?_mem hRefs)) (hFit k hk).clear
  · obtain ⟨rfl, hStatus⟩ | hLow := hUnits u hu r' hr'
    · exact .inl ⟨rfl, r'.fullName_place.symm, hStatus⟩
    · exact .inr ⟨by omega, by omega⟩

namespace Diagnostic

theorem OfDiscovery.spares {n : Node Meta} (h : e.OfDiscovery n) : e.Spares := by
  intro _ t ht
  cases h with
  | alreadyDefined hn =>
    obtain rfl : n = .top t := Option.some.inj ht
    exact hn.elim
  | notFound | typeNotDefined => cases ht

theorem OfTypes.spares (h : e.OfTypes) : e.Spares := by
  obtain ⟨p, n, rfl, hp⟩ := h
  intro hKind
  cases p with
  | alreadyDefined => exact hp.elim
  | _ => exact nomatch hKind

theorem spares_of_fails {event : NameEvent} (h : event.Fails e) (hEvent : event.Fit plain r) :
    e.Spares := by
  intro hKind t ht
  cases event with
  | declare scope name n =>
    obtain ⟨place, rfl⟩ := h
    obtain ⟨_, _, _, _, hThis⟩ := hEvent
    rw [hThis t (Option.some.inj ht)]
    rfl
  | refer ref name =>
    obtain ⟨_, rfl⟩ := h
    exact nomatch ht

theorem exists_of_fails {event : NameEvent} (h : event.Fails e) : ∃ p n, e = .ofNode p n := by
  cases event with
  | declare scope name n =>
    obtain ⟨place, rfl⟩ := h
    exact ⟨_, _, rfl⟩
  | refer ref name =>
    obtain ⟨_, h⟩ := h
    exact ⟨_, _, h⟩

end Diagnostic

/-- What the check of a source comes to that began in the world `b`: it has declared the type of the
source, or that name was taken. -/
structure Root.Checked (plain : Plain) (K : Nat → Prop) (b : World) (r : Root Meta)
    (result : Root Meta × List Diagnostic) (w : World) : Prop where
  checking : Checking plain K (· = result.1) b result.1 r.top.ann.id w
  fullName : result.1.fullName = r.fullName
  outcome :
    (∃ d ∈ w.store.tops, d.id = r.top.ann.id ∧ d.top.ann.id = result.1.top.ann.id ∧
      d.name = result.1.fullName) ∧ (plain → result.1.Reports result.2 w.store.table) ∨
    result.1.top.ann.id = r.top.ann.id ∧ w.store.tops = b.store.tops ∧
      (plain → w.store.table.Taken result.1.fullName)

namespace Root.Checked

variable {result : Root Meta × List Diagnostic}

theorem of_iff (h : r.Checked plain K b result w) {d : Declared} (hd : d ∈ w.store.tops) :
    d.Of result.1 ↔ d.id = r.top.ann.id := by
  obtain ⟨⟨d', hd', hId, hTopId, _⟩, _⟩ | ⟨hSame, hTops, _⟩ := h.outcome
  · by_cases hEq : d = d'
    · subst hEq
      exact ⟨fun _ => hId, fun _ => .inr hTopId⟩
    · have hApart := h.checking.sound.apart.forall hd hd' hEq
      refine ⟨fun hOf => ?_, fun hFirst => absurd (hFirst.trans hId.symm) hApart.ids⟩
      exact hOf.elim (fun hOwn => absurd (hOwn.trans hTopId.symm) hApart.idTop)
        fun hOwn => absurd (hOwn.trans hTopId.symm) hApart.tops
  · obtain ⟨hNe, hNe'⟩ := h.checking.absent d (hTops ▸ hd)
    refine ⟨fun hOf => ?_, fun hFirst => absurd hFirst hNe⟩
    exact hOf.elim (fun hOwn => hOwn.trans hSame) fun hOwn => absurd (hOwn.trans hSame) hNe'

theorem named (h : r.Checked plain K b result w) {d : Declared} (hd : d ∈ w.store.tops)
    (hOf : d.Of result.1) : d.name = result.1.fullName := by
  have hFirst := (h.of_iff hd).1 hOf
  obtain ⟨⟨d', hd', hId, _, hName⟩, _⟩ | ⟨_, hTops, _⟩ := h.outcome
  · by_cases hEq : d = d'
    · exact hEq ▸ hName
    · exact absurd (hFirst.trans hId.symm) (h.checking.sound.apart.forall hd hd' hEq).ids
  · exact absurd hFirst (h.checking.absent d (hTops ▸ hd)).1

theorem declared (h : r.Checked plain K b result w) (hp : plain) :
    (∃ d ∈ w.store.tops, d.Of result.1) ∧ result.1.Reports result.2 w.store.table ∨
      (∀ d ∈ w.store.tops, ¬d.Of result.1) ∧ w.store.table.Taken result.1.fullName := by
  obtain ⟨⟨d, hd, hId, _⟩, hReports⟩ | ⟨_, hTops, hTaken⟩ := h.outcome
  · exact .inl ⟨⟨d, hd, (h.of_iff hd).2 hId⟩, hReports hp⟩
  · refine .inr ⟨fun d hd hOf => ?_, hTaken hp⟩
    exact (h.checking.absent d (hTops ▸ hd)).1 ((h.of_iff hd).1 hOf)

end Root.Checked

/-- The check of a source with a given way to discover its types. -/
def Root.checkBy (discover : Root Meta → Check (List Diagnostic)) (r : Root Meta) :
    Check (Root Meta × List Diagnostic) :=
  Check.traced ("check(" ++ r.fullName ++ ")") (·.2) do
    let r ← r.openScopes
    Check.modifyStore (·.link (.root r))
    let found ← discover r
    match (← Check.store).declaredBy? r.top with
    | none => return (r, Diagnostic.sort found)
    | some _ =>
      let r ← r.qualify
      let r ← r.flatten
      let names ← r.resolveNames
      let types ← r.infer
      return (r, Diagnostic.sort (found ++ names ++ types))

theorem Root.check_eq_checkBy (load : Load) :
    Root.check load = Root.checkBy (Root.discover load) :=
  rfl

/-- How a source is to be checked, with at most `depth` units pending. -/
def Checks (plain : Plain) (depth : Nat) (check : Root Meta → Check (Root Meta × List Diagnostic)) :
    Prop :=
  ∀ {K b r}, (b.units.filter (·.status = .pending)).length ≤ depth →
    Checking plain K (fun _ => False) b r.place r.top.ann.id b →
      Leads (check r) b (Failing plain K b) (r.Checked plain K b)

theorem Root.reports (read : Root Meta) {found names types : List Diagnostic}
    {events : List NameEvent} (hFound : ∀ e ∈ found, ∃ n, e.OfDiscovery n)
    (hNames : ∀ e ∈ names, ∃ event ∈ events, event.Fails e)
    (hEvents : ∀ event ∈ events, event.Fit plain r) (hTypes : ∀ e ∈ types, e.OfTypes)
    (hSeen : (∀ n ∈ (Node.root read).nodes, ¬∃ e ∈ found, e.Misses n) →
      (Node.root r).All (Node.Resolves w.store.table)) :
    r.Reports (Diagnostic.sort (found ++ names ++ types)) w.store.table := by
  have hAll {P : Diagnostic → Prop} (h₁ : ∀ e ∈ found, P e) (h₂ : ∀ e ∈ names, P e)
      (h₃ : ∀ e ∈ types, P e) : ∀ e ∈ found ++ names ++ types, P e :=
    List.forall_mem_append.2 ⟨List.forall_mem_append.2 ⟨h₁, h₂⟩, h₃⟩
  refine ⟨fun e he => ?_, ?_⟩
  · refine hAll (P := Diagnostic.Spares) (fun e he => ?_) (fun e he => ?_)
      (fun e he => (hTypes e he).spares) e (Diagnostic.mem_of_mem_sort he)
    · exact (hFound e he).elim fun _ hOf => hOf.spares
    · obtain ⟨event, hEvent, hFails⟩ := hNames e he
      exact Diagnostic.spares_of_fails hFails (hEvents event hEvent)
  · by_cases hMissed : ∃ n ∈ (Node.root read).nodes, ∃ e ∈ found, e.Misses n
    · obtain ⟨n, _, e, he, text, rfl⟩ := hMissed
      refine .inl (Diagnostic.exists_kind_sort (e := .ofNode (.typeNotDefined text) n)
        (List.mem_append_left _ (List.mem_append_left _ he)) (hAll (fun e he => ?_) (fun e he => ?_)
          fun e he => ?_))
      · exact (hFound e he).elim fun _ => Diagnostic.OfDiscovery.exists_problem
      · obtain ⟨event, _, hFails⟩ := hNames e he
        exact Diagnostic.exists_of_fails hFails
      · obtain ⟨p, n, hEq, _⟩ := hTypes e he
        exact ⟨p, n, hEq⟩
    · exact .inr (hSeen fun n hn hMisses => hMissed ⟨n, hn, hMisses⟩)

theorem Checking.declaredBy?_eq_none (h : Checking plain K T b r r.top.ann.id w)
    (hTops : w.store.tops = b.store.tops) : w.store.declaredBy? r.top = none := by
  rw [Store.declaredBy?, List.find?_eq_none]
  intro d hd
  simpa using h.absent d (hTops ▸ hd)

theorem Root.checkBy_spec {discover : Root Meta → Check (List Diagnostic)} {depth : Nat}
    (hDiscover : Discovers plain depth discover) : Checks plain depth (Root.checkBy discover) := by
  intro K b r hDepth h
  refine .traced ?_
  refine (Root.openScopes_spec h).bind fun r₁ w₁ ⟨hr₁, h₁, hTops, hRefs⟩ => ?_
  have hId : r.top.ann.id = r₁.top.ann.id := by
    rw [hr₁]
    exact (TopLevel.id_place _ _).symm
  have hFull : r₁.fullName = r.fullName := hr₁ ▸ r.fullName_place
  rw [hId] at h₁
  refine .bind (P := fun _ w' => w' = { w₁ with store := w₁.store.link (.root r₁) })
    (.modifyStore rfl) fun _ w₁' hw₁' => ?_
  have hLinked : w₁'.store.Linked (.root r₁) := hw₁' ▸ Store.linked_link _ h₁.nodup
  replace h₁ := hw₁' ▸ h₁.link
  replace hTops : w₁'.store.tops = b.store.tops := hw₁' ▸ hTops
  replace hRefs : w₁'.store.refs = b.store.refs := hw₁' ▸ hRefs
  refine (hDiscover hDepth h₁ hLinked hTops hRefs).bind fun found w₂ h₂ => ?_
  refine .bind (P := fun st w' => st = w₂.store ∧ w' = w₂) (.store ⟨rfl, rfl⟩)
    fun st w₃ ⟨hst, hw₃⟩ => ?_
  subst hst hw₃
  obtain ⟨h₂, hFound, hSeen⟩ | ⟨rfl, hTaken⟩ := h₂
  · obtain ⟨d, hFind, _⟩ := h₂.declaredBy?
    simp only [hFind]
    have hResolved (hp : plain) (hNone : ∀ n ∈ (Node.root r₁).nodes, ¬∃ e ∈ found, e.Misses n) :
        (Node.root r₁).All (Node.Resolves w₃.store.table) :=
      fun n hn => (hSeen n hn).resolve_left (hNone n hn) hp
    refine (Root.qualify_spec h₂ hResolved).bind fun r₂ w₄ ⟨h₄, hFull₂, hResolved₄⟩ => ?_
    refine (Root.flatten_spec h₄ hResolved₄).bind fun r₃ w₅ ⟨h₅, hFull₃, hResolved₅⟩ => ?_
    refine ((Root.resolveNames_spec h₅).gives r₃.resolveNames_quiet.gives).bind
      fun names w₆ ⟨⟨h₆, hExtends⟩, hNames⟩ => ?_
    refine ((Root.infer_spec (h₆.mono fun _ => False.elim)).and (r₃.infer_quiet w₆)).bind
      fun types w₇ ⟨⟨h₇, hTable⟩, _, hTypes⟩ => .pure ⟨?_, ?_, .inl ⟨?_, fun hp => ?_⟩⟩
    · exact hId ▸ h₇.toChecking
    · exact (hFull₃.trans hFull₂).trans hFull
    · exact hId ▸ h₇.declared
    · refine Root.reports r₁ hFound hNames (TopLevel.nameEvents_fit h₇.fit) hTypes
        fun hNone n hn => ?_
      exact (hResolved₅ hp hNone n hn).mono (hTable ▸ hExtends)
  · simp only [h₁.declaredBy?_eq_none hTops]
    exact .pure ⟨hId ▸ h₁.mono fun _ => False.elim, hFull, .inr ⟨hId.symm, hTops, hTaken⟩⟩

theorem Root.check_spec {load : Load} {depth : Nat} (hLoad : load.Meets plain depth) :
    Checks plain depth (Root.check load) :=
  Root.check_eq_checkBy load ▸ Root.checkBy_spec (Discovery.discover_spec hLoad)

end Assay
