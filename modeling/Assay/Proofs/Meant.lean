import Mathlib
import Assay.Proofs.Accounted
import Assay.Proofs.Staged

/-! How the names of a source are settled. Its events are settled one after another, those that may
point forward last. Each declares a name, gives a reference its symbols, or is reported; so all that
the references of a source come to mean is a declaration of it, or is not in its body. -/

namespace Assay

open Check (Leads Goes ending)

variable {w w' : World} {e : NameEvent} {errors : List Diagnostic} {name : Text} {n : Node Meta}

namespace NameEvent

/-- An event that is left until all names are declared: a reference that may point forward. -/
def isLate : NameEvent → Bool
  | .declare .. => false
  | .refer ref _ => ref.forward

def inOrder (events : List NameEvent) : List NameEvent :=
  events.filter (!·.isLate) ++ events.filter isLate

theorem mem_inOrder {events : List NameEvent} : e ∈ inOrder events ↔ e ∈ events := by
  rw [inOrder, List.mem_append, List.mem_filter, List.mem_filter]
  cases e.isLate <;> simp

/-- What an event comes to that is settled in a world: what is wrong with it, and the world then. -/
inductive Settles : NameEvent → World → List Diagnostic → World → Prop where
  | known {w : World} {path : Path} {name : Text} {n : Node Meta} {previous : Symbol}
    (h : w.store.table.findIn path (Name.ofText name) = .ok (some previous)) :
    Settles (.declare (some path) name n) w
      [.ofNode (.alreadyDefined name ((w.store.position? previous).map (·.location))) n] w
  | declared {w : World} {path : Path} {name : Text} {n : Node Meta}
    (h : w.store.table.findIn path (Name.ofText name) = .ok none) :
    Settles (.declare (some path) name n) w []
      (w.declare path (Name.ofText name) (.named name (some n)))
  | missing {w : World} {ref : Reference Meta} {path : Path} {name : Text}
    (hScope : ref.ann.scope = some path)
    (h : w.store.table.find path (Name.ofText name) = .ok []) :
    Settles (.refer ref name) w
      [.ofNode (if ref.forward then .notFound name else .notDefined name) (.reference ref)] w
  | found {w : World} {ref : Reference Meta} {path : Path} {name : Text} {symbols : List Symbol}
    (hScope : ref.ann.scope = some path)
    (h : w.store.table.find path (Name.ofText name) = .ok symbols) (hSome : symbols ≠ []) :
    Settles (.refer ref name) w [] { w with store := w.store.setRefs ref.ann.id symbols }

/-- Events that are settled one after another. -/
inductive SettlesEach : List NameEvent → World → List Diagnostic → World → Prop where
  | nil {w : World} : SettlesEach [] w [] w
  | cons {e : NameEvent} {rest : List NameEvent} {errors more : List Diagnostic} {w w₁ w₂ : World}
    (h : e.Settles w errors w₁) (hRest : SettlesEach rest w₁ more w₂) :
    SettlesEach (e :: rest) w (errors ++ more) w₂

theorem SettlesEach.append {es es' : List NameEvent} {errors' : List Diagnostic} {w₁ w₂ : World}
    (h : SettlesEach es w errors w₁) (h' : SettlesEach es' w₁ errors' w₂) :
    SettlesEach (es ++ es') w (errors ++ errors') w₂ := by
  induction h with
  | nil => exact h'
  | cons h _ ih =>
    rw [List.append_assoc]
    exact .cons h (ih h')

theorem SettlesEach.keep {I : World → Prop} {es : List NameEvent} (h : SettlesEach es w errors w')
    (hStep : ∀ e ∈ es, ∀ {errors w w'}, e.Settles w errors w' → I w → I w') (hw : I w) : I w' := by
  induction h with
  | nil => exact hw
  | cons h _ ih =>
    rw [List.forall_mem_cons] at hStep
    exact ih hStep.2 (hStep.1 h hw)

variable (w : World)

theorem resolve_settles {ref : Reference Meta} (hName : w.store.nameOf ref = .ok name) :
    Leads (resolve ref) w (fun _ _ => True) (Settles (.refer ref name) w) := by
  refine .bind (P := fun st w' => st = w.store ∧ w' = w) (.store ⟨rfl, rfl⟩) ?_
  rintro _ w ⟨rfl, rfl⟩
  rw [hName]
  refine .bind (P := fun text w' => text = name ∧ w' = w) (.orFault ⟨rfl, rfl⟩) ?_
  rintro name w ⟨rfl, rfl⟩
  cases hScope : ref.ann.scope with
  | none =>
    refine .bind (P := fun _ _ => False) ?_ fun _ _ => False.elim
    rw [Check.scopeOf, hScope]
    exact .throw trivial
  | some path =>
    refine .bind (P := fun path' w' => path' = path ∧ w' = w) (.scopeOf hScope ⟨rfl, rfl⟩) ?_
    rintro path w ⟨rfl, rfl⟩
    refine .bind (P := fun symbols w' => w.store.table.find path (Name.ofText name) = .ok symbols ∧
      w' = w) (.find ?_) ?_
    · cases w.store.table.find path (Name.ofText name) with
      | error f => trivial
      | ok symbols => exact ⟨rfl, rfl⟩
    rintro symbols w ⟨hFind, rfl⟩
    cases symbols with
    | nil => exact .pure (.missing hScope hFind)
    | cons symbol rest =>
      refine .bind (P := fun _ w' => w' = { w with store := w.store.setRefs ref.ann.id (symbol :: rest) })
        (.modifyStore rfl) ?_
      rintro _ _ rfl
      exact .pure (.found hScope hFind (by simp))

theorem declareName_settles (path : Path) (name : Text) (n : Node Meta) :
    Leads (declareName path name n) w (fun _ _ => True) (Settles (.declare (some path) name n) w) := by
  refine .bind (P := fun found w' => w.store.table.findIn path (Name.ofText name) = .ok found ∧
    w' = w) (.findIn ?_) ?_
  · cases w.store.table.findIn path (Name.ofText name) with
    | error f => trivial
    | ok found => exact ⟨rfl, rfl⟩
  rintro found w ⟨hFind, rfl⟩
  cases found with
  | some previous =>
    refine .bind (.bind (P := fun st w' => st = w.store ∧ w' = w) (.store ⟨rfl, rfl⟩)
      (Q := fun d w' => d = .ofNode (.alreadyDefined name
        ((w.store.position? previous).map (·.location))) n ∧ w' = w) ?_) ?_
    · rintro _ w ⟨rfl, rfl⟩
      exact .pure ⟨rfl, rfl⟩
    · rintro _ w ⟨rfl, rfl⟩
      exact .pure (.known hFind)
  | none =>
    refine .bind (P := fun _ w' => w' = w.declare path (Name.ofText name) (.named name (some n)))
      (.declare (fun _ _ => trivial) fun _ => rfl) ?_
    rintro _ _ rfl
    refine .bind (P := fun _ w' => w' = w.declare path (Name.ofText name) (.named name (some n)))
      (.log rfl) ?_
    rintro _ _ rfl
    exact .pure (.declared hFind)

/-- The references among some events have the names that these give them. -/
def Knows (events : List NameEvent) (w : World) : Prop :=
  ∀ {ref name}, .refer ref name ∈ events → w.store.nameOf ref = .ok name

theorem settle_settles {events : List NameEvent} (hw : Knows events w) (hMem : e ∈ events)
    (he : e.isLate = false) :
    Leads e.settle w (fun _ _ => True) (e.Settles w) := by
  cases e with
  | declare scope name n =>
    cases scope with
    | none => exact .throw trivial
    | some path => exact declareName_settles w path name n
  | refer ref name =>
    rw [settle, if_neg (by simpa [isLate] using he)]
    exact resolve_settles w (hw hMem)

theorem settleLate_settles {events : List NameEvent} (hw : Knows events w) (hMem : e ∈ events)
    (he : e.isLate = true) :
    Leads e.settleLate w (fun _ _ => True) (e.Settles w) := by
  cases e with
  | declare => exact nomatch he
  | refer ref name =>
    rw [settleLate, if_pos (by simpa [isLate] using he)]
    exact resolve_settles w (hw hMem)

theorem Knows.settles {events : List NameEvent} {w : World} (hw : Knows events w)
    (h : e.Settles w errors w') : Knows events w' := by
  cases h <;> exact hw

theorem collect_settles {step : NameEvent → Check (List Diagnostic)} (settled : NameEvent → Bool)
    {events : List NameEvent} (hStep : ∀ e ∈ events, ∀ w, Knows events w → settled e = true →
      Leads (step e) w (fun _ _ => True) (e.Settles w))
    (hSkip : ∀ e, settled e = false → step e = pure []) (hw : Knows events w) :
    Leads (Check.collect step events) w (fun _ _ => True) fun errors w' =>
      SettlesEach (events.filter settled) w errors w' ∧ Knows events w' := by
  have hEach (rest : List NameEvent) (hRest : rest ⊆ events) (w : World) (hw : Knows events w) :
      Leads (Check.collect step rest) w (fun _ _ => True) fun errors w' =>
        SettlesEach (rest.filter settled) w errors w' ∧ Knows events w' := by
    induction rest generalizing w with
    | nil => exact .pure ⟨.nil, hw⟩
    | cons e rest ih =>
      rw [List.cons_subset] at hRest
      rw [Check.collect]
      cases he : settled e with
      | true =>
        rw [List.filter_cons_of_pos he]
        refine (hStep e hRest.1 w hw he).bind fun errors w₁ h₁ => ?_
        refine (ih hRest.2 w₁ (hw.settles h₁)).bind fun more w₂ h₂ => ?_
        exact .pure ⟨.cons h₁ h₂.1, h₂.2⟩
      | false =>
        rw [List.filter_cons_of_neg (by simp [he]), hSkip e he]
        exact (ih hRest.2 w hw).bind fun more w₁ h₁ => .pure h₁
  exact hEach events (List.Subset.refl _) w hw

end NameEvent

open NameEvent (Settles SettlesEach)

theorem Root.resolveNames_settles {r : Root Meta} {w : World} (hLinked : w.store.Linked (.root r)) :
    Leads r.resolveNames w (fun _ _ => True)
      (SettlesEach (NameEvent.inOrder r.top.nameEvents) w) := by
  refine .traced ?_
  refine (NameEvent.collect_settles w (!·.isLate) (fun e hMem w hw he => ?_) (fun e he => ?_)
    fun he => hLinked.nameOf he).bind ?_
  · exact NameEvent.settle_settles w hw hMem (by simpa using he)
  · cases e with
    | declare => cases he
    | refer ref name =>
      rw [NameEvent.settle, if_pos (by simpa [NameEvent.isLate] using he)]
  rintro errors w₁ ⟨h₁, hw₁⟩
  refine (NameEvent.collect_settles w₁ NameEvent.isLate (fun e hMem w hw he => ?_)
    (fun e he => ?_) hw₁).bind fun late w₂ h₂ => .pure (h₁.append h₂.1)
  · exact NameEvent.settleLate_settles w hw hMem he
  · cases e with
    | declare => rfl
    | refer ref name =>
      rw [NameEvent.settleLate, if_neg (by simpa [NameEvent.isLate] using he)]

/-- A diagnostic of discovery: it is about neither references nor the types of declarations. -/
def Diagnostic.Discovered (r : Root Meta) (e : Diagnostic) : Prop :=
  ∃ problem n, e = .ofNode problem n ∧ problem ≠ .notInferable ∧ (∀ name, problem ≠ .notDefined name) ∧
    ∀ name, problem = .notFound name → n ∈ (Node.root r).nodes ∧ ∃ u, n = .use u

namespace Root

variable {r : Root Meta}

theorem declares_of_event {scope : Option Path} (h : .declare scope name n ∈ r.top.nameEvents) :
    r.Declares n ∨ ∃ t, n = .top t := by
  have hTop : Node.top r.top ∈ (Node.root r).nodes := Node.mem_nodes_child (by simp [Node.children])
  have hNode (h : .declare scope name n ∈ (Node.top r.top).events) :
      r.Declares n ∨ ∃ t, n = .top t := by
    obtain ⟨k, hk, he⟩ := List.mem_filterMap.1 h
    have hMem := Node.nodes_subset hTop hk
    unfold Node.event? at he
    split at he <;> simp only [Option.some.injEq, reduceCtorEq, Param.nameEvent,
      NameEvent.declare.injEq] at he <;> obtain ⟨-, -, rfl⟩ := he
    · exact .inl (.inr ⟨hMem, trivial⟩)
    · exact .inl (.inl (mem_units hMem (.inl ⟨_, rfl⟩)))
    · exact .inl (.inl (mem_units hMem (.inr ⟨_, rfl⟩)))
    · exact .inr ⟨_, rfl⟩
    · exact .inl (.inr ⟨hMem, trivial⟩)
  cases hKind : r.top with
  | ofClass d =>
    rw [hKind] at h hNode
    exact hNode (d.nameEvents_perm.mem_iff.1 h)
  | ofType d =>
    rw [hKind] at h hNode
    obtain h | h := List.mem_append.1 (d.nameEvents_perm.mem_iff.1 h)
    · obtain ⟨s, hs, hEq⟩ := List.mem_map.1 h
      cases hEq
      refine .inl (.inl ?_)
      rw [units, hKind]
      exact List.mem_map_of_mem hs
    · exact hNode h

theorem node_of_event (h : e ∈ r.top.nameEvents) : e.node ∈ (Node.root r).nodes :=
  Node.nodes_subset (Node.mem_nodes_child (by simp [Node.children]))
    (TopLevel.node_of_mem_nameEvents h)

theorem inner_of_refer {ref : Reference Meta} (h : .refer ref name ∈ r.top.nameEvents) :
    r.Inner ref.ann.id :=
  ⟨.reference ref, node_of_event h, trivial, rfl⟩

theorem target_of_event (hNodup : (Node.root r).ids.Nodup) {scope : Option Path}
    (h : .declare scope name n ∈ r.top.nameEvents) : r.Target n := by
  obtain hDeclares | ⟨t, rfl⟩ := declares_of_event h
  · exact .inr hDeclares
  · exact .inl (.of_isType trivial (Untouched.not_inner hNodup (node_of_event h) id))

/-- A store that is fit for the types of a source to be found: none of them is known, and all that
references mean has to do with it. -/
structure Apt (r : Root Meta) (st : Store) : Prop where
  table : ∀ {path key name symbol n}, st.table.Entry path key name symbol →
    symbol.node? = some n → r.Target n
  refs : ∀ {i symbols symbol n}, st.refsOf? i = some symbols → symbol ∈ symbols →
    symbol.node? = some n → r.Target n ∧ (¬r.Inner i → n.Within (¬r.Inner ·))
  types : ∀ i, r.Inner i → st.typeOf? i = none
  tops : ∀ d ∈ st.tops, ¬r.Inner d.top.ann.id

theorem Untouched.apt (h : r.Untouched w) : r.Apt w.store where
  table hEntry hn := .inl ((h.avoids.within.table hEntry _ hn).mono fun _ hi => hi.2)
  refs hRefs hs hn := by
    have hWithin := ((h.avoids.within.refs hRefs).2 _ hs _ hn).mono fun _ hi => hi.2
    exact ⟨.inl hWithin, fun _ => hWithin⟩
  types i hi := by
    cases hType : w.store.typeOf? i with
    | none => rfl
    | some t => exact absurd hi (h.avoids.within.types hType).2
  tops d hd := (h.avoids.within.tops d hd).2

theorem Apt.settles (hNodup : (Node.root r).ids.Nodup) (he : e ∈ r.top.nameEvents)
    (h : e.Settles w errors w') (hw : r.Apt w.store) : r.Apt w'.store := by
  cases h with
  | known | missing => exact hw
  | declared =>
    refine ⟨fun hEntry hn => ?_, hw.refs, hw.types, hw.tops⟩
    obtain hOld | ⟨_, _, _, _, rfl⟩ := Scope.entry_of_declare hEntry
    · exact hw.table hOld hn
    · exact Option.some.inj hn ▸ target_of_event hNodup he
  | @found _ ref path name symbols _ hFind _ =>
    refine ⟨hw.table, fun {i symbols' symbol n} hRefs hs hn => ?_, hw.types, hw.tops⟩
    by_cases hi : i = ref.ann.id
    · subst hi
      rw [Store.refsOf?_setRefs_self] at hRefs
      obtain rfl := Option.some.inj hRefs
      obtain ⟨_, _, _, _, _, hEntry⟩ := Scope.entry_of_mem_find hFind hs
      exact ⟨hw.table hEntry hn, fun hNot => absurd (inner_of_refer he) hNot⟩
    · rw [Store.refsOf?_setRefs_of_ne _ _ hi] at hRefs
      exact hw.refs hRefs hs hn

theorem Apt.settlesEach (hNodup : (Node.root r).ids.Nodup)
    (h : SettlesEach (NameEvent.inOrder r.top.nameEvents) w errors w') (hw : r.Apt w.store) :
    r.Apt w'.store :=
  h.keep (I := fun w => r.Apt w.store)
    (fun _ he _ _ _ hSettles => Apt.settles hNodup (NameEvent.mem_inOrder.1 he) hSettles) hw

namespace Apt

variable {st : Store}

open Infer (Stage)

theorem target (h : r.Apt st) {i : Nat} {symbols : List Symbol} {symbol : Symbol}
    (hRefs : st.refsOf? i = some symbols) (hs : symbol ∈ symbols) (hn : st.decl? symbol = some n) :
    r.Target n ∧ (¬r.Inner i → n.Within (¬r.Inner ·)) := by
  cases symbol with
  | type name origin =>
    cases origin with
    | declared id =>
      obtain ⟨d, hd, rfl⟩ := Option.map_eq_some_iff.1 hn
      have hWithin : (Node.top d.top).Within (¬r.Inner ·) :=
        .of_isType trivial (h.tops d (List.mem_of_find?_eq_some hd))
      exact ⟨.inl hWithin, fun _ => hWithin⟩
    | _ => exact h.refs hRefs hs hn
  | named | «alias» => exact h.refs hRefs hs hn
  | _ => exact nomatch hn

theorem begin_later (st : Store) (r : Root Meta) :
    Stage.Later ⟨.start, st⟩ (Stage.begin ⟨.start, st⟩ r) :=
  (Infer.Stage.begin_steps (P := fun _ => True) (Q := fun _ => True) ⟨.start, st⟩ r trivial).later

theorem begin_progress (st : Store) (r : Root Meta) : ∃ done, (∀ i ∈ done, i = r.top.ann.id) ∧
    (Stage.begin ⟨.start, st⟩ r).progress = ⟨done, [], [], []⟩ := by
  unfold Stage.begin
  cases hTop : r.top with
  | ofType d => exact ⟨[], by simp, rfl⟩
  | ofClass d => exact ⟨[d.ann.id], by simp [TopLevel.ann], rfl⟩

theorem fair (h : r.Apt st) : (Stage.begin ⟨.start, st⟩ r).Fair r := by
  refine ⟨(begin_later st r).targets fun i symbols hRefs symbol hs n hn => h.target hRefs hs hn, ?_⟩
  obtain ⟨done, -, hEq⟩ := begin_progress st r
  simp [hEq]

theorem blank (h : r.Apt st) (hNodup : (Node.root r).ids.Nodup) {i : Nat} (hi : r.Inner i) :
    (Stage.begin ⟨.start, st⟩ r).Blank i ∧ i ∉ (Stage.begin ⟨.start, st⟩ r).progress.done := by
  have hNe : i ≠ r.top.ann.id := by
    rintro rfl
    exact Untouched.top_not_inner hNodup hi
  have hType : (Stage.begin ⟨.start, st⟩ r).store.typeOf? i = st.typeOf? i := by
    unfold Stage.begin
    cases hTop : r.top with
    | ofType d => rfl
    | ofClass d =>
      rw [hTop] at hNe
      exact Store.typeOf?_setType_of_ne _ _ hNe
  obtain ⟨done, hDone, hEq⟩ := begin_progress st r
  refine ⟨⟨hType.trans (h.types i hi), ?_, ?_⟩, ?_⟩
  · simp [hEq]
  · simp [Stage.errorsOn, hEq]
  · rw [hEq]
    exact fun hi => hNe (hDone i hi)

end Apt

theorem Untouched.sane (h : r.Untouched w) : r.Sane := by
  refine ⟨h.grounded.nodup, h.shapely.formed.mono fun n hn => ?_⟩
  cases n with
  | method m => exact hn
  | value v =>
    cases v with
    | function => exact hn
    | _ => trivial
  | _ => trivial

/-- How a check of a source ends, from a table on and after what discovery reports: nothing is known of
the body of the source, its names are settled, and its types are found on the way through it. -/
inductive Finishes (t : Scope) (found : List Diagnostic) (r : Root Meta) :
    List Diagnostic → World → Prop where
  | mk {w w₁ w₂ : World} {names : List Diagnostic} {p : Infer.Stage} (hUntouched : r.Untouched w)
    (hTable : w.store.table = t)
    (hNames : SettlesEach (NameEvent.inOrder r.top.nameEvents) w names w₁)
    (hTour : Infer.Tour r (Infer.Stage.begin ⟨.start, w₁.store⟩ r) p)
    (hTypes : r.Settles p.store w₂.store) :
    Finishes t found r (Diagnostic.sort (found ++ names ++ p.progress.errors)) w₂

theorem Staged.finishes {load : Load} {r' : Root Meta} (hLoad : load.Avoiding)
    (hLasts : load.Keeps World.Lasts)
    (hPrepared : r.place.Untouched (w.prepared r)) (h : r.Staged load w r' errors w') :
    ∃ found w₁, Goes (r.place.discover load) (w.prepared r) found w₁ ∧
      (∀ e ∈ found, e.Discovered r') ∧ r'.Finishes w₁.store.table found errors w' := by
  obtain ⟨hFound, -, hQualify, hFlatten, hNames, hTypes⟩ := h
  rename_i r₁ found names types w₁ w₂ w₃ w₄
  have h₁ := hFound.leads (hPrepared.discover hLoad)
  have h₂ := hQualify.leads h₁.qualify
  have h₃ := hFlatten.leads h₂.untouched.flatten
  have hTied₀ : r.place.Tied 0 (w.prepared r) (w.prepared r) :=
    ⟨⟨Nat.zero_le _, hPrepared.grounded.nodup, fun i hi => ⟨Nat.zero_le _, hPrepared.grounded.below i hi⟩⟩,
      Store.linked_link _ hPrepared.grounded.nodup, Nat.le_refl _, fun i _ => rfl⟩
  have hTied₁ := hTied₀.lasts (hFound.leads (Root.discover_lasts hLasts r.place _))
  have hTied₃ := hFlatten.leads (Root.flatten_tied (hQualify.leads (Root.qualify_tied hTied₁)))
  have hSettles := hNames.leads (Root.resolveNames_settles hTied₃.linked)
  have hApt := h₃.untouched.apt.settlesEach h₃.untouched.grounded.nodup hSettles
  obtain ⟨-, p, hRuns, rfl, hSettled⟩ := hTypes.leads (r'.infer_follows w₄)
  have hNodup := h₃.untouched.grounded.nodup
  have hTour := hRuns.tour h₃.untouched.sane hApt.fair (by
    obtain ⟨done, -, hEq⟩ := Apt.begin_progress w₄.store r'
    rw [hEq]) fun u hu => (hApt.blank hNodup (Sane.inner_unit hu)).2
  refine ⟨found, w₁, hFound, fun e he => ?_, ?_⟩
  · obtain ⟨place, rfl⟩ | ⟨n, hn, hOf⟩ := hFound.leads (r.place.discover_gives _) e he
    · exact ⟨_, _, rfl, by simp, by simp, by simp⟩
    · cases hOf with
      | alreadyDefined | typeNotDefined => exact ⟨_, _, rfl, by simp, by simp, by simp⟩
      | @notFound name u =>
        exact ⟨_, _, rfl, by simp, by simp, fun _ _ => ⟨h₃.uses u (h₂.uses u hn), u, rfl⟩⟩
  · exact .mk h₃.untouched (h₃.table.trans h₂.table) hSettles hTour hSettled

end Root

def State.reading (s : State) (space path text : Text) : State :=
  let (files, _, next) := Root.read s.files space path text s.store.next
  { s with files, store := { s.store with next } }

namespace Root

/-- A source is read in a state and then checked, with types from `supplies`. All nodes that the state
knows have numbers that were given out, no supply gives trees, and the check is not stopped because the
type is declared elsewhere. -/
structure Examined (supplies : List Supply) (s : State) (space path text : Text) (r r' : Root Meta)
    (errors : List Diagnostic) (s' : State) : Prop where
  files : s.files.Built
  known : s.world.Avoids fun _ => False
  supplied : ∀ supply ∈ supplies, supply.Treeless
  read : (Root.read s.files space path text s.store.next).2.1 = .ok r
  checked : ending (r.check (Supply.chain supplies)) (s.reading space path text) =
    (.ok (r', errors), s')
  declared : (s'.store.declaredBy? r'.top).isSome

/-- Whether a source can be read in a state and checked there, with a result that satisfies `q`. -/
def examines (supplies : List Supply) (s : State) (space path text : Text)
    (q : Root Meta → List Diagnostic → State → Bool) : Bool :=
  match (Root.read s.files space path text s.store.next).2.1 with
  | .ok r =>
    match ending (r.check (Supply.chain supplies)) (s.reading space path text) with
    | (.ok (r', errors), s') => (s'.store.declaredBy? r'.top).isSome && q r' errors s'
    | _ => false
  | .error _ => false

namespace Examined

variable {supplies : List Supply} {s s' : State} {space path text : Text} {r r' : Root Meta}
  {errors : List Diagnostic}

theorem of_examines (q : Root Meta → List Diagnostic → State → Bool) (hFiles : s.files.Built)
    (hKnown : s.world.Avoids fun _ => False) (hSupplies : ∀ supply ∈ supplies, supply.Treeless)
    (h : examines supplies s space path text q = true) :
    ∃ r r' errors s', Examined supplies s space path text r r' errors s' ∧ q r' errors s' = true := by
  unfold examines at h
  split at h
  · rename_i r hRead
    split at h
    · rename_i r' errors s' hCheck
      obtain ⟨hDeclared, hq⟩ := Bool.and_eq_true_iff.1 h
      exact ⟨r, r', errors, s', ⟨hFiles, hKnown, hSupplies, hRead, hCheck, hDeclared⟩, hq⟩
    · cases h
  · cases h

theorem finishes (h : Examined supplies s space path text r r' errors s') : ∃ found w,
    Goes (r.place.discover (Supply.chain supplies)) ((s.reading space path text).world.prepared r)
      found w ∧ (∀ e ∈ found, e.Discovered r') ∧ r'.Finishes w.store.table found errors s'.world := by
  obtain ⟨hFiles, hKnown, hSupplies, hRead, hCheck, hDeclared⟩ := h
  have hEnd := r.check_staged (Supply.chain supplies) _ (s.reading space path text) rfl
  rw [hCheck] at hEnd
  obtain hStaged | hNone := hEnd
  · have hResult : Root.read s.files space path text s.store.next =
        ((Root.read s.files space path text s.store.next).1, .ok r,
          (Root.read s.files space path text s.store.next).2.2) :=
      Prod.ext rfl (Prod.ext hRead rfl)
    exact hStaged.finishes (Supply.chain_avoiding hSupplies) (Supply.chain_keeps supplies)
      (.of_read hFiles hKnown hResult)
  · have hNone : s'.store.declaredBy? r'.top = none := hNone
    rw [hNone] at hDeclared
    cases hDeclared

end Examined

end Root

theorem Loader.known?_bare {l : Loader} {name : Name} {symbol : Symbol}
    (hl : ∀ label known, l = .listed label known → ∀ entry ∈ known, entry.2.node? = none)
    (h : l.known? name = some symbol) : symbol.node? = none := by
  cases l with
  | library =>
    obtain ⟨-, hEq⟩ := Option.ite_none_right_eq_some.1 h
    exact Option.some.inj hEq ▸ rfl
  | host classes interfaces =>
    rw [known?] at h
    split at h
    · exact Option.some.inj h ▸ rfl
    · obtain ⟨-, hEq⟩ := Option.ite_none_right_eq_some.1 h
      exact Option.some.inj hEq ▸ rfl
  | listed label known =>
    obtain ⟨l₁, l₂, rfl, -⟩ := List.lookup_eq_some_iff.1 h
    exact hl label _ rfl (name.full, symbol) (by simp)

theorem State.start_avoids (config : Config) (h : ∀ l ∈ config.loaders, ∀ label known,
    l = .listed label known → ∀ entry ∈ known, entry.2.node? = none) (units : List SourceUnit) :
    World.Avoids (fun _ => False) (State.world { State.start config with units }) := by
  refine ⟨fun _ => False.elim, ⟨fun hEntry => ?_, fun hRefs => ?_, fun hType => ?_, fun d hd => ?_⟩,
    fun l hl _ _ hKnown => Loader.known?_bare (h l hl) hKnown⟩
  · obtain ⟨_, hb, _⟩ := hEntry
    have hEmpty := Scope.bindingsAt_empty [] _ ▸ hb
    cases hEmpty
  · cases hRefs
  · cases hType
  · cases hd

end Assay
