import Mathlib
import Assay.Proofs.Reported
import Assay.Proofs.Underway

/-! Discovery keeps the world in order: it declares the type of a source, and then what the source
brings in and names, each in the scope of the source, in its body or in a namespace. The types that
it names are then seen from where they are named, but for those that it reports. -/

namespace Assay

open Check (Leads)

variable {plain : Plain} {K : Nat → Prop} {T : Root Meta → Prop} {b w w' : World} {r : Root Meta}
  {first : Nat}

variable {name : Name} {symbol : Symbol} {space text : Text} {key : Key}

namespace Scope

variable {t : Scope} {path : Path} {text : Text}

theorem seen_of_find {rest : List Symbol} (hText : Text.isDotted text)
    (h : t.find path (Name.ofText text) = .ok (symbol :: rest)) : t.Seen path text := by
  obtain ⟨q, key, n, hSees, hKey, hEntry⟩ := entry_of_mem_find h List.mem_cons_self
  rw [(Name.dotted_ofText hText).key] at hKey
  obtain rfl := Except.ok.inj hKey
  exact ⟨q, hSees, hEntry.not_free⟩

theorem Seen.find_ne_nil (h : t.Seen path text) (hText : Text.isDotted text) :
    t.find path (Name.ofText text) ≠ .ok [] := by
  obtain ⟨q, hSees, hTaken⟩ := h
  exact fun hFind => hTaken (free_of_find_nil hFind (Name.dotted_ofText hText).key hSees)

theorem taken_iff_seen : t.Taken text ↔ t.Seen [] text := by
  simp [Taken, Seen, sees_root]

theorem Taken.seen (h : t.Taken text) (path : Path) : t.Seen path text := by
  obtain ⟨q, hSees, hTaken⟩ := taken_iff_seen.1 h
  refine ⟨q, ?_, hTaken⟩
  unfold Sees at hSees ⊢
  split
  · rwa [if_pos ‹_›] at hSees
  · rw [if_neg ‹_›] at hSees
    exact hSees.trans List.nil_prefix

theorem Seen.taken (h : t.Seen path text) (hText : (Name.ofText text).isQualified) :
    t.Taken text := by
  obtain ⟨q, hSees, hTaken⟩ := h
  rw [Sees, if_pos hText] at hSees
  rwa [Taken, home, if_pos hText, ← hSees]

end Scope

/-- A diagnostic says that the type that a node names is not defined. -/
def Diagnostic.Misses (n : Node Meta) (e : Diagnostic) : Prop :=
  ∃ text, e = .ofNode (.typeNotDefined text) n

def World.declareTop (w : World) (d : Declared) : World :=
  let declared := w.declare [] (Name.ofText d.name) d.symbol
  { declared with store := declared.store.addTop d }

section DeclareTop

variable {d : Declared}

theorem World.grows_declareTop (w : World) (d : Declared) : w.Grows (w.declareTop d) where
  next := Nat.le_refl _
  tops d' hd' := ⟨d', List.mem_append_left _ hd', rfl, rfl⟩
  taken := Scope.free_of_declare
  trees u hu r hr := ⟨u, hu, rfl, r, hr, rfl⟩

theorem Declared.symbol_fit (hDotted : plain → Text.isDotted d.name)
    (hKey : (Name.ofText d.name).key = .ok key) :
    d.symbol.Fit plain (w.declareTop d) (Scope.home [] (Name.ofText d.name)) key where
  declares _ hNode := nomatch hNode
  keyed _ hFull := Option.some.inj hFull ▸ ⟨key, hKey⟩
  origin name id hType := by
    obtain ⟨rfl, hOrigin⟩ := Symbol.type.inj hType
    obtain rfl := Origin.declared.inj hOrigin
    exact ⟨d, List.mem_append_right _ (List.mem_singleton_self _), rfl, rfl⟩
  dotted hp _ hFull := Option.some.inj hFull ▸ hDotted hp
  hosted _ _ hNode := nomatch hNode
  arity _ _ _ _ hNode := nomatch hNode
  inside _ hValue := hValue.elim
  known hp full hFull := by
    obtain rfl : d.name = full := Option.some.inj hFull
    exact .inl <| Scope.not_free_declare (Name.dotted_ofText (hDotted hp)).key
  aliased _ _ _ _ hAlias := nomatch hAlias
  loaded _ _ hLoaded := nomatch hLoaded
  declared hp name id hType := by
    obtain ⟨rfl, hOrigin⟩ := Symbol.type.inj hType
    obtain rfl := Origin.declared.inj hOrigin
    rw [(Name.dotted_ofText (hDotted hp)).key] at hKey
    exact ⟨d, List.mem_append_right _ (List.mem_singleton_self _), rfl, rfl,
      .inl ⟨rfl, (Except.ok.inj hKey).symm⟩⟩

theorem Sound.declareTop (h : Sound plain w) (hId : d.id < w.store.next)
    (hTop : (Node.top d.top).Below w.store.next)
    (hTree : (Node.top d.top).All fun n => n.label.Keyed ∧ n.ann.scope.isSome)
    (hKeyed : d.name.Keyed) (hDotted : plain → Text.isDotted d.name)
    (hApart : ∀ d' ∈ w.store.tops, d'.Apart d) (hName : ∀ d' ∈ w.store.tops, d'.name ≠ d.name)
    (hUnits : plain → ∀ u ∈ w.units, ∀ r, u.root = some r → d.Of r →
      d.name = r.fullName ∧ u.status ≠ .compiled) :
    Sound plain (w.declareTop d) where
  names := h.names
  spaces := h.spaces
  loaders := h.loaders
  given := h.given
  filled := h.filled.declare
  table hEntry := by
    obtain hOld | ⟨_, rfl, hKey, _, rfl⟩ := Scope.entry_of_declare hEntry
    · exact (h.table hOld).mono (w.grows_declareTop d)
    · exact d.symbol_fit hDotted hKey
  logged := h.logged
  refs := h.refs
  tops d' hd' := by
    obtain hd' | hd' := List.mem_append.1 hd'
    · exact (h.tops d' hd').mono (Nat.le_refl _) Scope.free_of_declare
    · rw [List.mem_singleton.1 hd']
      obtain ⟨key, hKey⟩ := hKeyed
      exact ⟨hId, hTop, hTree, hDotted, key, hKey, Scope.not_free_declare hKey⟩
  apart := List.pairwise_append.2 ⟨h.apart, List.pairwise_singleton _ _,
    fun d' hd' _ hd => List.mem_singleton.1 hd ▸ hApart d' hd'⟩
  topNames := by
    change ((w.store.tops ++ [d]).map (·.name)).Nodup
    rw [List.map_append, List.nodup_append]
    refine ⟨h.topNames, List.nodup_singleton _, ?_⟩
    simpa using hName
  roots := h.roots
  unread := h.unread
  named hp u hu r hr d' hd' hOf := by
    obtain hd' | hd' := List.mem_append.1 hd'
    · exact h.named hp u hu r hr d' hd' hOf
    · rw [List.mem_singleton.1 hd'] at hOf ⊢
      exact (hUnits hp u hu r hr hOf).1
  outcomes hp u hu hStatus := by
    refine (h.outcomes hp u hu hStatus).mono (fun r hr => ?_) Scope.free_of_declare
    have hNot : ¬d.Of r := fun hOf => (hUnits hp u hu r hr hOf).2 hStatus
    change (∃ d' ∈ w.store.tops ++ [d], d'.Of r) ↔ _
    simp [hNot]

theorem Moves.declareTop (h : Moves plain K T b w) (hClear : ¬K d.id ∧ ¬K d.top.ann.id)
    (hAway : plain → ¬b.store.Hosted (Scope.home [] (Name.ofText d.name))) :
    Moves plain K T b (w.declareTop d) where
  next := h.next
  config := h.config
  tops := by
    obtain ⟨new, hNew, hNewClear⟩ := h.tops
    refine ⟨new ++ [d], ?_, fun d' hd' => ?_⟩
    · change w.store.tops ++ [d] = _
      rw [hNew, List.append_assoc]
    · obtain hd' | hd' := List.mem_append.1 hd'
      · exact hNewClear d' hd'
      · exact List.mem_singleton.1 hd' ▸ hClear
  taken hFree := h.taken (Scope.free_of_declare hFree)
  bodies hp _ _ _ _ hHosted hEntry := by
    obtain hOld | ⟨_, rfl, _⟩ := Scope.entry_of_declare hEntry
    · exact h.bodies hp hHosted hOld
    · exact absurd hHosted (hAway hp)
  log := h.log
  links := h.links
  refs := h.refs
  types hp i hi := (h.types hp i hi).imp_right fun hAssigns =>
    hAssigns.keep (fun _ hu _ => hu) (List.prefix_append _ _) (List.suffix_refl _)
  units := h.units
  files := h.files

end DeclareTop

theorem Checking.declare_failing (h : Checking plain K T b r first w) {f : Fault}
    (hKey : name.key = .error f) (hName : plain → ∃ key, name.key = .ok key) (path : Path)
    (symbol : Symbol) : Failing plain K b f (w.declare path name symbol) := by
  have hEntry {q : Path} {key : Key} {n : Text} {other : Symbol}
      (hEntry : (w.declare path name symbol).store.table.Entry q key n other) :
      w.store.table.Entry q key n other :=
    (Scope.entry_of_declare hEntry).resolve_right fun ⟨_, _, hOk, _⟩ => by simp [hKey] at hOk
  have hAfter : Checking plain K T b r first (w.declare path name symbol) :=
    h.change ⟨rfl, rfl, rfl, rfl, Nat.le_refl _, Scope.free_of_declare, .declare,
      fun hNew => .inl (hEntry hNew), List.suffix_refl _, .inl⟩ (fun _ _ _ _ _ _ => hEntry)
      (fun _ _ _ => rfl) (fun _ _ _ => .inl rfl) fun _ _ => rfl
  exact hAfter.failing hKey hName

/-- What holds while types are discovered: the body has no names of values yet. -/
structure Discovering (plain : Plain) (K : Nat → Prop) (T : Root Meta → Prop) (b : World)
    (r : Root Meta) (first : Nat) (w : World) : Prop extends Underway plain K T b r first w where
  unnamed : plain → ∀ {path key n symbol}, InBody r.scopePath path →
    w.store.table.Entry path key n symbol → ¬symbol.IsValue

namespace Discovering

theorem declare {path : Path} (h : Discovering plain K T b r first w)
    (hAfter : Underway plain K T b r first (w.declare path name symbol))
    (hSymbol : plain → ¬symbol.IsValue) :
    Discovering plain K T b r first (w.declare path name symbol) :=
  { hAfter with
    unnamed := fun hp _ _ _ _ hBody hEntry => by
      obtain hOld | ⟨_, _, _, _, rfl⟩ := Scope.entry_of_declare hEntry
      · exact h.unnamed hp hBody hOld
      · exact hSymbol hp }

theorem load (h : Discovering plain K T b r first w) (hLoad : Advances plain w w') :
    Discovering plain K T b r first w' :=
  { h.toUnderway.load hLoad with
    unnamed := fun hp _ _ _ _ hBody hEntry =>
      h.unnamed hp hBody (hLoad.moves.bodies hp (h.hosted hp hBody) hEntry) }

theorem not_isValue (h : Discovering plain K T b r first w) (hp : plain) {path q : Path} {n : Text}
    (hPath : InBody r.scopePath path) (hq : q <+: path)
    (hEntry : w.store.table.Entry q key n symbol) : ¬symbol.IsValue := by
  intro hValue
  by_cases hBody : InBody r.scopePath q
  · exact h.unnamed hp hBody hEntry hValue
  · obtain ⟨_, _, hHosted⟩ := (h.sound.table hEntry).inside hp hValue
    have hShort : q <+: r.scopePath := by
      obtain hPrefix | hLonger := List.prefix_or_prefix_of_prefix hq hPath
      · exact (List.prefix_concat_iff.1 hPrefix).resolve_left fun hEq =>
          hBody (hEq ▸ List.prefix_refl _)
      · exact absurd hLonger hBody
    exact not_inBody (fun part hPart => h.words hp part (hShort.subset hPart)) hHosted

theorem leads_alias (h : Discovering plain K T b r first w) {target : Text} {i : Nat}
    {n : Node Meta} (hText : plain → Text.isWord text) (hKeyed : Text.Keyed target)
    (hTarget : plain → Text.isDotted target) (hKnown : plain → w.store.table.Taken target)
    (hType : n.IsType) (hDeclares : n.Declares) (hBelow : n.Below w.store.next) :
    Leads (Check.declare r.scopePath (Name.ofText text) (.alias i target (some n))) w
      (Failing plain K b) fun _ w' => Discovering plain K T b r first w' ∧
        w' = w.declare r.scopePath (Name.ofText text) (.alias i target (some n)) := by
  refine (h.toUnderway.leads_alias hText hKeyed hTarget hKnown hType hDeclares hBelow).mono (fun _ _ => id)
    fun _ w₁ ⟨h₁, hw₁⟩ => ?_
  subst hw₁
  exact ⟨h.declare h₁ fun _ => id, rfl⟩

end Discovering

/-- How the types of a source are to be discovered, with at most `depth` units pending: its type is
declared, and then each type that it names is reported or seen; or its type is declared already. -/
def Discovers (plain : Plain) (depth : Nat) (discover : Root Meta → Check (List Diagnostic)) : Prop :=
  ∀ {K T b w r}, (b.units.filter (·.status = .pending)).length ≤ depth →
    Checking plain K T b r r.top.ann.id w → w.store.Linked (.root r) →
      w.store.tops = b.store.tops → w.store.refs = b.store.refs → Leads (discover r) w (Failing plain K b) fun errors w' =>
        Discovering plain K T b r r.top.ann.id w' ∧ (∀ e ∈ errors, ∃ n, e.OfDiscovery n) ∧
          (∀ n ∈ (Node.root r).nodes,
            (∃ e ∈ errors, e.Misses n) ∨ (plain → n.Resolves w'.store.table)) ∨
        w' = w ∧ (plain → w.store.table.Taken r.fullName)

theorem Symbol.Loaded.fit (h : symbol.Loaded plain w name) (hSound : Sound plain w)
    (hKeyed : name.full.Keyed) (hName : plain → name.Dotted) (hKey : name.key = .ok key) :
    symbol.Fit plain (w.declare [] name symbol) (Scope.home [] name) key := by
  have hHere (hp : plain) : name.full.At (Scope.home [] name) key := by
    rw [(hName hp).key] at hKey
    exact ⟨by rw [(hName hp).ofText_full], by rw [(hName hp).ofText_full, Except.ok.inj hKey]⟩
  refine
    { declares := fun _ hNode => ?_
      keyed := h.keyed hKeyed
      origin := h.declared
      dotted := h.dotted
      hosted := fun _ _ hNode => ?_
      arity := fun _ _ _ _ hNode => ?_
      inside := fun hp hValue => ?_
      known := fun hp full hFull => .inl ?_
      aliased := fun hp _ _ _ hAlias => ?_
      loaded := fun hp full hLoaded => ?_
      declared := fun hp other id hType => ?_ }
  · cases h.bare.symm.trans hNode
  · cases h.bare.symm.trans hNode
  · cases h.bare.symm.trans hNode
  · obtain ⟨hLoaded, _⟩ | ⟨d, _, rfl, _⟩ := h.origin hp
    · cases symbol with
      | named => cases hLoaded
      | _ => exact hValue.elim
    · exact hValue.elim
  · obtain ⟨hLoaded, _⟩ | ⟨d, hd, rfl, _⟩ := h.origin hp
    · obtain rfl := Option.some.inj (hFull.symm.trans (Symbol.full?_of_loaded? hLoaded))
      rw [Scope.Taken, (hName hp).ofText_full]
      exact Scope.not_free_declare (hName hp).key
    · obtain rfl : d.name = full := Option.some.inj hFull
      exact fun hFree => (hSound.tops d hd).taken hp (Scope.free_of_declare hFree)
  · subst hAlias
    obtain ⟨hLoaded, _⟩ | ⟨d, _, hEq, _⟩ := h.origin hp
    · exact nomatch hLoaded
    · exact nomatch hEq
  · obtain ⟨hSame, hGiven⟩ | ⟨d, _, rfl, _⟩ := h.origin hp
    · exact ⟨Option.some.inj (hSame.symm.trans hLoaded) ▸ hHere hp, hGiven⟩
    · exact nomatch hLoaded
  · subst hType
    obtain ⟨hLoaded, _⟩ | ⟨d, hd, hEq, u, hu, hUnit, r, hr, hFull⟩ := h.origin hp
    · exact nomatch hLoaded
    · obtain ⟨rfl, hOrigin⟩ := Symbol.type.inj hEq
      obtain rfl := Origin.declared.inj hOrigin
      exact ⟨d, hd, rfl, rfl, .inr ⟨u, hu, hUnit ▸ hHere hp, r, hr, hFull⟩⟩

theorem Symbol.Loaded.not_isValue (h : symbol.Loaded plain w name) (hp : plain) :
    ¬symbol.IsValue := by
  obtain ⟨hLoaded, _⟩ | ⟨d, _, rfl, _⟩ := h.origin hp
  · cases symbol with
    | named => exact nomatch hLoaded
    | _ => exact id
  · exact id

namespace Discovery

theorem name_ne_of_find_nil (hSound : Sound plain w) {name : Text}
    (hFind : w.store.table.find [] (Name.ofText name) = .ok []) :
    ∀ d ∈ w.store.tops, d.name ≠ name := by
  rintro d hd rfl
  obtain ⟨key, hKey, hNot⟩ := (hSound.tops d hd).found
  exact hNot (hSound.filled.free_of_find_nil hFind hKey (Scope.sees_root.2 rfl))

theorem discovering_declareTop (h : Checking plain K T b r r.top.ann.id w)
    (hLinked : w.store.Linked (.root r)) (hTops : w.store.tops = b.store.tops) (hRefs : w.store.refs = b.store.refs)
    (hKeyed : r.fullName.Keyed) (hNames : ∀ d ∈ w.store.tops, d.name ≠ r.fullName) {d : Declared}
    (hd : d = ⟨r.top.ann.id, r.fullName, r.top⟩) :
    Discovering plain K T b r r.top.ann.id (w.declareTop d) := by
  subst hd
  have hTop : (Node.top r.top).All (Node.Fit plain r.scopePath K w.store.next) :=
    h.fit.child (by simp [Node.children])
  have hName (hp : plain) : (Name.ofText r.fullName).Dotted :=
    Name.dotted_ofText (h.isDotted_fullName hp)
  have hForeign (hp : plain) {path : Path} (hBody : InBody r.scopePath path) :
      ¬w.store.Hosted path := by
    rintro ⟨d, hd, hBody'⟩
    refine hNames d hd (Text.splitOn_injective 46 ?_)
    rw [Root.splitOn_fullName (h.isWord_name hp)]
    exact hBody'.unique hBody (List.all_eq_true.1 ((h.sound.tops d hd).dotted hp)) (h.words hp)
  have hOut (hp : plain) := (h.not_hosted_home hp (.inl rfl) (hName hp)).2
  refine
    { low := h.low
      flying := h.flying
      absent := h.absent
      unread := h.unread
      spaced := h.spaced
      nodup := h.nodup
      linked := hLinked
      sound := ?_
      moves := h.moves.declareTop ⟨hTop.self.clear, hTop.self.clear⟩
        fun hp => (h.not_hosted_home hp (.inl rfl) (hName hp)).1
      fit := h.fit
      owned := fun d hd => ?_
      others := h.others
      alone := fun hp _ hBody hHosted => hForeign hp hBody (h.moves.hosted hHosted)
      declared := ⟨_, List.mem_append_right _ (List.mem_singleton_self _), rfl, rfl, rfl⟩
      body := fun hp path key n symbol hBody hEntry node hNode => ?_
      meant := fun hp i role symbols hi hSymbols => ?_
      unnamed := fun hp path key n symbol hBody hEntry hValue => ?_ }
  · refine h.sound.declareTop hTop.self.high (hTop.mono fun _ hn => hn.high)
      (hTop.mono fun _ hn => hn.anchored) hKeyed h.isDotted_fullName (fun d hd => ?_) hNames fun hp u hu r' hr' hOf => ?_
    · obtain ⟨hId, hTopId⟩ := h.absent d (hTops ▸ hd)
      exact ⟨hId, hTopId, hId, hTopId⟩
    · obtain ⟨_, hFull, hStatus⟩ | ⟨hNe, _⟩ := h.others u hu r' hr'
      · exact ⟨hFull.symm, by simp [hStatus]⟩
      · exact absurd (hOf.elim Eq.symm Eq.symm) hNe
  · obtain hd | hd := List.mem_append.1 hd
    · exact h.owned d hd
    · exact .inr (.inl (by rw [List.mem_singleton.1 hd]))
  · obtain hOld | ⟨_, rfl, _⟩ := Scope.entry_of_declare hEntry
    · obtain ⟨_, hOutside⟩ | hHosted := (h.sound.table hOld).hosted hp node hNode
      · exact absurd hBody (hOutside _)
      · exact absurd hHosted (hForeign hp hBody)
    · exact absurd hBody (hOut hp)
  · have hNone : w.store.refsOf? i = none := by
      rw [Store.refsOf?, hRefs]
      exact h.unread hi
    exact absurd (hNone.symm.trans hSymbols) (by simp)
  · obtain hOld | ⟨_, rfl, _⟩ := Scope.entry_of_declare hEntry
    · exact hForeign hp hBody ((h.sound.table hOld).inside hp hValue)
    · exact hOut hp hBody

theorem declareTop_spec (h : Checking plain K T b r r.top.ann.id w)
    (hLinked : w.store.Linked (.root r)) (hTops : w.store.tops = b.store.tops) (hRefs : w.store.refs = b.store.refs) :
    Leads (declareTop r) w (Failing plain K b) fun errors w' =>
      errors = [] ∧ Discovering plain K T b r r.top.ann.id w' ∨
        errors ≠ [] ∧ w' = w ∧ (plain → w.store.table.Taken r.fullName) := by
  have hName (hp : plain) : (Name.ofText r.fullName).Dotted :=
    Name.dotted_ofText (h.isDotted_fullName hp)
  unfold declareTop
  refine (h.find fun hp => ⟨_, (hName hp).key⟩).bind fun symbols w₁ ⟨hSame, hFind⟩ => ?_
  subst hSame
  cases symbols with
  | cons previous rest =>
    refine .bind (P := fun _ w' => w' = w₁) (.alreadyDefined fun _ => rfl) fun _ w' hw' =>
      .pure (.inr ⟨by simp, hw', fun hp => ?_⟩)
    exact Scope.taken_iff_seen.2 (Scope.seen_of_find (h.isDotted_fullName hp) hFind)
  | nil =>
    refine .bind (P := fun _ w' => w' = w₁.declare [] (Name.ofText r.fullName) _ ∧ r.fullName.Keyed)
      (.declare (fun f hKey => h.declare_failing hKey (fun hp => ⟨_, (hName hp).key⟩) _ _)
        fun hDone => ⟨rfl, Scope.exists_key_of_declare hDone⟩) fun _ w₂ ⟨hw₂, hKeyed⟩ => ?_
    subst hw₂
    have hTop := discovering_declareTop h hLinked hTops hRefs hKeyed (name_ne_of_find_nil h.sound hFind) rfl
    refine .bind (P := fun _ w' => Discovering plain K T b r r.top.ann.id w' ∧
      (plain → w'.store.table.Taken r.fullName)) (.modifyStore ⟨hTop, fun hp => ?_⟩)
      fun _ w₃ h₃ => ?_
    · exact Scope.not_free_declare (hName hp).key
    refine .bind (P := fun _ w' => Discovering plain K T b r r.top.ann.id w' ∧
      (plain → w'.store.table.Taken r.fullName)) (.log h₃) fun _ w₄ ⟨h₄, hTaken⟩ => ?_
    have hTop : (Node.top r.top).All (Node.Fit plain r.scopePath K w₄.store.next) :=
      h₄.fit.child (by simp [Node.children])
    split
    · refine .bind (P := fun path w' => path = r.scopePath ∧ w' = w₄) (.scopeOf h₄.scope ⟨rfl, rfl⟩)
        fun path w₅ ⟨hPath, hw₅⟩ => ?_
      subst hPath hw₅
      exact (h₄.leads_alias (n := .top r.top) h₄.isWord_name hKeyed h₄.isDotted_fullName
        hTaken trivial trivial (hTop.mono fun _ hn => hn.high)).bind
        fun _ w₆ h₆ => .pure (.inl ⟨rfl, h₆.1⟩)
    · exact .pure (.inl ⟨rfl, h₄⟩)

section

variable {load : Load} {depth : Nat}

theorem resolve_spec (hLoad : load.Meets plain depth)
    (hDepth : (b.units.filter (·.status = .pending)).length ≤ depth)
    (h : Discovering plain K T b r first w) (hKeyed : name.full.Keyed) (hName : plain → name.Dotted)
    (trigger : Node Meta) :
    Leads (resolve load name trigger) w (Failing plain K b) fun found w' =>
      Discovering plain K T b r first w' ∧ w.store.table.Extends w'.store.table ∧
        (plain → found.isSome → w'.store.table.Taken name.full) := by
  unfold resolve
  refine (h.find fun hp => ⟨_, (hName hp).key⟩).bind fun symbols w₁ ⟨hSame, hFind⟩ => ?_
  subst hSame
  cases symbols with
  | cons symbol _ =>
    refine .pure ⟨h, .refl _, fun hp _ => Scope.taken_iff_seen.2 ?_⟩
    rw [← (hName hp).ofText_full] at hFind
    exact Scope.seen_of_find (hName hp).full hFind
  | nil =>
    have hLoads := hLoad w₁ name trigger h.sound h.flies (h.moves.pending_le.trans hDepth) hName
    refine (hLoads.mono (fun f w' => h.load_failing) fun _ _ => id).bind
      fun found w₂ ⟨hAdvances, hFound⟩ => ?_
    have h₂ := h.load hAdvances
    cases found with
    | none => exact .pure ⟨h₂, fun _ _ => hAdvances.moves.taken, by simp⟩
    | some symbol =>
      have hSymbol := hFound symbol rfl
      refine (h₂.toUnderway.leads_declare (fun hp => ⟨_, (hName hp).key⟩)
        (fun key hKey => hSymbol.fit h₂.sound hKeyed hName hKey)
        (fun hp => (h₂.not_hosted_home hp (.inl rfl) (hName hp)).1)
        fun hp hBody => absurd hBody (h₂.not_hosted_home hp (.inl rfl) (hName hp)).2).bind
        fun _ w₃ ⟨h₃, hw₃⟩ => ?_
      subst hw₃
      refine .bind (P := fun _ w' => w' = w₂.declare [] name symbol) (.log rfl) fun _ w₄ hw₄ => ?_
      subst hw₄
      refine .pure ⟨h₂.declare h₃ fun hp => hSymbol.not_isValue hp,
        fun _ _ hFree => hAdvances.moves.taken (Scope.free_of_declare hFree), fun hp _ => ?_⟩
      rw [Scope.Taken, (hName hp).ofText_full]
      exact Scope.not_free_declare (hName hp).key

theorem declareUse_spec (hLoad : load.Meets plain depth)
    (hDepth : (b.units.filter (·.status = .pending)).length ≤ depth)
    (h : Discovering plain K T b r first w) {u : Use Meta} (hu : u ∈ r.uses) :
    Leads (declareUse load r.space u) w (Failing plain K b) fun _ w' =>
      Discovering plain K T b r first w' := by
  have hFit : (Node.use u).All (Node.Fit plain r.scopePath K w.store.next) :=
    h.fit.child (by simp [Node.children, hu])
  obtain ⟨path, hScope, hPath⟩ := hFit.self.inside
  obtain rfl : path = r.scopePath := hPath
  have hWords (hp : plain) : Text.isDotted u.source ∧ Text.isWord u.name := hFit.self.worded hp
  have hTarget (hp : plain) : (Name.ofTextIn u.source r.space).Dotted :=
    Name.dotted_ofTextIn (hWords hp).1 (h.spaced hp)
  have hName (hp : plain) : Text.isDotted u.name := Text.isDotted_of_isWord (hWords hp).2
  unfold declareUse
  refine .bind (P := fun path w' => path = r.scopePath ∧ w' = w) (.scopeOf hScope ⟨rfl, rfl⟩)
    fun path w₁ ⟨hPath, hw₁⟩ => ?_
  subst hPath hw₁
  refine (h.findIn fun hp => ⟨_, (Name.dotted_ofText (hName hp)).key⟩).bind fun found w₂ hw₂ => ?_
  subst hw₂
  cases found with
  | some previous =>
    simp only
    split
    · exact .pure h
    · exact .bind (P := fun _ w' => w' = w₂) (.alreadyDefined fun _ => rfl) fun _ w₃ hw₃ =>
        .pure (hw₃ ▸ h)
  | none =>
    have hKeyed : (Name.ofTextIn u.source r.space).full.Keyed :=
      Text.Keyed.full_ofTextIn hFit.self.keyed r.space
    refine (resolve_spec hLoad hDepth h hKeyed hTarget _).bind fun found w₃ ⟨h₃, _, hTaken⟩ => ?_
    cases found with
    | none => exact .pure h₃
    | some symbol =>
      refine (h₃.leads_alias (n := .use u) (fun hp => (hWords hp).2) hKeyed
        (fun hp => (hTarget hp).full) (fun hp => hTaken hp rfl) trivial trivial ?_).bind fun _ w₄ h₄ => .pure h₄.1
      exact (h₃.fit.child (k := .use u) (by simp [Node.children, hu])).mono fun _ hn => hn.high

theorem declareVariable_spec (h : Discovering plain K T b r first w) {p : TypeParam Meta}
    (hp : .typeParam p ∈ (Node.root r).nodes) :
    Leads (declareVariable p) w (Failing plain K b) fun _ w' =>
      Discovering plain K T b r first w' := by
  obtain ⟨⟨path, hScope, hPath⟩, _, _, _, hWorded⟩ := h.fit _ hp
  have hWord (hPlain : plain) : Text.isWord p.name := hWorded hPlain
  have hKey (hPlain : plain) : ∃ key, (Name.ofText p.name).key = .ok key :=
    ⟨_, (Name.dotted_ofText (Text.isDotted_of_isWord (hWord hPlain))).key⟩
  unfold declareVariable
  refine .bind (P := fun q w' => q = path ∧ w' = w) (.scopeOf hScope ⟨rfl, rfl⟩)
    fun q w₁ ⟨hq, hw₁⟩ => ?_
  subst hq hw₁
  refine (h.findIn hKey).bind fun found w₂ hw₂ => ?_
  subst hw₂
  cases found with
  | some previous =>
    exact .bind (P := fun _ w' => w' = w₂) (.alreadyDefined fun _ => rfl) fun _ w₃ hw₃ =>
      .pure (hw₃ ▸ h)
  | none =>
    refine .bind (h.toUnderway.leads_own (.param p) (n := .typeParam p) rfl hp (fun hPlain => ?_)
      hKey trivial fun _ _ _ _ _ hArity => nomatch hArity) fun _ w₃ ⟨h₃, hw₃⟩ => ?_
    · rw [Name.ofText_of_isWord (hWord hPlain)]
      exact hPath
    · subst hw₃
      exact .pure (h.declare h₃ fun _ => id)

theorem dotted_of_mem_candidates (hText : Text.isDotted text) (hSpace : Text.Spaced space)
    (hName : name ∈ candidates text space) : name.Dotted := by
  unfold candidates at hName
  split at hName
  · rw [List.mem_singleton] at hName
    exact hName ▸ Name.dotted_ofTextIn hText hSpace
  · obtain rfl | hName := List.mem_cons.1 hName
    · exact Name.dotted_ofTextIn hText hSpace
    · rw [List.mem_singleton.1 hName]
      exact Name.dotted_ofText (Text.isDotted_append (by decide +kernel) hText)

theorem keyed_of_mem_candidates (hText : text.Keyed) (hName : name ∈ candidates text space) :
    name.full.Keyed := by
  unfold candidates at hName
  split at hName
  · rw [List.mem_singleton.1 hName]
    exact hText.full_ofTextIn space
  · obtain rfl | hName := List.mem_cons.1 hName
    · exact hText.full_ofTextIn space
    · rw [List.mem_singleton.1 hName, Name.full_ofText]
      exact hText.qualified librarySpace

theorem eq_of_mem_candidates (hText : (Name.ofText text).isQualified)
    (hName : name ∈ candidates text space) : name = Name.ofText text := by
  simpa [candidates, Name.ofTextIn, hText] using hName

theorem resolveFirst_spec (hLoad : load.Meets plain depth)
    (hDepth : (b.units.filter (·.status = .pending)).length ≤ depth) (trigger : Node Meta)
    {names : List Name} (h : Discovering plain K T b r first w)
    (hKeyed : ∀ name ∈ names, name.full.Keyed) (hNames : plain → ∀ name ∈ names, name.Dotted) :
    Leads (resolveFirst load trigger names) w (Failing plain K b) fun found w' =>
      Discovering plain K T b r first w' ∧ w.store.table.Extends w'.store.table ∧
        ∀ name, found = some name → name ∈ names ∧ (plain → w'.store.table.Taken name.full) := by
  induction names generalizing w with
  | nil => exact .pure ⟨h, .refl _, by simp⟩
  | cons name rest ih =>
    unfold resolveFirst
    refine (resolve_spec hLoad hDepth h (hKeyed name List.mem_cons_self)
      (fun hp => hNames hp name List.mem_cons_self) _).bind fun found w₁ ⟨h₁, hExtends₁, hTaken⟩ => ?_
    cases found with
    | some symbol =>
      refine .pure ⟨h₁, hExtends₁, fun other hEq => ?_⟩
      obtain rfl := Option.some.inj hEq
      exact ⟨List.mem_cons_self, fun hp => hTaken hp rfl⟩
    | none =>
      refine (ih h₁ (fun other hOther => hKeyed other (List.mem_cons_of_mem _ hOther))
        fun hp other hOther => hNames hp other (List.mem_cons_of_mem _ hOther)).mono
        (fun _ _ => id) fun found w₂ ⟨h₂, hExtends₂, hFound⟩ =>
          ⟨h₂, hExtends₁.trans hExtends₂, fun other hEq => ?_⟩
      exact ⟨List.mem_cons_of_mem _ (hFound other hEq).1, (hFound other hEq).2⟩

theorem discoverType_spec (hLoad : load.Meets plain depth)
    (hDepth : (b.units.filter (·.status = .pending)).length ≤ depth)
    (h : Discovering plain K T b r first w) {m : Meta} {args : List (TypeSpec Meta)} {n : Node Meta}
    (hEq : n = .spec (.simple m text args)) (hn : n ∈ (Node.root r).nodes) :
    Leads (discoverType load r m text n) w (Failing plain K b) fun errors w' =>
      Discovering plain K T b r first w' ∧ w.store.table.Extends w'.store.table ∧
        ((∃ e ∈ errors, e.Misses n) ∨ (plain → n.Resolves w'.store.table)) := by
  subst hEq
  obtain ⟨⟨path, hScope, hInside⟩, _, _, hKeyed, hWorded⟩ := h.fit _ hn
  have hText (hp : plain) : Text.isDotted text := hWorded hp
  have hResolves {t : Scope} (hSeen : plain → t.Seen path text) (hp : plain) :
      (Node.spec (.simple m text args)).Resolves t :=
    ⟨hText hp, path, hScope, hSeen hp⟩
  unfold discoverType
  refine .bind (P := fun q w' => q = path ∧ w' = w) (.scopeOf hScope ⟨rfl, rfl⟩)
    fun q w₁ ⟨hq, hw₁⟩ => ?_
  subst hq hw₁
  refine (h.find fun hp => ⟨_, (Name.dotted_ofText (hText hp)).key⟩).bind
    fun symbols w₂ ⟨hw₂, hFind⟩ => ?_
  subst hw₂
  cases symbols with
  | cons _ _ =>
    exact .pure ⟨h, .refl _, .inr (hResolves fun hp => Scope.seen_of_find (hText hp) hFind)⟩
  | nil =>
    have hCandidates (hp : plain) : ∀ name ∈ candidates text r.space, name.Dotted :=
      fun _ => dotted_of_mem_candidates (hText hp) (h.spaced hp)
    refine (resolveFirst_spec hLoad hDepth _ h (fun _ => keyed_of_mem_candidates hKeyed)
      hCandidates).bind fun found w₃ ⟨h₃, hExtends, hFound⟩ => ?_
    cases found with
    | none => exact .pure ⟨h₃, hExtends, .inl ⟨_, List.mem_singleton_self _, _, rfl⟩⟩
    | some found =>
      obtain ⟨hMem, hTaken⟩ := hFound found rfl
      simp only
      split
      · rename_i hSimple
        have hOne : ¬(Name.ofText text).isQualified := by simpa using hSimple
        refine .bind (P := fun q w' => q = r.scopePath ∧ w' = w₃) (.scopeOf h₃.scope ⟨rfl, rfl⟩)
          fun q w₄ ⟨hq, hw₄⟩ => ?_
        subst hq hw₄
        refine (h₃.leads_alias (n := .spec (.simple m text args))
          (fun hp => Name.isWord_of_isDotted (hText hp) hOne) (keyed_of_mem_candidates hKeyed hMem)
          (fun hp => (hCandidates hp _ hMem).full) hTaken trivial trivial
          ((h₃.fit.of_mem hn).mono fun _ hk => hk.high)).bind fun _ w₅ ⟨h₅, hw₅⟩ => ?_
        subst hw₅
        refine .pure ⟨h₅, hExtends.trans fun _ _ => Scope.free_of_declare, .inr (hResolves fun hp => ?_)⟩
        refine ⟨r.scopePath, ?_, ?_⟩
        · rw [Scope.Sees, if_neg hOne]
          exact (List.prefix_append _ _).trans hInside
        · have hHome : Scope.home r.scopePath (Name.ofText text) = r.scopePath := if_neg hOne
          have hNot := @Scope.not_free_declare _ w₄.store.table r.scopePath _ (.alias m.id found.full
            (some (.spec (.simple m text args)))) (Name.dotted_ofText (hText hp)).key
          rwa [hHome] at hNot
      · rename_i hSimple
        have hQualified : (Name.ofText text).isQualified := by simpa using hSimple
        refine .pure ⟨h₃, hExtends, .inr (hResolves fun hp => ?_)⟩
        have hFull : found.full = text := by
          rw [eq_of_mem_candidates hQualified hMem, Name.full_ofText]
        exact (hFull ▸ hTaken hp).seen _

/-- Discovery declares the type of a source, and then each type that it names is reported or seen, or
it reports that the type is declared already. -/
theorem discover_spec (hLoad : load.Meets plain depth) :
    Discovers plain depth (Root.discover load) := by
  intro K T b w r hDepth h hLinked hTops hRefs
  refine .traced ?_
  refine (declareTop_spec h hLinked hTops hRefs).bind fun errors w₁ h₁ => ?_
  cases errors with
  | cons first rest => exact .pure (.inr (h₁.resolve_left (by simp)).2)
  | nil =>
    have h₁ := (h₁.resolve_right (by simp)).2
    refine ((Leads.collect (fun u hu w' h' => declareUse_spec hLoad hDepth h' hu) h₁).gives
      (.collect fun u _ => declareUse_gives r.space u)).bind fun uses w₂ ⟨h₂, hUses⟩ => ?_
    refine ((Leads.collect (fun n hn w' h' => ?_) h₂).gives
      (.collect fun n _ => visitVariable_gives n)).bind fun params w₃ ⟨h₃, hParams⟩ => ?_
    · cases n with
      | typeParam p => exact declareVariable_spec h' hn
      | _ => exact .pure h'
    · refine ((Leads.collect_each (P := fun n w' => plain → n.Resolves w'.store.table)
        (E := fun n e => e.Misses n) (fun n hn w' h' => ?_) h₃).gives
        (.collect fun n _ => visitSpec_gives r n)).bind
        fun specs w₄ ⟨⟨h₄, _, hSpecs⟩, hOfSpecs⟩ => .pure (.inl ⟨h₄, fun e he => ?_, fun n hn => ?_⟩)
      · cases n with
        | spec s =>
          cases s with
          | simple m text args =>
            exact (discoverType_spec hLoad hDepth h' rfl hn).mono (fun _ _ => id)
              fun errors w'' ⟨h'', hExtends, hOwn⟩ =>
                ⟨h'', fun k hk hp => (hk hp).mono hExtends, hOwn⟩
          | _ => exact .pure ⟨h', fun _ => id, .inr fun _ => trivial⟩
        | _ => exact .pure ⟨h', fun _ => id, .inr fun _ => trivial⟩
      · obtain he | he := List.mem_append.1 he
        · obtain he | he := List.mem_append.1 he
          · exact (hUses e he).elim fun _ h => ⟨_, h.2⟩
          · exact (hParams e he).elim fun _ h => ⟨_, h.2⟩
        · exact (hOfSpecs e he).elim fun _ h => ⟨_, h.2⟩
      · exact (hSpecs n hn).imp_left fun ⟨e, he, hMisses⟩ =>
          ⟨e, List.mem_append_right _ he, hMisses⟩

end

end Discovery

end Assay
