import Mathlib
import Assay.Proofs.Discovered

/-! Types in full and flat form. A source gets a new tree with the full names of its types, and then
one with flat types, and each time its declaration gets the new tree and keeps its place. -/

namespace Assay

open Check (Leads)

variable {plain : Plain} {K : Nat → Prop} {T : Root Meta → Prop} {b w : World} {r : Root Meta}
  {first : Nat}

variable {top : TopLevel Meta} {seen : Prop} {i : Nat} {t : Scope}

instance : Std.Symm Declared.Apart :=
  ⟨fun _ _ h => ⟨h.ids.symm, h.tops.symm, h.topId.symm, h.idTop.symm⟩⟩

theorem Sound.declaredBy?_of_mem (h : Sound plain w) {d : Declared} (hd : d ∈ w.store.tops)
    (hTop : d.id = top.ann.id ∨ d.top.ann.id = top.ann.id) : w.store.declaredBy? top = some d := by
  obtain ⟨d', hFind⟩ : ∃ d', w.store.declaredBy? top = some d' := by
    rw [← Option.isSome_iff_exists, Store.declaredBy?, List.find?_isSome]
    exact ⟨d, hd, by simpa using hTop⟩
  have hTop' : d'.id = top.ann.id ∨ d'.top.ann.id = top.ann.id := by
    simpa using List.find?_some hFind
  rw [hFind]
  by_contra hNe
  obtain ⟨hIds, hTops, hIdTop, hTopId⟩ :=
    h.apart.forall (List.mem_of_find?_eq_some hFind) hd (fun hEq => hNe (congrArg some hEq))
  omega

theorem Store.top?_setTop (st : Store) (i j : Nat) (top : TopLevel Meta) :
    (st.setTop i top).top? j = (st.top? j).map fun d => if d.id = i then { d with top } else d := by
  unfold top? setTop
  rw [List.find?_map]
  congr 2
  funext d
  simp only [Function.comp_apply]
  split <;> rfl

theorem World.Assigns.setTop {id : Nat} (h : w.Assigns K T id) (hId : K id)
    (hClear : ∀ d ∈ w.store.tops, d.id = i → ¬K d.top.ann.id) :
    World.Assigns K T { w with store := w.store.setTop i top } id := by
  obtain ⟨r, hr, m, ref, v, hMem, symbol, n, hRef, hDecl, hType, hn⟩ := h
  refine ⟨r, hr, m, ref, v, hMem, symbol, n, hRef, ?_, hType, hn⟩
  rw [← hDecl]
  cases symbol with
  | type name origin =>
    cases origin with
    | declared j =>
      simp only [Store.decl?] at hDecl ⊢
      rw [Store.top?_setTop]
      cases hFind : w.store.top? j with
      | none => simp
      | some d =>
        rw [hFind, Option.map_some, Option.some.injEq] at hDecl
        subst hDecl
        have hNe : d.id ≠ i := fun hEq =>
          hClear d (List.mem_of_find?_eq_some hFind) hEq (hn.symm ▸ hId)
        simp [hNe]
    | _ => rfl
  | _ => rfl

theorem Moves.setTop (h : Moves plain K T b w) (hAbsent : ∀ d ∈ b.store.tops, d.id ≠ i)
    (hClear : ¬K top.ann.id) :
    Moves plain K T b { w with store := w.store.setTop i top } where
  next := h.next
  config := h.config
  tops := by
    obtain ⟨new, hNew, hNewClear⟩ := h.tops
    refine ⟨new.map fun d => if d.id = i then { d with top } else d, ?_, ?_⟩
    · change w.store.tops.map _ = _
      rw [hNew, List.map_append]
      refine congrArg (· ++ _) (Eq.trans (List.map_congr_left (g := id) fun d hd => ?_)
        (List.map_id _))
      exact if_neg (hAbsent d hd)
    · simp only [List.forall_mem_map]
      intro d hd
      split
      · exact ⟨(hNewClear d hd).1, hClear⟩
      · exact hNewClear d hd
  taken := h.taken
  bodies := h.bodies
  log := h.log
  links := h.links
  refs := h.refs
  types hp id hId := by
    refine (h.types hp id hId).imp_right fun hAssigns => hAssigns.setTop hId fun d hd hEq => ?_
    obtain ⟨new, hNew, hNewClear⟩ := h.tops
    obtain hd | hd := List.mem_append.1 (hNew ▸ hd)
    · exact absurd hEq (hAbsent d hd)
    · exact (hNewClear d hd).2
  units := h.units
  files := h.files

/-- The step of a declaration that gets another tree. The tree has a number of its own, or the number
of the tree in whose place it stands. -/
theorem Sound.setTop (h : Sound plain w) (hBelow : (Node.top top).Below w.store.next)
    (hTree : (Node.top top).All fun n => n.label.Keyed ∧ n.ann.scope.isSome)
    (hTop : ∀ d ∈ w.store.tops, d.id = i → top.ann.id = d.top.ann.id ∨ (∀ d' ∈ w.store.tops, d'.id <
      top.ann.id ∧ d'.top.ann.id < top.ann.id) ∧ ∀ u ∈ w.units, ∀ r, u.root = some r → r.top.ann.id
      < top.ann.id) (hOthers : ∀ u ∈ w.units, u.status = .compiled → ∀ r, u.root = some r → ∀ d ∈
      w.store.tops, d.id = i → ¬d.Of r) : Sound plain { w with store := w.store.setTop i top } := by
  have hOf {u : SourceUnit} (hu : u ∈ w.units) {r : Root Meta} (hr : u.root = some r) {d : Declared}
      (hd : d ∈ w.store.tops) (hNow : (if d.id = i then { d with top } else d).Of r) : d.Of r := by
    by_cases hEq : d.id = i
    · rw [if_pos hEq] at hNow
      obtain hId | hTopId := hNow
      · exact .inl hId
      · obtain hSame | ⟨_, hUnits⟩ := hTop d hd hEq
        · exact .inr (hSame.symm.trans hTopId)
        · exact absurd hTopId (hUnits u hu r hr).ne'
    · rwa [if_neg hEq] at hNow
  have hName (d : Declared) : (if d.id = i then { d with top } else d).name = d.name := by
    split <;> rfl
  have hId (d : Declared) : (if d.id = i then { d with top } else d).id = d.id := by split <;> rfl
  refine
    { names := h.names
      spaces := h.spaces
      loaders := h.loaders
      given := h.given
      filled := h.filled
      table := fun hEntry => (h.table hEntry).mono ⟨Nat.le_refl _, fun d hd => ?_, id,
        fun u hu r hr => ⟨u, hu, rfl, r, hr, rfl⟩⟩
      logged := h.logged
      refs := h.refs
      tops := fun d' hd' => ?_
      apart := ?_
      topNames := ?_
      roots := h.roots
      unread := h.unread
      named := fun hp u hu r hr d' hd' hNow => ?_
      outcomes := fun hp u hu hStatus => (h.outcomes hp u hu hStatus).mono (fun r hr => ?_) id }
  · exact ⟨_, List.mem_map_of_mem hd, hId d, hName d⟩
  · obtain ⟨d, hd, rfl⟩ := List.mem_map.1 hd'
    have hFit := h.tops d hd
    split
    · exact ⟨hFit.id, hBelow, hTree, hFit.dotted, hFit.found⟩
    · exact ⟨hFit.id, hFit.top, hFit.tree, hFit.dotted, hFit.found⟩
  · refine List.pairwise_map.2 (h.apart.imp_of_mem fun {d d'} hd hd' hApart => ?_)
    by_cases hEq : d.id = i
    · have hNe' : d'.id ≠ i := fun hEq' => hApart.ids (hEq.trans hEq'.symm)
      rw [if_pos hEq, if_neg hNe']
      obtain hSame | ⟨hNew, _⟩ := hTop d hd hEq
      · exact ⟨hApart.ids, hSame ▸ hApart.tops, hApart.idTop, hSame ▸ hApart.topId⟩
      · exact ⟨hApart.ids, (hNew d' hd').2.ne', hApart.idTop, (hNew d' hd').1.ne'⟩
    · rw [if_neg hEq]
      split
      · rename_i hEq'
        obtain hSame | ⟨hNew, _⟩ := hTop d' hd' hEq'
        · exact ⟨hApart.ids, hSame ▸ hApart.tops, hSame ▸ hApart.idTop, hApart.topId⟩
        · exact ⟨hApart.ids, (hNew d hd).2.ne, (hNew d hd).1.ne, hApart.topId⟩
      · exact hApart
  · have hNames : (w.store.setTop i top).tops.map (·.name) = w.store.tops.map (·.name) := by
      simp only [Store.setTop, List.map_map]
      exact List.map_congr_left fun d _ => hName d
    exact hNames ▸ h.topNames
  · obtain ⟨d, hd, rfl⟩ := List.mem_map.1 hd'
    exact (hName d).trans (h.named hp u hu r hr d hd (hOf hu hr hd hNow))
  · constructor
    · rintro ⟨d', hd', hNow⟩
      obtain ⟨d, hd, rfl⟩ := List.mem_map.1 hd'
      exact ⟨d, hd, hOf hu hr hd hNow⟩
    · rintro ⟨d, hd, hOld⟩
      have hNe : d.id ≠ i := fun hEq => hOthers u hu hStatus r hr d hd hEq hOld
      exact ⟨d, List.mem_map.2 ⟨d, hd, if_neg hNe⟩, hOld⟩

section Qualify

/-- What holds of a symbol that the name of a type leads to from the scope at a path: it spells a
name of words, and if there are no names of values on the way, then it is none and what it spells is
seen. -/
structure Symbol.Means (t : Scope) (path : Path) (clear : Prop) (symbol : Symbol) : Prop where
  dotted : symbol.Dotted
  isType : clear → ¬symbol.IsValue
  seen : clear → ∀ full, symbol.full? = some full → t.Seen path full

theorem Scope.find_ends {path : Path} {name : Name} {Q : Symbol → Prop}
    (hName : plain → ∃ key, name.key = .ok key) (hFound : ∀ q key n symbol, Sees path name q →
      name.key = .ok key → t.Entry q key n symbol → Q symbol) :
    Ends (fun f => ¬plain ∧ Fault.OfNames f) (fun symbols => ∀ symbol ∈ symbols, Q symbol)
      (t.find path name) := by
  cases hFind : t.find path name with
  | ok symbols =>
    intro symbol hs
    obtain ⟨q, key, n, hSees, hKey, hEntry⟩ := Scope.entry_of_mem_find hFind hs
    exact hFound q key n symbol hSees hKey hEntry
  | error f =>
    have hKey := Scope.key_of_find_fault hFind
    refine ⟨fun hp => ?_, .of_key hKey⟩
    obtain ⟨key, hOk⟩ := hName hp
    simp [hKey] at hOk

theorem Sound.find_root (h : Sound plain w) {text : Text} (hText : plain → Text.isDotted text)
    (path : Path) (clear : Prop) :
    Ends (fun f => ¬plain ∧ Fault.OfNames f)
      (fun symbols => ∀ symbol ∈ symbols,
        symbol.Keyed ∧ (plain → symbol.Means w.store.table path clear))
      (w.store.table.find [] (Name.ofText text)) := by
  refine Scope.find_ends (fun hp => ⟨_, (Name.dotted_ofText (hText hp)).key⟩)
    fun q key n symbol hSees _ hEntry => ⟨(h.table hEntry).keyed, fun hp => ?_⟩
  have hAway : ¬w.store.Hosted q := by
    have hHome := Scope.sees_root.1 hSees
    rintro ⟨_, _, hBody⟩
    exact not_inBody (hHome ▸ (Name.dotted_ofText (hText hp)).home (by simp)) hBody
  have hFit := h.table hEntry
  exact ⟨hFit.dotted hp, fun _ hValue => hAway (hFit.inside hp hValue), fun _ full hFull =>
    ((hFit.known hp full hFull).resolve_right fun hHosted => hAway hHosted.1).seen path⟩

theorem Sound.qualifyName_spec (h : Sound plain w) {path : Path} {space name : Text} {clear : Prop}
    (hKeyed : name.Keyed) (hSpace : plain → Text.Spaced space) (hName : plain → Text.isDotted name)
    (hTypes : plain → clear → ∀ {q key n symbol}, q <+: path →
      w.store.table.Entry q key n symbol → ¬symbol.IsValue)
    (hSeen : plain → clear → w.store.table.Seen path name) :
    Ends (fun f => ¬plain ∧ Fault.OfNames f)
      (fun full => full.Keyed ∧
        (plain → Text.isDotted full ∧ (clear → w.store.table.Seen path full)))
      (w.store.table.qualifyName (some path) space name) := by
  unfold Scope.qualifyName
  split
  · exact ⟨hKeyed, fun hp => ⟨hName hp, hSeen hp⟩⟩
  · rename_i hDot
    have hWord (hp : plain) : Text.isWord name := by
      refine Name.isWord_of_isDotted (hName hp) ?_
      rw [Name.ofText_of_not_mem (Name.not_mem_of_isDotted (hName hp)),
        Text.splitOn_of_not_mem (by simpa using hDot)]
      exact Bool.false_ne_true
    refine Ends.bind (P := fun symbols : List Symbol =>
      (∀ symbol ∈ symbols, symbol.Keyed ∧ (plain → symbol.Means w.store.table path clear)) ∧
        (plain → clear → symbols ≠ [])) ?_ fun symbols ⟨hSymbols, hFound⟩ => ?_
    · have hMeans : Ends (fun f => ¬plain ∧ Fault.OfNames f)
          (fun symbols => ∀ symbol ∈ symbols,
            symbol.Keyed ∧ (plain → symbol.Means w.store.table path clear))
          (w.store.table.find path (Name.ofText name)) := Scope.find_ends
        (fun hp => ⟨_, (Name.dotted_ofText (hName hp)).key⟩)
        fun q key n symbol hSees hKey hEntry => ⟨(h.table hEntry).keyed, fun hp => ?_⟩
      · change Ends _ _ (w.store.table.find path (Name.ofText name))
        cases hFind : w.store.table.find path (Name.ofText name) with
        | error f =>
          rw [hFind] at hMeans
          exact hMeans
        | ok symbols =>
          rw [hFind] at hMeans
          refine ⟨hMeans, fun hp hClear hNil => ?_⟩
          exact (hSeen hp hClear).find_ne_nil (hName hp) (hNil ▸ hFind)
      · have hFit := h.table hEntry
        rw [Name.ofText_of_isWord (hWord hp)] at hSees
        refine ⟨hFit.dotted hp, fun hClear => hTypes hp hClear hSees hEntry,
          fun hClear full hFull => ?_⟩
        obtain hTaken | ⟨_, hOwn⟩ := hFit.known hp full hFull
        · exact hTaken.seen path
        · rw [(Name.dotted_ofText (hName hp)).key, Name.ofText_of_isWord (hWord hp)] at hKey
          rw [← Key.plain.inj ((Except.ok.inj hKey).trans hOwn)]
          exact hSeen hp hClear
    · cases symbols with
      | nil =>
        refine ⟨?_, fun hp => ⟨?_, fun hClear => absurd rfl (hFound hp hClear)⟩⟩
        · split
          · exact hKeyed
          · exact hKeyed.qualified space
        split
        · exact hName hp
        · rename_i hNonempty
          have hSpaced := (hSpace hp).resolve_left (by simpa using hNonempty)
          exact Text.isDotted_append hSpaced (hName hp)
      | cons symbol rest =>
        refine Ends.bind
          (P := fun symbol => symbol.Keyed ∧ (plain → symbol.Means w.store.table path clear)) ?_
          fun symbol hSymbol => ?_
        · exact Scope.followAliases_spec
            (fun id target decl hAlias => h.find_root (fun hp => (hAlias.2 hp).dotted _ rfl) path clear)
            (hSymbols symbol List.mem_cons_self)
        · cases symbol with
          | named =>
            exact ⟨hKeyed, fun hp =>
              ⟨hName hp, fun hClear => absurd trivial ((hSymbol.2 hp).isType hClear)⟩⟩
          | _ =>
            exact ⟨hSymbol.1 _ rfl, fun hp =>
              ⟨(hSymbol.2 hp).dotted _ rfl, fun hClear => (hSymbol.2 hp).seen hClear _ rfl⟩⟩

/-- What is asked of the nodes of a tree that is revised from the number `low` on; `seen` says that
the types that it names are to be seen. -/
structure Node.Stays (plain : Plain) (h : Path) (K : Nat → Prop) (t : Scope) (seen : Prop) (low k : Nat)
    (n : Node Meta) : Prop where
  low : low ≤ k
  fit : n.Fit plain h K k
  resolves : plain → seen → n.Resolves t

theorem Node.Resolves.of_label {n n' : Node Meta} (h : n.Resolves t) (hLabel : n'.label = n.label)
    (hScope : n'.ann.scope = n.ann.scope) : n'.Resolves t := by
  cases n' with
  | spec s' =>
    cases s' with
    | simple m' name' args' =>
      cases n with
      | spec s =>
        cases s with
        | simple m name args =>
          obtain ⟨hText, path, hPath, hSeen⟩ := h
          obtain rfl : name' = name := Label.simple.inj hLabel
          exact ⟨hText, path, hScope.trans hPath, hSeen⟩
        | _ => cases hLabel
      | top t => cases t <;> cases hLabel
      | value v => cases v <;> cases hLabel
      | _ => cases hLabel
    | _ => trivial
  | _ => trivial

theorem Node.Stays.renewable (plain : Plain) (h : Path) (t : Scope) (seen : Prop) {K : Nat → Prop}
    {low : Nat} (hK : ∀ i, K i → i < low) :
    Renewable (Node.Stays plain h K t seen low) where
  mono hLe hn :=
    have hFit := (Node.Fit.renewable plain h hK).mono hLe ⟨hn.low, hn.fit⟩
    ⟨hFit.1, hFit.2, hn.resolves⟩
  renew hn hPlace hLabel hAnn :=
    have hFit := (Node.Fit.renewable plain h hK).renew ⟨hn.low, hn.fit⟩ ⟨hPlace.low, hPlace.fit⟩ hLabel
      hAnn
    ⟨hFit.1, hFit.2, fun hp hSeen => (hn.resolves hp hSeen).of_label hLabel
      (by rw [hAnn])⟩

theorem Discovering.qualifies (h : Discovering plain K T b r first w) (seen : Prop) :
    TypeSpec.Qualifies (Node.Stays plain r.scopePath K w.store.table seen w.store.next)
      (fun f => ¬plain ∧ Fault.OfNames f) w.store.table r.space := by
  intro k m name args hn
  obtain ⟨path, hScope, hInside⟩ := hn.fit.inside
  have hScope : m.scope = some path := hScope
  rw [hScope]
  have hSeen (hp : plain) (hs : seen) : w.store.table.Seen path name := by
    obtain ⟨_, q, hq, hResolved⟩ := hn.resolves hp hs
    exact Option.some.inj (hq.symm.trans hScope) ▸ hResolved
  refine (h.sound.qualifyName_spec hn.fit.keyed h.spaced hn.fit.worded
    (fun hp _ _ _ _ _ => h.not_isValue hp hInside) hSeen).mono fun full ⟨hKeyed, hFull⟩ k' args' hLe => ?_
  · have hLow := hn.low
    refine ⟨by omega, ⟨⟨path, rfl, hInside⟩, fun hi => ?_, Nat.lt_succ_self k', hKeyed,
      fun hp => (hFull hp).1⟩, fun hp hSeen => ⟨(hFull hp).1, path, rfl, (hFull hp).2 hSeen⟩⟩
    have : k' < w.store.next := h.low_next hi
    omega

/-- The tree `r'` can stand in the place of `r`: its nodes are those of `r` or have numbers from
`low` on, and all are in order if `k` is the next number. -/
structure Root.Replaces (plain : Plain) (K : Nat → Prop) (t : Scope) (seen : Prop) (low : Nat)
    (r : Root Meta) (k : Nat) (r' : Root Meta) : Prop where
  all : (Node.root r').All (Node.Stays plain r.scopePath K t seen low k)
  referrals : (Node.root r').referrals = (Node.root r).referrals
  same : r.Same low r'
  nodup : (Node.root r').ids.Nodup
  renews : Node.Renews low low k ((Node.root r).renewals Meta.id (.root r'))

namespace Root.Replaces

variable {t : Scope} {seen : Prop} {low k : Nat} {r' : Root Meta}

theorem resolves (h : r.Replaces plain K t seen low k r') (hp : plain) (hSeen : seen) :
    (Node.root r').All (Node.Resolves t) :=
  h.all.mono fun _ hn => hn.resolves hp hSeen

end Root.Replaces

theorem Underway.replace {low : Nat} {r' : Root Meta} (h : Underway plain K T b r first w)
    (hLow : ∀ d ∈ w.store.tops, d.id < low ∧ d.top.ann.id < low)
    (hUnits : ∀ u ∈ w.units, ∀ r, u.root = some r → r.top.ann.id < low)
    (hNew : r.Replaces plain K t seen low w.store.next r') :
    Underway plain K T b r' first { w with store := (w.store.setTop first r'.top).link (.root r') } := by
  have hFit : (Node.root r').All (Node.Fit plain r'.scopePath K w.store.next) := by
    rw [hNew.same.scopePath]
    exact hNew.all.mono fun _ hn => hn.fit
  have hTop : (Node.top r'.top).All (Node.Fit plain r'.scopePath K w.store.next) :=
    hFit.child (by simp [Node.children])
  obtain ⟨d, hd, hId, hTopId, hName⟩ := h.declared
  have hOnly {d' : Declared} (hd' : d' ∈ w.store.tops) (hEq : d'.id = first) : d' = d := by
    by_contra hNe
    exact (h.sound.apart.forall hd' hd hNe).ids (hEq.trans hId.symm)
  refine
    { low := h.low
      flying := hNew.same.fullName.symm ▸ h.flying
      absent := h.absent
      unread := hNew.referrals.symm ▸ h.unread
      spaced := hNew.same.space.symm ▸ h.spaced
      nodup := hNew.nodup
      linked := Store.linked_link _ hNew.nodup
      sound := ?_
      moves := (h.moves.setTop (fun d hd => (h.absent d hd).1) hTop.self.clear).link
        (List.forall_mem_map.2 fun n hn => (hFit n hn).clear)
      fit := hFit
      owned := fun d' hd' => ?_
      others := fun u hu r'' hr'' => ?_
      alone := hNew.same.scopePath.symm ▸ h.alone
      declared := ?_
      body := hNew.same.scopePath.symm ▸ hNew.referrals.symm ▸ h.body
      meant := hNew.referrals.symm ▸ h.meant }
  · refine (h.sound.setTop (hTop.mono fun _ hn => hn.high) (hTop.mono fun _ hn => hn.anchored)
      (fun d' hd' hEq => ?_) fun u hu hStatus r'' hr'' d' hd' hEq hOf => ?_).change (.link _ _)
    · obtain hSame | hGe := hNew.same.top
      · exact .inl (by rw [hSame, hOnly hd' hEq, hTopId])
      · exact .inr ⟨fun d'' hd'' => ⟨(hLow d'' hd'').1.trans_le hGe, (hLow d'' hd'').2.trans_le hGe⟩,
          fun u hu r'' hr'' => (hUnits u hu r'' hr'').trans_le hGe⟩
    · rw [hOnly hd' hEq] at hOf
      obtain ⟨_, _, hCompiling⟩ | ⟨hNe, hNe'⟩ := h.others u hu r'' hr''
      · simp [hStatus] at hCompiling
      · exact hOf.elim (fun hSame => hNe (hSame.symm.trans hId))
          fun hSame => hNe' (hSame.symm.trans hTopId)
  · obtain ⟨d'', hd'', rfl⟩ := List.mem_map.1 hd'
    split
    · exact .inr (.inl ‹_›)
    · exact h.owned d'' hd''
  · refine (h.others u hu r'' hr'').imp (fun ⟨hFirst, hFull, hStatus⟩ =>
      ⟨hFirst, hFull.trans hNew.same.fullName.symm, hStatus⟩) fun ⟨hNe, hNe'⟩ => ⟨hNe, ?_⟩
    obtain hSame | hGe := hNew.same.top
    · rwa [hSame]
    · exact ((hUnits u hu r'' hr'').trans_le hGe).ne
  · refine ⟨_, List.mem_map_of_mem hd, ?_⟩
    rw [if_pos hId]
    exact ⟨hId, rfl, hName.trans hNew.same.fullName.symm⟩

theorem Underway.declaredBy? (h : Underway plain K T b r first w) :
    ∃ d, w.store.declaredBy? r.top = some d ∧ d.id = first := by
  obtain ⟨d, hd, hId, hTopId, _⟩ := h.declared
  exact ⟨d, h.sound.declaredBy?_of_mem hd (.inr hTopId), hId⟩

theorem Check.update_spec {change : Revision (Root Meta)} (h : Underway plain K T b r first w)
    (hChange : (change r).Gives w.store.next (fun f => ¬plain ∧ Fault.OfNames f) fun new k =>
      r.Replaces plain K w.store.table seen w.store.next k (new.getD r)) :
    Leads (Check.update r change) w (Failing plain K b) fun r' w' =>
      Underway plain K T b r' first w' ∧ r'.fullName = r.fullName ∧
        (plain → seen → (Node.root r').All (Node.Resolves w'.store.table)) := by
  obtain ⟨hLe, hEnds⟩ := hChange
  have hLow : ∀ d ∈ w.store.tops, d.id < w.store.next ∧ d.top.ann.id < w.store.next :=
    fun d hd => ⟨(h.sound.tops d hd).id, (h.sound.tops d hd).top.self⟩
  have hUnits : ∀ u ∈ w.units, ∀ r, u.root = some r → r.top.ann.id < w.store.next :=
    fun u hu r hr => ((h.sound.roots u hu r hr).child (k := .top r.top)
      (by simp [Node.children])).self
  unfold Check.update Check.revise
  refine .bind (P := fun new w' => Underway plain K T b r first w' ∧
    w' = { w with store := { w.store with next := w'.store.next } } ∧
      r.Replaces plain K w.store.table seen w.store.next w'.store.next (Option.getD new r)) ?_
    fun new w₁ ⟨h₁, hSame, hNew⟩ => ?_
  · refine .bind (P := fun result w' => Underway plain K T b r first w' ∧
      w' = { w with store := { w.store with next := w'.store.next } } ∧
        Ends (fun f => ¬plain ∧ Fault.OfNames f) (fun new =>
          r.Replaces plain K w.store.table seen w.store.next w'.store.next (new.getD r)) result)
      (.fresh ⟨h.grow hLe, rfl, hEnds⟩) fun result w₁ ⟨h₁, hSame, hEnds⟩ => .orFault ?_
    cases result with
    | ok new => exact ⟨h₁, hSame, hEnds⟩
    | error f => exact ⟨hEnds.1, hEnds.2, h₁.sound, h₁.moves.vacuous hEnds.1⟩
  · have hTable : w₁.store.table = w.store.table := by rw [hSame]
    have hTops : w₁.store.tops = w.store.tops := by rw [hSame]
    have hSameUnits : w₁.units = w.units := by rw [hSame]
    cases new with
    | none => exact .pure ⟨h₁, rfl, hTable ▸ hNew.resolves⟩
    | some r' =>
      refine .bind (.modifyStore (Q := fun _ w' => Underway plain K T b r' first w' ∧
        w'.store.table = w.store.table) ?_) fun _ w₂ ⟨h₂, hTable₂⟩ =>
          .pure ⟨h₂, hNew.same.fullName, hTable₂ ▸ hNew.resolves⟩
      obtain ⟨d, hFind, rfl⟩ := h₁.declaredBy?
      rw [Store.renew_of_declared hFind]
      obtain ⟨hTable₂, hTops₂, -, hNext₂⟩ := w₁.store.inherit_frame (.root r) (.root r')
      have h₂ := h₁.inherit (fun i => h.low_next) (h.fit.mono fun _ hn => hn.high) hNew.renews.new
      exact ⟨h₂.replace (hTops₂.trans hTops ▸ hLow) (hSameUnits ▸ hUnits) (hNext₂ ▸ hNew),
        hTable₂.trans hTable⟩

theorem Root.qualify_spec (h : Discovering plain K T b r first w)
    (hSeen : plain → seen → (Node.root r).All (Node.Resolves w.store.table)) :
    Leads r.qualify w (Failing plain K b) fun r' w' => Underway plain K T b r' first w' ∧
      r'.fullName = r.fullName ∧
        (plain → seen → (Node.root r').All (Node.Resolves w'.store.table)) := by
  refine .traced (.bind (P := fun st w' => st = w.store ∧ w' = w) (.store ⟨rfl, rfl⟩)
    fun st w₁ ⟨hst, hw₁⟩ => ?_)
  subst hst hw₁
  have hStays : (Node.root r).All (Node.Stays plain r.scopePath K w₁.store.table seen w₁.store.next
      w₁.store.next) := fun n hn => ⟨Nat.le_refl _, h.fit n hn, fun hp hs => hSeen hp hs n hn⟩
  have hRenewable := Node.Stays.renewable plain r.scopePath w₁.store.table seen fun i => h.low_next
  have hNames : TypeSpec.Qualifies _ _ _ _ := h.qualifies seen
  refine Check.update_spec h.toUnderway ((Root.qualify?_recast (hStays.mono fun _ => hNames.faults)
    (h.fit.mono fun _ hn => hn.high)).mono fun new k _ hNew => ?_)
  exact ⟨hNew.all hRenewable (hNames.respelled hRenewable) hStays, hNew.referrals, hNew.same,
    hNew.drawn.nodup h.nodup h.below, hNew.renews⟩

theorem Root.flatten_spec (h : Underway plain K T b r first w)
    (hSeen : plain → seen → (Node.root r).All (Node.Resolves w.store.table)) :
    Leads r.flatten w (Failing plain K b) fun r' w' => Underway plain K T b r' first w' ∧
      r'.fullName = r.fullName ∧
        (plain → seen → (Node.root r').All (Node.Resolves w'.store.table)) := by
  have hRenewable := Node.Stays.renewable plain r.scopePath w.store.table seen fun i => h.low_next
  refine .traced (Check.update_spec h ((Root.flatten?_recast (h.fit.mono fun _ hn => hn.high)).mono
    fun new k _ hNew => ⟨hNew.all hRenewable (fun hn => hRenewable.renew hn hn) fun n hn => ?_,
      hNew.referrals, hNew.same, hNew.drawn.nodup h.nodup h.below, hNew.renews⟩))
  exact ⟨Nat.le_refl _, h.fit n hn, fun hp hs => hSeen hp hs n hn⟩

end Qualify

end Assay
