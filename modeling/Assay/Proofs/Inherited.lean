import Mathlib
import Assay.Proofs.Calls
import Assay.Proofs.Members

/-! Inherited methods. What each name promises is given by equations: a class promises its own methods
and what its supertype promises, an alias what its target does. Main result: the methods that are
found are the least solution of these equations, for all supertypes, in cycles too. A declaration that
is being resolved counts as one without methods, so it depends on the way to a name what is found under
it; but the shortest derivation of a signature never comes back to a declaration that it is on the way
from. -/

namespace Assay

mutual

/-- The signatures that a written type promises, if names promise those that `S` gives. -/
def TypeSpec.promises (S : Text → Set Text) : TypeSpec Meta → Set Text
  | .simple _ name _ => S name
  | .union _ types => promisedBySome S types
  | .inter _ types => {sig | types ≠ [] ∧ sig ∈ promisedByAll S types}
  | .func .. => ∅
  | .inferred _ => ∅

/-- The signatures that one of several written types promises. -/
def TypeSpec.promisedBySome (S : Text → Set Text) : List (TypeSpec Meta) → Set Text
  | [] => ∅
  | s :: rest => s.promises S ∪ promisedBySome S rest

/-- The signatures that each of several written types promises. -/
def TypeSpec.promisedByAll (S : Text → Set Text) : List (TypeSpec Meta) → Set Text
  | [] => Set.univ
  | s :: rest => s.promises S ∩ promisedByAll S rest

end

/-- The signatures that a declaration found from the scope at a path promises. The names of a supertype
are looked up in the scope of its class. -/
def TopLevel.promises (st : Store) (S : Path → Text → Set Text) (path : Path) :
    TopLevel Meta → Set Text
  | .ofClass d => {sig | sig ∈ Shape.signatures (Shape.classMembers st d)} ∪
    d.super.promises (S (d.ann.scope.getD path))
  | .ofType d => {sig | sig ∈ Shape.signatures (d.methods.map fun m => Shape.member m m.result)}

/-- The right sides of the equations for the signatures that names in scopes promise. -/
def Store.promises (st : Store) (S : Path → Text → Set Text) (path : Path) (name : Text) : Set Text :=
  match st.table.find path (Name.ofText name) with
  | .ok [.alias _ target _] => S [] target
  | .ok [.type _ (.declared id)] => (st.top? id).elim ∅ fun d => d.top.promises st S path
  | _ => ∅

section Equations

variable {st : Store} {sig : Text} {S S' : Text → Set Text}

mutual

theorem TypeSpec.promises_mono (h : ∀ name, sig ∈ S name → sig ∈ S' name) :
    (s : TypeSpec Meta) → sig ∈ s.promises S → sig ∈ s.promises S'
  | .simple _ name _, hSig => h name hSig
  | .union _ types, hSig => promisedBySome_mono h types hSig
  | .inter _ types, hSig => ⟨hSig.1, promisedByAll_mono h types hSig.2⟩

theorem TypeSpec.promisedBySome_mono (h : ∀ name, sig ∈ S name → sig ∈ S' name) :
    (types : List (TypeSpec Meta)) → sig ∈ promisedBySome S types → sig ∈ promisedBySome S' types
  | s :: rest, hSig => hSig.imp (promises_mono h s) (promisedBySome_mono h rest)

theorem TypeSpec.promisedByAll_mono (h : ∀ name, sig ∈ S name → sig ∈ S' name) :
    (types : List (TypeSpec Meta)) → sig ∈ promisedByAll S types → sig ∈ promisedByAll S' types
  | [], _ => trivial
  | s :: rest, hSig => hSig.imp (promises_mono h s) (promisedByAll_mono h rest)

end

theorem TopLevel.promises_mono {S S' : Path → Text → Set Text}
    (h : ∀ path name, sig ∈ S path name → sig ∈ S' path name) {path : Path} {top : TopLevel Meta}
    (hSig : sig ∈ top.promises st S path) : sig ∈ top.promises st S' path := by
  cases top with
  | ofClass d => exact hSig.imp_right (TypeSpec.promises_mono (h _) d.super)
  | ofType d => exact hSig

theorem TopLevel.promises_at {S : Path → Text → Set Text} {top : TopLevel Meta}
    (h : top.ann.scope.isSome) {p q : Path} : top.promises st S p = top.promises st S q := by
  cases top with
  | ofClass d =>
    obtain ⟨scope, hScope⟩ : ∃ scope, d.ann.scope = some scope := Option.isSome_iff_exists.1 h
    simp [promises, hScope]
  | ofType d => rfl

theorem Store.mem_promises {S : Path → Text → Set Text} {path : Path} {name : Text} :
    sig ∈ st.promises S path name ↔
      (∃ id target decl, st.table.find path (Name.ofText name) = .ok [.alias id target decl] ∧
        sig ∈ S [] target) ∨
      ∃ full id d, st.table.find path (Name.ofText name) = .ok [.type full (.declared id)] ∧
        st.top? id = some d ∧ sig ∈ d.top.promises st S path := by
  unfold promises
  split
  · rename_i hFind
    simp [hFind]
  · rename_i full id hFind
    cases hTop : st.top? id with
    | none => simp [hFind, hTop]
    | some d => simp [hFind, hTop]
  · rename_i hAlias hType
    refine ⟨False.elim, ?_⟩
    rintro (⟨id, target, decl, hFind, -⟩ | ⟨full, id, d, hFind, -⟩)
    · exact hAlias id target decl hFind
    · exact hType full id hFind

theorem Store.promises_mono (st : Store) : Monotone st.promises := by
  intro S S' h path name sig hSig
  obtain ⟨id, target, decl, hFind, hSig⟩ | ⟨full, id, d, hFind, hTop, hSig⟩ := mem_promises.1 hSig
  · exact mem_promises.2 (.inl ⟨id, target, decl, hFind, h _ _ hSig⟩)
  · exact mem_promises.2 (.inr ⟨full, id, d, hFind, hTop,
      TopLevel.promises_mono (fun _ _ hMem => h _ _ hMem) hSig⟩)

/-- The equations for the signatures that names in scopes promise. -/
def Store.inheritance (st : Store) : (Path → Text → Set Text) →o (Path → Text → Set Text) :=
  ⟨st.promises, st.promises_mono⟩

end Equations

namespace Scope

variable {t : Scope} {path : Path} {text target : Text} {id : Nat} {decl : Option (Node Meta)}

/-- A name that is looked up from the root is an alias of another one. -/
def Points (t : Scope) (text target : Text) : Prop :=
  ∃ id decl, t.find [] (Name.ofText text) = .ok [.alias id target decl]

theorem mem_spelled {f : Symbol → Option Text} {q : Path} {key : Key} {n : Text} {symbol : Symbol}
    (h : t.Entry q key n symbol) (hf : f symbol = some text) : text ∈ t.spelled f :=
  List.mem_filterMap.2 ⟨(n, symbol), mem_symbols_walk h, hf⟩

theorem mem_aliasTargets (h : t.find path (Name.ofText text) = .ok [.alias id target decl]) :
    target ∈ t.aliasTargets := by
  obtain ⟨q, key, n, _, _, hEntry⟩ := entry_of_mem_find h (List.mem_singleton_self _)
  exact mem_spelled hEntry rfl

theorem chase_of_alias (h : t.find path (Name.ofText text) = .ok [.alias id target decl])
    (steps : Nat) : t.chase (steps + 1) path text = t.chase steps [] target := by
  rw [chase, h]
  rfl

theorem chase_zero_of_alias (h : t.find path (Name.ofText text) = .ok [.alias id target decl]) :
    t.chase 0 path text = .error .exhausted := by
  rw [chase, h]
  rfl

/-- A name is that of an alias, or it does not matter how many aliases may be followed: it leads to the
symbol that it alone denotes, or to nothing, or it cannot be looked up. -/
theorem chase_cases (t : Scope) (path : Path) (text : Text) :
    (∃ id target decl, t.find path (Name.ofText text) = .ok [.alias id target decl]) ∨
    (∃ symbol, t.find path (Name.ofText text) = .ok [symbol] ∧
      ∀ steps, t.chase steps path text = .ok (some (symbol, path))) ∨
    (∃ symbols, t.find path (Name.ofText text) = .ok symbols ∧
      ∀ steps, t.chase steps path text = .ok none) ∨
    ∃ f, t.find path (Name.ofText text) = .error f ∧ ∀ steps, t.chase steps path text = .error f := by
  cases hFind : t.find path (Name.ofText text) with
  | error f =>
    refine .inr (.inr (.inr ⟨f, rfl, fun steps => ?_⟩))
    rw [chase, hFind]
    rfl
  | ok symbols =>
    rcases symbols with _ | ⟨symbol, _ | ⟨other, rest⟩⟩
    · refine .inr (.inr (.inl ⟨_, rfl, fun steps => ?_⟩))
      rw [chase, hFind]
      rfl
    · cases symbol with
      | «alias» id target decl => exact .inl ⟨id, target, decl, rfl⟩
      | _ =>
        refine .inr (.inl ⟨_, rfl, fun steps => ?_⟩)
        rw [chase, hFind]
        rfl
    · refine .inr (.inr (.inl ⟨_, rfl, fun steps => ?_⟩))
      rw [chase, hFind]
      cases symbol <;> rfl

/-- Where aliases lead in no circle, there is always a step left to follow the next one: the targets
`seen` on the way are different ones, of aliases in the table. -/
theorem chase_succ (hAcyclic : ∀ text, ¬Relation.TransGen t.Points text text) {steps : Nat}
    {text : Text} {seen : List Text} (hNodup : seen.Nodup) (hSeen : seen ⊆ t.aliasTargets)
    (hWay : ∀ x ∈ seen, Relation.ReflTransGen t.Points x text)
    (hSteps : t.aliasTargets.length ≤ seen.length + steps) :
    t.chase steps [] text ≠ .error .exhausted ∧ t.chase steps [] text = t.chase (steps + 1) [] text := by
  obtain ⟨id, target, decl, hFind⟩ | ⟨_, _, h⟩ | ⟨_, _, h⟩ | ⟨f, hFind, h⟩ := t.chase_cases [] text
  · have hPoints : t.Points text target := ⟨id, decl, hFind⟩
    have hNew : target ∉ seen := fun hMem => hAcyclic target (.tail' (hWay target hMem) hPoints)
    have hNodup' := List.nodup_cons.2 ⟨hNew, hNodup⟩
    have hSeen' := List.cons_subset.2 ⟨mem_aliasTargets hFind, hSeen⟩
    cases steps with
    | zero =>
      have hLength := (List.subperm_of_subset hNodup' hSeen').length_le
      rw [List.length_cons] at hLength
      omega
    | succ steps =>
      rw [chase_of_alias hFind, chase_of_alias hFind]
      refine chase_succ hAcyclic hNodup' hSeen' (List.forall_mem_cons.2 ⟨.refl, ?_⟩) ?_
      · exact fun x hx => (hWay x hx).tail hPoints
      · rw [List.length_cons]
        omega
  · simp [h]
  · simp [h]
  · rw [h, h]
    exact ⟨fun hEq => (Fault.OfNames.of_key (key_of_find_fault hFind)).1 (Except.error.inj hEq), rfl⟩

theorem acyclic_of_targets (h : ∀ target ∈ t.aliasTargets, (t.chase 0 [] target).toOption.isSome)
    (text : Text) : ¬Relation.TransGen t.Points text text := by
  intro hCircle
  obtain ⟨_, ⟨_, _, hFirst⟩, _⟩ := Relation.TransGen.head'_iff.1 hCircle
  obtain ⟨_, _, _, _, hLast⟩ := Relation.TransGen.tail'_iff.1 hCircle
  cases (chase_zero_of_alias hFirst ▸ h text (mem_aliasTargets hLast) :)

theorem means_of_alias (hAcyclic : ∀ text, ¬Relation.TransGen t.Points text text)
    (h : t.find path (Name.ofText text) = .ok [.alias id target decl]) :
    t.means path text = t.means [] target := by
  unfold means
  have hMem := mem_aliasTargets h
  cases hCount : t.aliasTargets.length with
  | zero => simp [List.eq_nil_of_length_eq_zero hCount] at hMem
  | succ steps =>
    rw [chase_of_alias h]
    exact (chase_succ hAcyclic (List.nodup_singleton target) (by simpa using hMem)
      (List.forall_mem_singleton.2 .refl) (by simp; omega)).2

/-- Where aliases lead in no circle, a name is followed to its end. -/
theorem means_ends (hAcyclic : ∀ text, ¬Relation.TransGen t.Points text text) (path : Path)
    (text : Text) : t.means path text ≠ .error .exhausted := by
  have hRoot (text : Text) : t.means [] text ≠ .error .exhausted :=
    (chase_succ hAcyclic List.nodup_nil (List.nil_subset _) (by simp) (Nat.le_add_left _ _)).1
  obtain ⟨id, target, decl, hFind⟩ | ⟨_, _, h⟩ | ⟨_, _, h⟩ | ⟨f, hFind, h⟩ := t.chase_cases path text
  · rw [means_of_alias hAcyclic hFind]
    exact hRoot target
  · simp [means, h]
  · simp [means, h]
  · rw [means, h]
    exact fun hEq => (Fault.OfNames.of_key (key_of_find_fault hFind)).1 (Except.error.inj hEq)

end Scope

/-- What resolving names relies on: names of types can be looked up, and types that are declared in
sources belong to top-level declarations, which have different names and their scopes. -/
structure Store.Anchored (st : Store) : Prop where
  named : ∀ d ∈ st.tops, d.name.Keyed
  keyed : ∀ {path key n symbol}, st.table.Entry path key n symbol → symbol.Keyed
  declared : ∀ {path key n full id}, st.table.Entry path key n (.type full (.declared id)) →
    ∃ d, st.top? id = some d ∧ d.name = full
  names : (st.tops.map (·.name)).Nodup
  trees : ∀ d ∈ st.tops, (Node.top d.top).All fun n => n.label.Keyed ∧ n.ann.scope.isSome

theorem Sound.anchored {plain : Plain} {w : World} (h : Sound plain w) : w.store.Anchored where
  named d hd := by
    obtain ⟨key, hKey, -⟩ := (h.tops d hd).found
    exact ⟨key, hKey⟩
  keyed hEntry := (h.table hEntry).keyed
  declared hEntry := by
    obtain ⟨d, hd, rfl, hName⟩ := (h.table hEntry).origin _ _ rfl
    obtain ⟨before, rest, hTops⟩ := List.append_of_mem hd
    have hApart := h.apart
    rw [hTops, List.pairwise_append] at hApart
    refine ⟨d, List.find?_eq_some_iff_append.2 ⟨by simp, before, rest, hTops, fun x hx => ?_⟩, hName⟩
    simpa using (hApart.2.2 x hx d List.mem_cons_self).ids
  names := h.topNames
  trees d hd := (h.tops d hd).tree

namespace Scope

variable {t : Scope} {path last : Path} {text full : Text} {id : Nat} {symbol : Symbol}

theorem chase_of_declared (h : t.find path (Name.ofText text) = .ok [.type full (.declared id)])
    (steps : Nat) : t.chase steps path text = .ok (some (.type full (.declared id), path)) := by
  rw [chase, h]
  rfl

/-- A name that means a symbol can be looked up, and the symbol is one of the table. -/
theorem of_chase {steps : Nat} {path : Path} {text : Text}
    (h : t.chase steps path text = .ok (some (symbol, last))) :
    text.Keyed ∧ ∃ q key n, t.Entry q key n symbol := by
  obtain ⟨id, target, decl, hFind⟩ | ⟨found, hFind, hChase⟩ | ⟨_, _, hChase⟩ | ⟨_, _, hChase⟩ :=
    t.chase_cases path text
  · cases steps with
    | zero => cases (chase_zero_of_alias hFind).symm.trans h
    | succ steps =>
      obtain ⟨_, key, _, _, hKey, _⟩ := entry_of_mem_find hFind (List.mem_singleton_self _)
      exact ⟨⟨key, hKey⟩, (of_chase ((chase_of_alias hFind steps).symm.trans h)).2⟩
  · cases (hChase steps).symm.trans h
    obtain ⟨q, key, n, _, hKey, hEntry⟩ := entry_of_mem_find hFind (List.mem_singleton_self _)
    exact ⟨⟨key, hKey⟩, q, key, n, hEntry⟩
  · cases (hChase steps).symm.trans h
  · cases (hChase steps).symm.trans h

theorem mem_typeNames (h : t.means path text = .ok (some (.type full (.declared id), last))) :
    full ∈ t.typeNames := by
  obtain ⟨-, _, _, _, hEntry⟩ := of_chase h
  exact mem_spelled hEntry rfl

end Scope

theorem Store.Anchored.exhausted_of_chase {st : Store} (hStore : st.Anchored) {steps : Nat}
    {path : Path} {text : Text} (h : text.Keyed) {f : Fault}
    (hFault : st.table.chase steps path text = .error f) : f = .exhausted := by
  obtain ⟨id, target, decl, hFind⟩ | ⟨_, _, hChase⟩ | ⟨_, _, hChase⟩ | ⟨f, hFind, _⟩ :=
    st.table.chase_cases path text
  · cases steps with
    | zero => exact (Except.error.inj ((Scope.chase_zero_of_alias hFind).symm.trans hFault)).symm
    | succ steps =>
      obtain ⟨_, _, _, _, _, hEntry⟩ := Scope.entry_of_mem_find hFind (List.mem_singleton_self _)
      rw [Scope.chase_of_alias hFind] at hFault
      exact exhausted_of_chase hStore (hStore.keyed hEntry _ rfl) hFault
  · cases (hChase steps).symm.trans hFault
  · cases (hChase steps).symm.trans hFault
  · obtain ⟨key, hKey⟩ := h
    cases (Scope.key_of_find_fault hFind).symm.trans hKey

theorem Store.Anchored.top?_of_means {st : Store} (hStore : st.Anchored) {id : Nat}
    {path last : Path} {name full : Text}
    (h : st.table.means path name = .ok (some (.type full (.declared id), last))) :
    ∃ d, st.top? id = some d ∧ d.name = full := by
  obtain ⟨-, _, _, _, hEntry⟩ := Scope.of_chase h
  exact hStore.declared hEntry

namespace Shape

variable {st : Store} {sig : Text}

def given (named : Path → Text → Except Fault Shape) (path : Path) (name : Text) : Set Text :=
  {sig | ∃ shape, named path name = .ok shape ∧ sig ∈ signatures shape.methods}

section Specs

variable {named : Path → Text → Except Fault Shape} {path : Path}

mutual

theorem mem_ofSpecBy : (s : TypeSpec Meta) → {shape : Shape} → ofSpecBy named path s = .ok shape →
    (sig ∈ signatures shape.methods ↔ sig ∈ s.promises (given named path))
  | .simple _ name _, shape, h => by
    rw [ofSpecBy] at h
    simp [TypeSpec.promises, given, h]
  | .union _ types, shape, h => by
    rw [ofSpecBy] at h
    cases hTypes : ofSpecsBy named path types with
    | error f => simp [hTypes] at h
    | ok shapes =>
      rw [hTypes] at h
      obtain rfl := Except.ok.inj h
      rw [mem_unionOf, TypeSpec.promises]
      exact (mem_ofSpecsBy types hTypes).1
  | .inter _ types, shape, h => by
    rw [ofSpecBy] at h
    cases hTypes : ofSpecsBy named path types with
    | error f => simp [hTypes] at h
    | ok shapes =>
      rw [hTypes] at h
      obtain rfl := Except.ok.inj h
      obtain ⟨_, hAll, hNil⟩ := mem_ofSpecsBy types hTypes
      rw [mem_interOf, TypeSpec.promises, hAll, ne_eq, hNil]
      rfl
  | .func .., shape, h => by
    rw [ofSpecBy] at h
    obtain rfl := Except.ok.inj h
    simp [TypeSpec.promises, methods, signatures]
  | .inferred _, shape, h => by
    rw [ofSpecBy] at h
    obtain rfl := Except.ok.inj h
    simp [TypeSpec.promises, methods, signatures]

theorem mem_ofSpecsBy : (types : List (TypeSpec Meta)) → {shapes : List Shape} →
    ofSpecsBy named path types = .ok shapes →
    ((∃ t ∈ shapes, sig ∈ signatures t.methods) ↔
      sig ∈ TypeSpec.promisedBySome (given named path) types) ∧
    ((∀ t ∈ shapes, sig ∈ signatures t.methods) ↔
      sig ∈ TypeSpec.promisedByAll (given named path) types) ∧
    (shapes = [] ↔ types = [])
  | [], shapes, h => by
    obtain rfl := Except.ok.inj h
    simp [TypeSpec.promisedBySome, TypeSpec.promisedByAll]
  | s :: rest, shapes, h => by
    rw [ofSpecsBy] at h
    cases hShape : ofSpecBy named path s with
    | error f =>
      rw [hShape] at h
      cases h
    | ok shape =>
      cases hRest : ofSpecsBy named path rest with
      | error f =>
        rw [hShape, hRest] at h
        cases h
      | ok others =>
        rw [hShape, hRest] at h
        obtain rfl := Except.ok.inj h
        obtain ⟨hSome, hAll, -⟩ := mem_ofSpecsBy rest hRest
        rw [TypeSpec.promisedBySome, TypeSpec.promisedByAll, Set.mem_union, Set.mem_inter_iff, ← hSome,
          ← hAll, ← mem_ofSpecBy s hShape]
        simp

end

mutual

theorem exists_name_of_fault {f : Fault} : (s : TypeSpec Meta) → ofSpecBy named path s = .error f →
    ∃ m name args, .spec (.simple m name args) ∈ (Node.spec s).nodes ∧ named path name = .error f
  | .simple m name args, h => by
    rw [ofSpecBy] at h
    exact ⟨m, name, args, Node.self_mem_nodes _, h⟩
  | .union _ types, h => by
    rw [ofSpecBy] at h
    cases hTypes : ofSpecsBy named path types with
    | ok shapes => simp [hTypes] at h
    | error f' =>
      rw [hTypes] at h
      cases h
      obtain ⟨s, hs, m, name, args, hMem, hName⟩ := exists_name_of_faults types hTypes
      refine ⟨m, name, args, Node.nodes_subset ?_ hMem, hName⟩
      exact Node.mem_nodes_of_child (Node.self_mem_nodes _) (List.mem_map_of_mem hs)
  | .inter _ types, h => by
    rw [ofSpecBy] at h
    cases hTypes : ofSpecsBy named path types with
    | ok shapes => simp [hTypes] at h
    | error f' =>
      rw [hTypes] at h
      cases h
      obtain ⟨s, hs, m, name, args, hMem, hName⟩ := exists_name_of_faults types hTypes
      refine ⟨m, name, args, Node.nodes_subset ?_ hMem, hName⟩
      exact Node.mem_nodes_of_child (Node.self_mem_nodes _) (List.mem_map_of_mem hs)
  | .func .., h => by simp [ofSpecBy] at h
  | .inferred _, h => by simp [ofSpecBy] at h

theorem exists_name_of_faults {f : Fault} : (types : List (TypeSpec Meta)) →
    ofSpecsBy named path types = .error f → ∃ s ∈ types, ∃ m name args,
      .spec (.simple m name args) ∈ (Node.spec s).nodes ∧ named path name = .error f
  | [], h => by simp [ofSpecsBy] at h
  | s :: rest, h => by
    rw [ofSpecsBy] at h
    cases hShape : ofSpecBy named path s with
    | error f' =>
      rw [hShape] at h
      cases h
      exact ⟨s, List.mem_cons_self, exists_name_of_fault s hShape⟩
    | ok shape =>
      cases hRest : ofSpecsBy named path rest with
      | ok shapes =>
        rw [hShape, hRest] at h
        cases h
      | error f' =>
        rw [hShape, hRest] at h
        cases h
        obtain ⟨s', hs', hName⟩ := exists_name_of_faults rest hRest
        exact ⟨s', List.mem_cons_of_mem _ hs', hName⟩

end

end Specs

section Names

variable {depth : Nat} {busy : List Text} {path last : Path} {name full : Text} {id : Nat}
  {d : Declared}

/-- The shape of a name that leads to a declaration has the signatures that the declaration promises,
unless that is being resolved already. -/
theorem mem_named_of_declared (hMeans : st.table.means path name = .ok (some (.type full (.declared id), last)))
    (hFree : full ∉ busy) (hTop : st.top? id = some d) {shape : Shape}
    (h : named st (depth + 1) busy path name = .ok shape) : sig ∈ signatures shape.methods ↔
      sig ∈ d.top.promises st (given (named st depth (full :: busy))) last := by
  change (st.table.means path name >>= _) = _ at h
  rw [hMeans] at h
  obtain ⟨i, declared, top⟩ := d
  simp only [bind, Except.bind, if_neg hFree, hTop] at h
  cases top with
  | ofType t =>
    obtain rfl := Except.ok.inj h
    rw [methods, mem_merge]
    simp [TopLevel.promises]
  | ofClass c =>
    cases hSpec : ofSpecBy (named st depth (full :: busy)) (c.ann.scope.getD last) c.super with
    | error f => simp [hSpec] at h
    | ok super =>
      simp only [hSpec] at h
      obtain rfl := Except.ok.inj h
      rw [methods, mem_merge]
      simp [TopLevel.promises, mem_ofSpecBy c.super hSpec]

theorem declared_or_named_empty (depth : Nat) (busy : List Text) {found : Option (Symbol × Path)}
    (hMeans : st.table.means path name = .ok found) :
    (∃ full id last, found = some (.type full (.declared id), last) ∧ full ∉ busy) ∨
      named st (depth + 1) busy path name = .ok .empty := by
  change _ ∨ (st.table.means path name >>= _) = _
  rw [hMeans]
  simp only [bind, Except.bind]
  split
  · rename_i full id last
    by_cases hFree : full ∉ busy
    · exact .inl ⟨full, id, last, rfl, hFree⟩
    · rw [if_pos (not_not.1 hFree)]
      exact .inr rfl
  · exact .inr rfl

theorem declared_of_given (hStore : st.Anchored)
    (h : sig ∈ given (named st (depth + 1) busy) path name) : ∃ full id last d,
      st.table.means path name = .ok (some (.type full (.declared id), last)) ∧
      full ∉ busy ∧ st.top? id = some d ∧
      sig ∈ d.top.promises st (given (named st depth (full :: busy))) last := by
  obtain ⟨shape, hNamed, hSig⟩ := h
  cases hMeans : st.table.means path name with
  | error f =>
    change (st.table.means path name >>= _) = _ at hNamed
    rw [hMeans] at hNamed
    cases hNamed
  | ok found =>
    obtain ⟨full, id, last, rfl, hFree⟩ | hEmpty := declared_or_named_empty depth busy hMeans
    · obtain ⟨d, hTop, -⟩ := hStore.top?_of_means hMeans
      exact ⟨full, id, last, d, rfl, hFree, hTop, (mem_named_of_declared hMeans hFree hTop hNamed).1 hSig⟩
    · cases hNamed.symm.trans hEmpty
      simp [methods, signatures] at hSig

theorem not_mem_named_zero : sig ∉ given (named st 0 busy) path name := by
  rintro ⟨shape, hNamed, -⟩
  cases hNamed

end Names

/-- The names of declarations that are not being resolved. -/
def idle (st : Store) (busy : List Text) : List Text :=
  st.table.typeNames.filter fun full => !busy.contains full

theorem length_idle_lt {busy : List Text} {full : Text} (hFull : full ∈ st.table.typeNames)
    (hBusy : full ∉ busy) : (idle st (full :: busy)).length < (idle st busy).length := by
  have hEq : idle st (full :: busy) = (idle st busy).filter (· ≠ full) := by
    rw [idle, idle, List.filter_filter]
    refine List.filter_congr fun x _ => ?_
    simp
  rw [hEq, List.length_filter_lt_length_iff_exists]
  exact ⟨full, List.mem_filter.2 ⟨hFull, by simpa using hBusy⟩, by simp⟩

section Acyclic

variable (hAcyclic : ∀ text, ¬Relation.TransGen st.table.Points text text)

include hAcyclic

/-- Where aliases lead in no circle, and more declarations may be open than are left, a name is resolved
to its end. In a store whose names can be looked up, each that can be looked up has a shape. -/
theorem named_fault {depth : Nat} {busy : List Text} {path : Path} {name : Text} {f : Fault}
    (hDepth : (idle st busy).length < depth) (h : named st depth busy path name = .error f) :
    f ≠ .exhausted ∧ (st.Anchored → ¬name.Keyed) := by
  induction depth generalizing busy path name with
  | zero => exact absurd hDepth (Nat.not_lt_zero _)
  | succ depth ih =>
    cases hMeans : st.table.means path name with
    | error f' =>
      change (st.table.means path name >>= _) = _ at h
      rw [hMeans] at h
      cases h
      have hEnds : f ≠ .exhausted := fun hEq => Scope.means_ends hAcyclic path name (hEq ▸ hMeans)
      exact ⟨hEnds, fun hStore hName => hEnds (hStore.exhausted_of_chase hName hMeans)⟩
    | ok found =>
      obtain ⟨full, id, last, rfl, hFree⟩ | hEmpty := declared_or_named_empty depth busy hMeans
      · have hIdle := length_idle_lt (Scope.mem_typeNames hMeans) hFree
        change (st.table.means path name >>= _) = _ at h
        rw [hMeans] at h
        simp only [bind, Except.bind, if_neg hFree] at h
        split at h
        · rename_i i declared c hTop
          cases hSpec : ofSpecBy (named st depth (full :: busy)) (c.ann.scope.getD last) c.super with
          | ok super =>
            simp only [hSpec] at h
            cases h
          | error f' =>
            simp only [hSpec] at h
            cases h
            obtain ⟨m, other, args, hMem, hOther⟩ := exists_name_of_fault c.super hSpec
            obtain ⟨hEnds, hNot⟩ := ih (by omega) hOther
            refine ⟨hEnds, fun hStore => absurd ?_ (hNot hStore)⟩
            have hTree := hStore.trees _ (List.mem_of_find?_eq_some hTop)
            exact (hTree.child (k := .spec c.super) (by simp [Node.children]) _ hMem).1
        · cases h
        · cases h
      · cases h.symm.trans hEmpty

theorem named_ok (hStore : st.Anchored) {depth : Nat} {busy : List Text}
    (hDepth : (idle st busy).length < depth) (path : Path) {name : Text} (hName : name.Keyed) :
    ∃ shape, named st depth busy path name = .ok shape := by
  cases h : named st depth busy path name with
  | ok shape => exact ⟨shape, rfl⟩
  | error f => exact absurd hName ((named_fault hAcyclic hDepth h).2 hStore)

theorem given_of_declared (hStore : st.Anchored) {depth id : Nat} {busy : List Text}
    {path last : Path} {name full : Text} {d : Declared} (hDepth : (idle st busy).length < depth + 1)
    (hMeans : st.table.means path name = .ok (some (.type full (.declared id), last)))
    (hFree : full ∉ busy) (hTop : st.top? id = some d)
    (hSig : sig ∈ d.top.promises st (given (named st depth (full :: busy))) last) :
    sig ∈ given (named st (depth + 1) busy) path name := by
  obtain ⟨shape, hNamed⟩ := named_ok hAcyclic hStore hDepth path (Scope.of_chase hMeans).1
  exact ⟨shape, hNamed, (mem_named_of_declared hMeans hFree hTop hNamed).2 hSig⟩

end Acyclic

/-- No name that leads to a declaration is ever given a signature. -/
def Denied (st : Store) (sig full : Text) : Prop :=
  ∀ {depth busy path name id last},
    st.table.means path name = .ok (some (.type full (.declared id), last)) →
    sig ∉ given (named st depth busy) path name

/-- A signature is still given while other declarations are being resolved, if these do not have it,
and as long as more declarations may be open than there are left. -/
theorem given_of_busy (hStore : st.Anchored)
    (hAcyclic : ∀ text, ¬Relation.TransGen st.table.Points text text) {depth depth' : Nat}
    {busy busy' : List Text} {path : Path} {name : Text}
    (hBusy : ∀ full ∈ busy', full ∈ busy ∨ Denied st sig full)
    (hDepth : (idle st busy').length < depth') (h : sig ∈ given (named st depth busy) path name) :
    sig ∈ given (named st depth' busy') path name := by
  induction depth generalizing depth' busy busy' path name with
  | zero => exact absurd h not_mem_named_zero
  | succ depth ih =>
    obtain ⟨full, id, last, d, hMeans, hFree, hTop, hSig⟩ := declared_of_given hStore h
    have hFree' : full ∉ busy' := fun hMem =>
      (hBusy full hMem).elim hFree fun hDenied => hDenied hMeans h
    have hIdle := length_idle_lt (Scope.mem_typeNames hMeans) hFree'
    obtain ⟨left, rfl⟩ := Nat.exists_eq_add_one_of_ne_zero (Nat.ne_zero_of_lt hDepth)
    refine given_of_declared hAcyclic hStore hDepth hMeans hFree' hTop
      (TopLevel.promises_mono (fun path name => ih ?_ (by omega)) hSig)
    exact List.forall_mem_cons.2 ⟨.inl List.mem_cons_self, fun other hOther =>
      (hBusy other hOther).imp_left (List.mem_cons_of_mem _)⟩

theorem promises_of_chase {S : Path → Text → Set Text} (hS : st.inheritance S ≤ S) {steps : Nat}
    {path last : Path} {name full : Text} {id : Nat} {d : Declared}
    (hChase : st.table.chase steps path name = .ok (some (.type full (.declared id), last)))
    (hTop : st.top? id = some d) (hSig : sig ∈ d.top.promises st S last) : sig ∈ S path name := by
  obtain ⟨i, target, decl, hFind⟩ | ⟨found, hFind, h⟩ | ⟨_, _, h⟩ | ⟨_, _, h⟩ :=
    st.table.chase_cases path name
  · cases steps with
    | zero => cases (Scope.chase_zero_of_alias hFind).symm.trans hChase
    | succ steps =>
      have hTarget := promises_of_chase hS ((Scope.chase_of_alias hFind steps).symm.trans hChase) hTop hSig
      exact hS _ _ (Store.mem_promises.2 (.inl ⟨i, target, decl, hFind, hTarget⟩))
  · cases (h steps).symm.trans hChase
    exact hS _ _ (Store.mem_promises.2 (.inr ⟨full, id, d, hFind, hTop, hSig⟩))
  · cases (h steps).symm.trans hChase
  · cases (h steps).symm.trans hChase

theorem given_le (hStore : st.Anchored) {S : Path → Text → Set Text} (hS : st.inheritance S ≤ S)
    (depth : Nat) (busy : List Text) : given (named st depth busy) ≤ S := by
  intro path name sig hSig
  induction depth generalizing busy path name with
  | zero => exact absurd hSig not_mem_named_zero
  | succ depth ih =>
    obtain ⟨full, id, last, d, hMeans, -, hTop, hSig⟩ := declared_of_given hStore hSig
    exact promises_of_chase hS hMeans hTop (TopLevel.promises_mono (ih _) hSig)

theorem length_idle_nil (st : Store) : (idle st []).length < st.table.typeNames.length + 1 :=
  Nat.lt_succ_of_le (List.length_filter_le ..)

theorem inheritance_given_le (hStore : st.Anchored)
    (hAcyclic : ∀ text, ¬Relation.TransGen st.table.Points text text) :
    st.inheritance (given (named st (st.table.typeNames.length + 1) [])) ≤
      given (named st (st.table.typeNames.length + 1) []) := by
  intro path name sig hSig
  obtain ⟨i, target, decl, hFind, hSig⟩ | ⟨full, id, d, hFind, hTop, hSig⟩ := Store.mem_promises.1 hSig
  · obtain ⟨full, id, last, d, hMeans, hFree, hTop, hSig⟩ := declared_of_given hStore hSig
    rw [← Scope.means_of_alias hAcyclic hFind] at hMeans
    exact given_of_declared hAcyclic hStore (length_idle_nil st) hMeans hFree hTop hSig
  -- If the name were not given the signature, no name of its declaration would be. So the signature
  -- would be given also while this is being resolved, and the name were given it nevertheless.
  have hMeans : st.table.means path name = _ := Scope.chase_of_declared hFind _
  by_contra hNot
  have hd := List.mem_of_find?_eq_some hTop
  have hName : d.name = full := by
    obtain ⟨d', hTop', hName⟩ := hStore.top?_of_means hMeans
    rwa [← Option.some.inj (hTop'.symm.trans hTop)]
  have hDepth : (idle st [full]).length < st.table.typeNames.length :=
    (length_idle_lt (Scope.mem_typeNames hMeans) List.not_mem_nil).trans_le (List.length_filter_le ..)
  have hDenied : Denied st sig full := by
    intro depth busy path' name' id' last hMeans' hGiven
    cases depth with
    | zero => exact not_mem_named_zero hGiven
    | succ depth =>
      obtain ⟨_, _, _, d', hSame, -, hTop', hSig'⟩ := declared_of_given hStore hGiven
      cases hSame.symm.trans hMeans'
      obtain ⟨_, hOther, hName'⟩ := hStore.top?_of_means hMeans'
      cases hOther.symm.trans hTop'
      obtain rfl : d' = d := List.inj_on_of_nodup_map hStore.names (List.mem_of_find?_eq_some hTop') hd
        (hName'.trans hName.symm)
      rw [TopLevel.promises_at (hStore.trees d' hd).self.2 (p := last) (q := path)] at hSig'
      refine hNot (given_of_declared hAcyclic hStore (length_idle_nil st) hMeans List.not_mem_nil hTop ?_)
      refine TopLevel.promises_mono (fun _ _ => given_of_busy hStore hAcyclic ?_ hDepth) hSig'
      exact List.forall_mem_singleton.2 (.inl List.mem_cons_self)
  refine hNot (given_of_declared hAcyclic hStore (length_idle_nil st) hMeans List.not_mem_nil hTop ?_)
  refine TopLevel.promises_mono (fun _ _ => given_of_busy hStore hAcyclic ?_ hDepth) hSig
  exact List.forall_mem_singleton.2 (.inr hDenied)

theorem methodSet_eq (st : Store) (name : Text) : methodSet st name =
    (named st (st.table.typeNames.length + 1) [] [] name).map fun shape => signatures shape.methods := by
  rw [methodSet, ofSpec, ofSpecBy]
  cases named st (st.table.typeNames.length + 1) [] [] name <;> rfl

theorem methodSet_ok (hStore : st.Anchored)
    (hAcyclic : ∀ text, ¬Relation.TransGen st.table.Points text text) {name : Text}
    (hName : name.Keyed) : ∃ shape, named st (st.table.typeNames.length + 1) [] [] name = .ok shape ∧
      methodSet st name = .ok (signatures shape.methods) := by
  obtain ⟨shape, hShape⟩ := named_ok hAcyclic hStore (length_idle_nil st) [] hName
  exact ⟨shape, hShape, by rw [methodSet_eq, hShape]; rfl⟩

end Shape

namespace Call

theorem anchored_after {config : Config} (hLoaders : ∀ l ∈ config.loaders, l.Standard)
    (calls : List Call) : (after calls (.start config)).store.Anchored := by
  have hStart : Settled (.of False) (State.start config).world :=
    .start (fun l hl => (hLoaders l hl).bare) fun _ _ _ _ _ _ => trivial
  exact (after_comes (fun h => False.elim h) hStart).settled.sound.anchored

/-- After any calls with the loaders of the runtime library and the host platform, unless aliases lead
in a circle: the names of declared types can be looked up, and the methods of a name that can be have
the signatures that it promises in the least solution of the equations of inheritance. -/
theorem methods_solve_inheritance {config : Config} (hLoaders : ∀ l ∈ config.loaders, l.Standard)
    (calls : List Call) {st : Store} (hst : st = (after calls (.start config)).store)
    (hAcyclic : ∀ text, ¬Relation.TransGen st.table.Points text text) :
    (∀ d ∈ st.tops, Text.Keyed d.name) ∧
    ∀ name : Text, name.Keyed → ∃ signatures, Shape.methodSet st name = .ok signatures ∧
      {sig | sig ∈ signatures} = OrderHom.lfp st.inheritance [] name := by
  have hStore : st.Anchored := hst ▸ anchored_after hLoaders calls
  have hLeast : OrderHom.lfp st.inheritance = Shape.given (Shape.named st (st.table.typeNames.length + 1) []) :=
    le_antisymm (OrderHom.lfp_le _ (Shape.inheritance_given_le hStore hAcyclic))
      (Shape.given_le hStore (OrderHom.map_lfp _).le _ _)
  refine ⟨hStore.named, fun name hName => ?_⟩
  obtain ⟨shape, hShape, hSet⟩ := Shape.methodSet_ok hStore hAcyclic hName
  refine ⟨_, hSet, ?_⟩
  rw [hLeast]
  ext sig
  simp [Shape.given, hShape]

/-- Two classes above each other, one of them through an intersection in a union. -/
theorem methods_solve_inheritance_in_cycle :
    let st := (after [add "p.A" "p" "A.th" "class A: B { m() { } }",
      add "p.B" "p" "B.th" "class B: (A & B) | A { n() { } }", compileAll] (.start .default)).store
    st.tops.map (·.name) = ["p.A", "p.B"] ∧
    (∀ text, ¬Relation.TransGen st.table.Points text text) ∧
    ∃ signatures, Shape.methodSet st "p.A" = .ok signatures ∧
      {sig | sig ∈ signatures} = OrderHom.lfp st.inheritance [] "p.A" := by
  intro st
  have hLoaders : ∀ l ∈ Config.default.loaders, l.Standard := by
    rintro l (_ | ⟨_, ⟨⟩⟩)
    trivial
  have hAcyclic : ∀ text, ¬Relation.TransGen st.table.Points text text :=
    Scope.acyclic_of_targets (by decide +kernel)
  obtain ⟨hKeyed, hLeast⟩ := methods_solve_inheritance hLoaders _ (rfl : st = _) hAcyclic
  exact ⟨by decide +kernel, hAcyclic, hLeast "p.A" (.of_isDotted (by decide +kernel))⟩

end Call

end Assay
