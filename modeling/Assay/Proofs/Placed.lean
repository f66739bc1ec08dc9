import Mathlib
import Assay.Check.Placement
import Assay.Proofs.Keys
import Assay.Proofs.Revised

/-! Trees in their scopes. A source and what it uses are in the scope of its full name; everything
else is in the body inside that scope, or deeper. -/

namespace Assay

variable {h : Path} {n : Node Meta} {K : Nat → Prop} {high : Nat}

def Meta.unplaced (m : Meta) : Meta := { m with scope := none }

section Unplaced

variable (path : Path)

mutual

theorem TypeSpec.unplaced_inScope : (s : TypeSpec Meta) →
    (s.map (Meta.inScope path)).map Meta.unplaced = s.map Meta.unplaced
  | .simple _ _ args => by
    rw [TypeSpec.map, TypeSpec.map, TypeSpec.mapList_unplaced args]
    rfl
  | .union _ types => by
    rw [TypeSpec.map, TypeSpec.map, TypeSpec.mapList_unplaced types]
    rfl
  | .inter _ types => by
    rw [TypeSpec.map, TypeSpec.map, TypeSpec.mapList_unplaced types]
    rfl
  | .func _ params result => by
    rw [TypeSpec.map, TypeSpec.map, TypeSpec.mapList_unplaced params,
      TypeSpec.unplaced_inScope result]
    rfl
  | .inferred _ => rfl

theorem TypeSpec.mapList_unplaced : (ss : List (TypeSpec Meta)) →
    TypeSpec.mapList Meta.unplaced (TypeSpec.mapList (Meta.inScope path) ss) =
      TypeSpec.mapList Meta.unplaced ss
  | [] => rfl
  | s :: rest => by
    rw [TypeSpec.mapList, TypeSpec.mapList, TypeSpec.unplaced_inScope s,
      TypeSpec.mapList_unplaced rest]
    rfl

end

theorem TypeParam.map_unplaced (ps : List (TypeParam Meta)) :
    (ps.map (TypeParam.map (Meta.inScope path))).map (TypeParam.map Meta.unplaced) =
      ps.map (TypeParam.map Meta.unplaced) := by
  rw [List.map_map]
  rfl

theorem Param.map_unplaced (ps : List (Param Meta)) :
    (ps.map (Param.map (Meta.inScope path))).map (Param.map Meta.unplaced) =
      ps.map (Param.map Meta.unplaced) := by
  rw [List.map_map]
  refine List.map_congr_left fun p _ => ?_
  simp only [Function.comp, Param.map, TypeSpec.unplaced_inScope path]
  rfl

theorem Signature.unplaced_inScope (s : Signature Meta) :
    (s.map (Meta.inScope path)).map Meta.unplaced = s.map Meta.unplaced := by
  simp only [Signature.map, TypeParam.map_unplaced path, Param.map_unplaced path,
    TypeSpec.unplaced_inScope path]
  rfl

end Unplaced

mutual

theorem Value.unplaced_place (path : Path) : (v : Value Meta) →
    (v.place path).map Meta.unplaced = v.map Meta.unplaced
  | .string .. => rfl
  | .number .. => rfl
  | .boolean .. => rfl
  | .nothing _ => rfl
  | .ident .. => rfl
  | .bind _ _ _ _ v => by
    rw [Value.place, Value.map, Value.map, TypeSpec.unplaced_inScope path,
      Value.unplaced_place path v]
    rfl
  | .assign _ _ v => by
    rw [Value.place, Value.map, Value.map, Value.unplaced_place path v]
    rfl
  | .assignMember _ receiver _ v => by
    rw [Value.place, Value.map, Value.map, Value.unplaced_place path receiver,
      Value.unplaced_place path v]
    rfl
  | .call _ _ _ args => by
    rw [Value.place, Value.map, Value.map, TypeSpec.mapList_unplaced path,
      Value.unplaced_placeAll path args]
    rfl
  | .nested _ outer inner => by
    rw [Value.place, Value.map, Value.map, Value.unplaced_place path outer,
      Value.unplaced_place path inner]
    rfl
  | .function _ _ _ _ body => by
    rw [Value.place, Value.map, Value.map, TypeParam.map_unplaced, Param.map_unplaced,
      TypeSpec.unplaced_inScope, Statement.unplaced_placeAll _ body]
    rfl

theorem Value.unplaced_placeAll (path : Path) : (vs : List (Value Meta)) →
    Value.mapList Meta.unplaced (Value.placeAll path vs) = Value.mapList Meta.unplaced vs
  | [] => rfl
  | v :: rest => by
    rw [Value.placeAll, Value.mapList, Value.mapList, Value.unplaced_place path v,
      Value.unplaced_placeAll path rest]

theorem Statement.unplaced_place (path : Path) : (s : Statement Meta) →
    (s.place path).map Meta.unplaced = s.map Meta.unplaced
  | ⟨_, v, _⟩ => by
    rw [Statement.place, Statement.map, Statement.map, Value.unplaced_place path v]
    rfl

theorem Statement.unplaced_placeAll (path : Path) : (ss : List (Statement Meta)) →
    Statement.mapList Meta.unplaced (Statement.placeAll path ss) =
      Statement.mapList Meta.unplaced ss
  | [] => rfl
  | s :: rest => by
    rw [Statement.placeAll, Statement.mapList, Statement.mapList, Statement.unplaced_place path s,
      Statement.unplaced_placeAll path rest]

end

theorem map_zipWith_of_left {α β γ δ : Type} {f : α → β → γ} {g : γ → δ} {g' : α → δ}
    {xs : List α} {ys : List β} (hLength : ys.length = xs.length) (h : ∀ x y, g (f x y) = g' x) :
    (xs.zipWith f ys).map g = xs.map g' := by
  induction xs generalizing ys with
  | nil => simp
  | cons x rest ih =>
    cases ys with
    | nil => simp at hLength
    | cons y ys =>
      simp only [List.zipWith_cons_cons, List.map_cons, h]
      rw [ih (by simpa using hLength)]

theorem length_methodScopeNames (names : List Text) :
    (methodScopeNames names).length = names.length :=
  List.length_mapIdx

theorem Attribute.unplaced_place (body : Path) (a : Attribute Meta) :
    (a.place body).map Meta.unplaced = a.map Meta.unplaced := by
  obtain ⟨m, mode, name, s, v⟩ := a
  simp only [Attribute.place, Attribute.map, TypeSpec.unplaced_inScope body]
  cases v with
  | none => rfl
  | some v => simp [Value.unplaced_place, Meta.inScope, Meta.unplaced]

theorem Method.unplaced_place (path : Path) (m : Method Meta) :
    (m.place path).map Meta.unplaced = m.map Meta.unplaced := by
  simp only [Method.place, Method.map, Signature.unplaced_inScope path,
    Statement.unplaced_placeAll]
  rfl

theorem TopLevel.unplaced_place (body : Path) (t : TopLevel Meta) :
    (t.place body).map Meta.unplaced = t.map Meta.unplaced := by
  cases t with
  | ofType d =>
    simp only [TopLevel.place, TopLevel.map, TypeParam.map_unplaced body,
      TypeSpec.unplaced_inScope body]
    rw [map_zipWith_of_left (by simp [length_methodScopeNames])
      fun s name => Signature.unplaced_inScope (body ++ [name]) s]
    rfl
  | ofClass d =>
    simp only [TopLevel.place, TopLevel.map, TypeParam.map_unplaced body,
      TypeSpec.unplaced_inScope body]
    rw [map_zipWith_of_left (by simp [length_methodScopeNames])
      fun m name => Method.unplaced_place (body ++ [name]) m, List.map_map]
    simp only [Function.comp_def, Attribute.unplaced_place]
    rfl

theorem Root.unplaced_place (r : Root Meta) :
    (Node.root r.place).map Meta.unplaced = (Node.root r).map Meta.unplaced := by
  simp only [Node.map, Root.place, Root.map, TopLevel.unplaced_place, List.map_map]
  rfl

namespace Node

/-- Where a node with the given label belongs if the scope of its source is at `h`. -/
def Label.InsideAt (h path : Path) : Label → Prop
  | .root _ => path = h
  | .use .. => path = h
  | .method => h ++ [bodyName] <+: path.dropLast
  | .signature .. => h ++ [bodyName] <+: path.dropLast
  | _ => h ++ [bodyName] <+: path

def Label.Worded : Label → Prop
  | .use source name => Text.isDotted source ∧ Text.isWord name
  | .typeDecl _ name | .classDecl _ name | .attribute _ name | .signature _ name | .param name
  | .typeParam name | .reference name _ | .bind _ name => Text.isWord name
  | .simple name => Text.isDotted name
  | _ => True

def Label.Keyed : Label → Prop
  | .use source _ => Text.Keyed source
  | .simple name => Text.Keyed name
  | _ => True

/-- A node is where it belongs if the scope of its source is at `h`. A method is named in the body,
and its own scope is inside. -/
def Inside (h : Path) (n : Node Meta) : Prop :=
  ∃ path, n.ann.scope = some path ∧
    match n with
    | .root _ => path = h
    | .use _ => path = h
    | .method _ => h ++ [bodyName] <+: path.dropLast
    | .signature _ => h ++ [bodyName] <+: path.dropLast
    | _ => h ++ [bodyName] <+: path

theorem Inside.of_label {n' : Node Meta} (hn : n.Inside h) (hLabel : n'.label = n.label)
    (hScope : n'.ann.scope = n.ann.scope) : n'.Inside h := by
  obtain ⟨path, hPath, hInside⟩ := hn
  refine ⟨path, hScope.trans hPath, ?_⟩
  have hIff (m : Node Meta) : (match m with
      | .root _ => path = h
      | .use _ => path = h
      | .method _ => h ++ [bodyName] <+: path.dropLast
      | .signature _ => h ++ [bodyName] <+: path.dropLast
      | _ => h ++ [bodyName] <+: path) ↔ m.label.InsideAt h path := by
    cases m with
    | top t => cases t <;> rfl
    | value v => cases v <;> rfl
    | spec s => cases s <;> rfl
    | _ => rfl
  rw [hIff] at hInside ⊢
  rwa [hLabel]

theorem worded_iff : n.Worded ↔ n.label.Worded := by
  cases n with
  | top t => cases t <;> rfl
  | value v => cases v <;> rfl
  | spec s => cases s <;> rfl
  | _ => rfl

theorem Worded.of_label {n' : Node Meta} (hn : n.Worded) (hLabel : n'.label = n.label) :
    n'.Worded := by
  rw [worded_iff] at hn ⊢
  rwa [hLabel]

theorem Worded.keyed (h : n.Worded) : n.label.Keyed := by
  rw [worded_iff] at h
  unfold Label.Keyed
  split
  · rename_i hLabel
    rw [hLabel] at h
    exact .of_isDotted h.1
  · rename_i hLabel
    rw [hLabel] at h
    exact .of_isDotted h
  · trivial

/-- A node of a source in the scope at `h`: its number is below `high`, and none of those that `K`
says are to be left alone; if `plain` holds, its names are words. -/
structure Fit (plain : Prop) (h : Path) (K : Nat → Prop) (high : Nat) (n : Node Meta) : Prop where
  inside : n.Inside h
  clear : ¬K n.ann.id
  high : n.ann.id < high
  keyed : n.label.Keyed
  worded : plain → n.Worded

theorem Fit.mono {plain : Prop} {high' : Nat} (hn : n.Fit plain h K high) (hLe : high ≤ high') :
    n.Fit plain h K high' :=
  { hn with high := Nat.lt_of_lt_of_le hn.high hLe }

theorem Fit.anchored {plain : Prop} (hn : n.Fit plain h K high) :
    n.label.Keyed ∧ n.ann.scope.isSome := by
  obtain ⟨path, hScope, _⟩ := hn.inside
  exact ⟨hn.keyed, by simp [hScope]⟩

theorem Fit.renewable (plain : Prop) (h : Path) {bound : Nat} (hK : ∀ id, K id → id < bound) :
    Renewable fun k n => bound ≤ k ∧ Fit plain h K k n where
  mono := fun hLe ⟨hBound, hn⟩ =>
    ⟨hBound.trans hLe, hn.mono hLe⟩
  renew := fun {k n place n'} ⟨hBound, hn⟩ _ hLabel hAnn => by
    have hId : n'.ann.id = k := congrArg Meta.id hAnn
    refine ⟨by omega, hn.inside.of_label hLabel (by rw [hAnn]), fun h => ?_, by omega,
      hLabel ▸ hn.keyed, fun hp => (hn.worded hp).of_label hLabel⟩
    have := hK _ h
    omega

end Node

theorem all_inScope {path : Path} (hPath : h ++ [bodyName] <+: path) (s : TypeSpec Meta) :
    (Node.spec (s.map (Meta.inScope path))).All (Node.Inside h) := by
  suffices ∀ n : Node Meta, ∀ s, n = .spec s → (n.map (Meta.inScope path)).All (Node.Inside h) from
    this _ s rfl
  intro n
  induction n using Node.induct with
  | _ n ih =>
    rintro s rfl
    rw [Node.all_iff, Node.children_map]
    refine ⟨⟨path, ?_, ?_⟩, ?_⟩
    · rw [Node.ann_map]
      rfl
    · exact hPath
    · intro k hk
      obtain ⟨j, hj, rfl⟩ := List.mem_map.1 hk
      obtain ⟨s', hs'⟩ := Node.exists_spec_of_mem_children hj
      exact ih j hj s' hs'

mutual

theorem Value.place_inside {h path : Path} (hPath : h ++ [bodyName] <+: path) :
    (v : Value Meta) → (Node.value (v.place path)).All (Node.Inside h)
  | .string .. | .number .. | .boolean .. | .nothing _ => by
    rw [Value.place, Node.all_iff]
    exact ⟨⟨path, rfl, hPath⟩, by simp [Node.children]⟩
  | .ident _ ref => by
    rw [Value.place, Node.all_iff]
    refine ⟨⟨path, rfl, hPath⟩, List.forall_mem_singleton.2 ?_⟩
    exact Node.all_iff.2 ⟨⟨path, rfl, hPath⟩, by simp [Node.children]⟩
  | .bind _ _ _ s v => by
    rw [Value.place, Node.all_iff]
    refine ⟨⟨path, rfl, hPath⟩, List.forall_mem_cons.2 ⟨all_inScope hPath s, ?_⟩⟩
    exact List.forall_mem_singleton.2 (Value.place_inside hPath v)
  | .assign _ ref v => by
    rw [Value.place, Node.all_iff]
    refine ⟨⟨path, rfl, hPath⟩, List.forall_mem_cons.2 ⟨?_, ?_⟩⟩
    · exact Node.all_iff.2 ⟨⟨path, rfl, hPath⟩, by simp [Node.children]⟩
    · exact List.forall_mem_singleton.2 (Value.place_inside hPath v)
  | .assignMember _ receiver ref v => by
    rw [Value.place, Node.all_iff]
    refine ⟨⟨path, rfl, hPath⟩, List.forall_mem_cons.2 ⟨Value.place_inside hPath receiver, ?_⟩⟩
    refine List.forall_mem_cons.2 ⟨?_, ?_⟩
    · exact Node.all_iff.2 ⟨⟨path, rfl, hPath⟩, by simp [Node.children]⟩
    · exact List.forall_mem_singleton.2 (Value.place_inside hPath v)
  | .call _ ref typeArgs args => by
    rw [Value.place, Node.all_iff]
    refine ⟨⟨path, rfl, hPath⟩, ?_⟩
    simp only [Node.children, List.forall_mem_append, List.forall_mem_cons, TypeSpec.mapList_eq,
      List.map_map, List.forall_mem_map]
    refine ⟨⟨?_, fun s _ => all_inScope hPath s⟩, Value.placeAll_inside hPath args⟩
    exact Node.all_iff.2 ⟨⟨path, rfl, hPath⟩, by simp [Node.children]⟩
  | .nested _ outer inner => by
    rw [Value.place, Node.all_iff]
    refine ⟨⟨path, rfl, hPath⟩, List.forall_mem_cons.2 ⟨Value.place_inside hPath outer, ?_⟩⟩
    exact List.forall_mem_singleton.2 (Value.place_inside hPath inner)
  | .function m typeParams params result body => by
    have hOwn : h ++ [bodyName] <+: path ++ [functionScopeName m.id] := hPath.trans (by simp)
    rw [Value.place, Node.all_iff]
    refine ⟨⟨_, rfl, hOwn⟩, ?_⟩
    simp only [Node.children, List.forall_mem_append, List.forall_mem_singleton, List.map_map,
      List.forall_mem_map]
    refine ⟨⟨⟨fun p _ => ?_, fun p _ => ?_⟩, all_inScope hOwn result⟩, ?_⟩
    · exact Node.all_iff.2 ⟨⟨_, rfl, hOwn⟩, by simp [Node.children]⟩
    · exact Node.all_iff.2 ⟨⟨_, rfl, hOwn⟩, List.forall_mem_singleton.2 (all_inScope hOwn p.spec)⟩
    · exact Statement.placeAll_inside (hOwn.trans (by simp)) body

theorem Value.placeAll_inside {h path : Path} (hPath : h ++ [bodyName] <+: path) :
    (vs : List (Value Meta)) →
    ∀ v ∈ Value.placeAll path vs, (Node.value v).All (Node.Inside h)
  | [] => by simp [Value.placeAll]
  | v :: rest => by
    rw [Value.placeAll]
    exact List.forall_mem_cons.2 ⟨Value.place_inside hPath v, Value.placeAll_inside hPath rest⟩

theorem Statement.placeAll_inside {h path : Path} (hPath : h ++ [bodyName] <+: path) :
    (ss : List (Statement Meta)) →
    ∀ s ∈ Statement.placeAll path ss, (Node.statement s).All (Node.Inside h)
  | [] => by simp [Statement.placeAll]
  | ⟨m, v, last⟩ :: rest => by
    rw [Statement.placeAll, Statement.place]
    refine List.forall_mem_cons.2 ⟨?_, Statement.placeAll_inside hPath rest⟩
    exact Node.all_iff.2 ⟨⟨path, rfl, hPath⟩,
      List.forall_mem_singleton.2 (Value.place_inside hPath v)⟩

end

theorem TypeParam.place_inside {path : Path} (hPath : h ++ [bodyName] <+: path) (p : TypeParam Meta) :
    (Node.typeParam (p.map (Meta.inScope path))).All (Node.Inside h) :=
  Node.all_iff.2 ⟨⟨path, rfl, hPath⟩, by simp [Node.children]⟩

theorem Signature.place_inside (name : Text) (s : Signature Meta) :
    (Node.signature (s.map (Meta.inScope (h ++ [bodyName] ++ [name])))).All (Node.Inside h) := by
  have hPath : h ++ [bodyName] <+: h ++ [bodyName] ++ [name] := by simp
  rw [Node.all_iff]
  refine ⟨⟨_, rfl, by simp⟩, ?_⟩
  simp only [Node.children, Signature.map, List.forall_mem_append, List.forall_mem_singleton,
    List.map_map, List.forall_mem_map]
  refine ⟨⟨fun p _ => TypeParam.place_inside hPath p, fun p _ => ?_⟩, all_inScope hPath s.result⟩
  exact Node.all_iff.2 ⟨⟨_, rfl, hPath⟩, List.forall_mem_singleton.2 (all_inScope hPath p.spec)⟩

theorem Method.place_inside (name : Text) (m : Method Meta) :
    (Node.method (m.place (h ++ [bodyName] ++ [name]))).All (Node.Inside h) := by
  rw [Node.all_iff]
  refine ⟨⟨_, rfl, by simp⟩, List.forall_mem_cons.2 ⟨Signature.place_inside name m.signature, ?_⟩⟩
  exact List.forall_mem_map.2 (Statement.placeAll_inside (by simp) m.body)

theorem Attribute.place_inside (a : Attribute Meta) :
    (Node.attribute (a.place (h ++ [bodyName]))).All (Node.Inside h) := by
  obtain ⟨m, mode, name, s, v⟩ := a
  rw [Node.all_iff]
  refine ⟨⟨_, rfl, List.prefix_refl _⟩, List.forall_mem_cons.2 ⟨?_, ?_⟩⟩
  · exact all_inScope (List.prefix_refl _) s
  · cases v with
    | none => simp [Attribute.place]
    | some v => exact List.forall_mem_singleton.2 (Value.place_inside (by simp) v)

theorem TopLevel.place_inside (t : TopLevel Meta) :
    (Node.top (t.place (h ++ [bodyName]))).All (Node.Inside h) := by
  have hMethods {α : Type} {names : List Text} {e : α → Node Meta} {f : α → Text → α}
      (hf : ∀ x name, (e (f x name)).All (Node.Inside h)) (xs : List α) :
      ∀ x ∈ xs.zipWith f names, (e x).All (Node.Inside h) := by
    intro x hx
    obtain ⟨i, hi, rfl⟩ := List.getElem_of_mem hx
    rw [List.getElem_zipWith]
    exact hf _ _
  have hPath := List.prefix_refl (h ++ [bodyName])
  rw [Node.all_iff]
  cases t with
  | ofType d =>
    refine ⟨⟨_, rfl, hPath⟩, ?_⟩
    simp only [TopLevel.place, Node.children, List.forall_mem_append, List.forall_mem_singleton,
      List.map_map, List.forall_mem_map]
    refine ⟨⟨fun p _ => TypeParam.place_inside hPath p, all_inScope hPath d.super⟩, ?_⟩
    exact hMethods (fun s name => Signature.place_inside name s) d.methods
  | ofClass d =>
    refine ⟨⟨_, rfl, hPath⟩, ?_⟩
    simp only [TopLevel.place, Node.children, List.forall_mem_append, List.forall_mem_singleton,
      List.map_map, List.forall_mem_map]
    refine ⟨⟨⟨fun p _ => TypeParam.place_inside hPath p, all_inScope hPath d.super⟩, ?_⟩, ?_⟩
    · exact fun a _ => Attribute.place_inside a
    · exact hMethods (fun m name => Method.place_inside name m) d.methods

theorem Root.place_inside (r : Root Meta) :
    (Node.root r.place).All (Node.Inside r.scopePath) := by
  rw [Node.all_iff]
  refine ⟨⟨_, rfl, rfl⟩, ?_⟩
  simp only [Root.place, Node.children, List.forall_mem_append, List.forall_mem_singleton,
    List.map_map, List.forall_mem_map]
  refine ⟨fun u _ => ?_, TopLevel.place_inside r.top⟩
  exact Node.all_iff.2 ⟨⟨_, rfl, rfl⟩, by simp [Node.children]⟩

namespace Node

variable {α β : Type}

theorem worded_map (f : α → β) (n : Node α) : (n.map f).Worded ↔ n.Worded := by
  cases n with
  | top t => cases t <;> exact Iff.rfl
  | value v => cases v <;> exact Iff.rfl
  | spec s => cases s <;> exact Iff.rfl
  | _ => exact Iff.rfl

def ids (n : Node Meta) : List Nat := n.nodes.map (·.ann.id)

theorem ids_eq (n : Node Meta) : n.ids = n.ann.id :: n.children.flatMap ids := by
  rw [ids, nodes_eq, List.map_cons, List.map_flatMap]
  rfl

theorem ids_unplaced (n : Node Meta) : (n.map Meta.unplaced).ids = n.ids := by
  rw [ids, ids, nodes_map, List.map_map]
  exact List.map_congr_left fun k _ => by simp [ann_map, Meta.unplaced]

theorem subperm_flatMap {γ δ : Type} {f g : γ → List δ} {xs : List γ}
    (h : ∀ x ∈ xs, (f x).Subperm (g x)) : (xs.flatMap f).Subperm (xs.flatMap g) := by
  induction xs with
  | nil => exact List.Subperm.refl _
  | cons x rest ih =>
    rw [List.flatMap_cons, List.flatMap_cons]
    exact (h x List.mem_cons_self).append (ih fun y hy => h y (List.mem_cons_of_mem _ hy))

theorem subperm_ids (n : Node Meta) : (n.referrals.map Prod.fst).Subperm n.ids := by
  induction n using induct with
  | _ n ih =>
    have hBelow := subperm_flatMap ih
    rw [referrals_eq, ids_eq, List.map_append, List.map_flatMap]
    -- A reference below the node refers to nothing, and its number is what the node refers to.
    have hCons {i : Nat} {rest : List (Node Meta)} {ref : Reference Meta} (hi : ref.ann.id = i)
        (hRest : n.children.Perm (.reference ref :: rest)) :
        ([i] ++ n.children.flatMap fun k => k.referrals.map Prod.fst).Subperm
          (n.ann.id :: n.children.flatMap ids) := by
      have hKids (k : Node Meta) (hk : k ∈ rest) : (k.referrals.map Prod.fst).Subperm k.ids :=
        ih k (hRest.mem_iff.2 (List.mem_cons_of_mem _ hk))
      refine List.Subperm.trans ?_ (List.sublist_cons_self _ _).subperm
      refine ((hRest.flatMap_right _).append_left _).subperm.trans
        (List.Subperm.trans ?_ (hRest.flatMap_right _).symm.subperm)
      rw [List.flatMap_cons, List.flatMap_cons, referrals_eq, ids_eq, ← hi]
      exact List.Subperm.append (List.Subperm.refl _) (subperm_flatMap hKids)
    by_cases hRefers : n.refers = []
    · rw [hRefers, List.map_nil, List.nil_append]
      exact hBelow.trans (List.sublist_cons_self _ _).subperm
    · unfold refers at hRefers
      split at hRefers
      · exact hCons rfl (.refl _)
      · exact hCons rfl (.refl _)
      · exact hCons rfl (List.Perm.swap _ _ _)
      · exact hCons rfl (.refl _)
      · exact absurd rfl hRefers

theorem exists_of_mem_referrals {id : Nat} {role : Role} (h : (id, role) ∈ n.referrals) :
    ∃ k ∈ n.nodes, k.ann.id = id :=
  List.mem_map.1 ((subperm_ids n).subset (List.mem_map_of_mem h))

def ReferOnce (n : Node Meta) : Prop :=
  ∀ id a b, (id, a) ∈ n.referrals → (id, b) ∈ n.referrals → a = b

theorem referOnce_of_nodup (h : n.ids.Nodup) : n.ReferOnce := by
  intro id a b ha hb
  have hFst : (n.referrals.map Prod.fst).Nodup := by
    obtain ⟨l, hPerm, hSub⟩ := subperm_ids n
    exact hPerm.nodup_iff.1 (h.sublist hSub)
  exact congrArg Prod.snd (List.inj_on_of_nodup_map hFst ha hb rfl)

end Node

theorem Root.read_spec {fs fs' : Files} {space path text : Text} {next next' : Nat}
    {result : Except Misread (Root Meta)}
    (h : Root.read fs space path text next = (fs', result, next')) :
    fs' = fs.add path text ∧ next ≤ next' ∧ ∀ r, result = .ok r →
      r.space = space ∧ Span next next' (Node.root r).ids ∧ (Node.root r).All Node.Worded := by
  unfold Root.read at h
  simp only at h
  split at h
  · rename_i root next'' hParse
    obtain ⟨hSpace, hSpan, hWorded⟩ := Root.parse_spec space text next _ hParse
    simp only [Prod.mk.injEq] at h
    obtain ⟨rfl, rfl, rfl⟩ := h
    refine ⟨rfl, hSpan.le, fun r hr => ?_⟩
    obtain rfl := Except.ok.inj hr
    refine ⟨hSpace, ?_, ?_⟩
    · have hIds : (Node.root (root.map (Extent.place (fs.add path text) fs.size))).ids =
          (Node.root root).extentIds := by
        change ((Node.root root).map _).ids = _
        rw [Node.ids, Node.nodes_map, List.map_map, Node.extentIds]
        exact List.map_congr_left fun k _ => by simp [Node.ann_map, Extent.place]
      rw [hIds]
      exact hSpan
    · change ((Node.root root).map _).All _
      rw [Node.all_map]
      exact hWorded.mono fun k hk => (Node.worded_map _ k).2 hk
  · simp only [Prod.mk.injEq] at h
    obtain ⟨rfl, rfl, rfl⟩ := h
    exact ⟨rfl, Nat.le_refl _, by simp⟩

theorem Root.parse_of_read {fs fs' : Files} {space path text : Text} {next next' : Nat}
    {result : Except Misread (Root Meta)}
    (h : Root.read fs space path text next = (fs', result, next')) :
    (∀ r, result = .ok r → ∃ root, Root.parse space text next = .ok (root, next') ∧
      r = root.map (Extent.place fs' fs.size)) ∧
    ∀ m, result = .error m → ∃ e, Root.parse space text next = .error e := by
  unfold Root.read at h
  simp only at h
  split at h
  · rename_i root next'' hParse
    simp only [Prod.mk.injEq] at h
    obtain ⟨rfl, rfl, rfl⟩ := h
    exact ⟨fun r hr => ⟨root, hParse, (Except.ok.inj hr).symm⟩, by simp⟩
  · rename_i e hParse
    simp only [Prod.mk.injEq] at h
    obtain ⟨rfl, rfl, rfl⟩ := h
    exact ⟨by simp, fun _ _ => ⟨e, hParse⟩⟩

theorem Root.fullName_map {α β : Type} (f : α → β) (r : Root α) : (r.map f).fullName = r.fullName := by
  cases r with
  | mk ann space uses top => cases top <;> rfl

theorem Root.ids_place (r : Root Meta) : (Node.root r.place).ids = (Node.root r).ids := by
  rw [← Node.ids_unplaced, Root.unplaced_place, Node.ids_unplaced]

theorem Root.place_spec {r : Root Meta} {low : Nat} (plain : Prop) (hK : ∀ id, K id → id < low)
    (hSpan : Span low high (Node.root r).ids) (hWorded : (Node.root r).All Node.Worded) :
    (Node.root r.place).All (Node.Fit plain r.scopePath K high) := by
  have hWords : (Node.root r.place).All Node.Worded := by
    have : ((Node.root r.place).map Meta.unplaced).All Node.Worded := by
      rw [Root.unplaced_place, Node.all_map]
      exact hWorded.mono fun k hk => (Node.worded_map _ k).2 hk
    rw [Node.all_map] at this
    exact this.mono fun k hk => (Node.worded_map _ k).1 hk
  intro k hk
  have hId := hSpan.mem k.ann.id (r.ids_place ▸ List.mem_map_of_mem hk)
  refine ⟨Root.place_inside r k hk, fun h => ?_, hId.2,
    (hWords k hk).keyed, fun _ => hWords k hk⟩
  have := hK _ h
  omega

end Assay
