import Mathlib
import Assay.Check.Placement
import Assay.Proofs.Recast
import Assay.Proofs.Renewed

/-! What a revision keeps of a tree. Nodes that are built anew get numbers from the counter on, and
are otherwise as the nodes in whose places they stand; references are never built anew. -/

namespace Assay

variable {k : Nat} {r r' : Root Meta} {n : Node Meta}

namespace Node

/-- What a reference is for: a call is for a method with as many parameters as it has arguments. -/
inductive Role where
  | name
  | assignment
  | call (args : Nat)

/-- The name under which what a reference is for is looked up. -/
def Role.spell : Role → Text → Text
  | .call args, base => callName base args
  | _, base => base

/-- The number and the role of the reference that a value has itself. -/
def refers : Node Meta → List (Nat × Role)
  | .value (.ident _ ref) => [(ref.ann.id, .name)]
  | .value (.assign _ ref _) => [(ref.ann.id, .assignment)]
  | .value (.assignMember _ _ ref _) => [(ref.ann.id, .name)]
  | .value (.call _ ref _ args) => [(ref.ann.id, .call args.length)]
  | _ => []

def referrals (n : Node Meta) : List (Nat × Role) := n.nodes.flatMap refers

theorem referrals_eq (n : Node Meta) :
    n.referrals = n.refers ++ n.children.flatMap referrals := by
  rw [referrals, nodes_eq, List.flatMap_cons, List.flatMap_assoc]
  rfl

/-- What a node with the given label and children refers to. -/
def Label.refers (label : Label) (kids : List (Node Meta)) : List (Nat × Role) :=
  let ids := (kids.filterMap reference?).map (·.ann.id)
  match label with
  | .ident => ids.map (·, .name)
  | .assign => ids.map (·, .assignment)
  | .assignMember => ids.map (·, .name)
  | .call => ids.map (·, .call (kids.filterMap value?).length)
  | _ => []

theorem refers_eq (n : Node Meta) : n.refers = n.label.refers n.children := by
  cases n with
  | top t => cases t <;> rfl
  | value v =>
    cases v with
    | call m ref typeArgs args =>
      simp [refers, Label.refers, label, children, List.filterMap_map, List.filterMap_cons,
        Function.comp_def, reference?, value?]
    | _ => rfl
  | spec s => cases s <;> rfl
  | _ => rfl

end Node

/-- `P k` says of nodes, as long as `k` is the next number, what is also true of a node that says the
same under that number, in the position of one of them. -/
structure Renewable (P : Nat → Node Meta → Prop) : Prop where
  mono : ∀ {k k' n}, k ≤ k' → P k n → P k' n
  renew : ∀ {k n place n'}, P k n → P k place → n'.label = n.label →
    n'.ann = { n.ann with id := k, position := place.ann.position } → P (k + 1) n'

namespace Node

theorem mem_gather {splices : Bool} {j : Node Meta} {kids : List (Node Meta)}
    (h : j ∈ n.gather splices kids) : j ∈ kids ∨ ∃ i ∈ kids, j ∈ i.children := by
  unfold gather at h
  split at h
  · obtain ⟨i, hi, hj⟩ := List.mem_flatMap.1 (Text.mem_of_mem_dedupBy h)
    split at hj
    · exact .inr ⟨i, hi, hj⟩
    · exact .inl (List.mem_singleton.1 hj ▸ hi)
  · exact .inl h

theorem referrals_spec (s : TypeSpec Meta) : (Node.spec s).referrals = [] := by
  refine List.flatMap_eq_nil_iff.2 fun k hk => ?_
  obtain ⟨s', rfl⟩ := spec_of_mem_nodes hk
  rfl

theorem Recast.all {P : Nat → Node Meta → Prop} {E : Node Meta → Label → Prop} {splices c : Bool}
    {k' : Nat} {ns ns' : List (Node Meta)} (hP : Renewable P)
    (hE : ∀ {k n n'}, P k n → E n n'.label → n'.ann = { n.ann with id := k } → P (k + 1) n')
    (h : Recast E splices k ns ns' c k') (hns : ∀ n ∈ ns, n.All (P k)) :
    ∀ n ∈ ns', n.All (P k') := by
  have hLater {k k' : Nat} {n : Node Meta} (hLe : k ≤ k') (hn : n.All (P k)) : n.All (P k') :=
    hn.mono fun _ => hP.mono hLe
  have hGather {n j : Node Meta} {kids : List (Node Meta)} {k : Nat}
      (hKids : ∀ i ∈ kids, i.All (P k)) (hj : j ∈ n.gather splices kids) : j.All (P k) := by
    obtain hj | ⟨i, hi, hj⟩ := mem_gather hj
    · exact hKids j hj
    · exact (hKids i hi).child hj
  induction h with
  | nil => exact hns
  | append hx hy ihx ihy =>
    obtain ⟨hxs, hys⟩ := List.forall_mem_append.1 hns
    exact List.forall_mem_append.2 ⟨fun n hn => hLater hy.le (ihx hxs n hn),
      ihy fun n hn => hLater hx.le (hys n hn)⟩
  | kept _ _ hKids _ => exact fun n hn => hLater hKids.le (hns n hn)
  | @rebuilt k _ n n' _ _ hLabel hAnn hKids hChildren _ _ ih =>
    have hn := List.forall_mem_singleton.1 hns
    refine List.forall_mem_singleton.2 (all_iff.2 ⟨?_, fun j hj => ?_⟩)
    · exact hE (hP.mono hKids.le hn.self) hLabel hAnn
    · exact hLater (Nat.le_succ _) (hGather (ih fun j hj => hn.child hj) (hChildren ▸ hj))
  | @one k _ n n' part _ _ _ hKids hOne _ hLabel hChildren hAnn ih =>
    have hn := List.forall_mem_singleton.1 hns
    have hPart := hGather (ih fun j hj => hn.child hj) (hOne ▸ List.mem_singleton_self part)
    refine List.forall_mem_singleton.2 (all_iff.2 ⟨?_, fun j hj => ?_⟩)
    · exact hP.renew hPart.self (hP.mono hKids.le hn.self) hLabel hAnn
    · exact hLater (Nat.le_succ _) (hPart.child (hChildren ▸ hj))

end Node

namespace TypeSpec

variable {P : Nat → Node Meta → Prop} {F : Fault → Prop} {table : Scope} {space : Text}

/-- The full form of a name of a type satisfies `P` in its place, and the fault that there may be
instead satisfies `F`. -/
def Qualifies (P : Nat → Node Meta → Prop) (F : Fault → Prop) (table : Scope) (space : Text) :
    Prop :=
  ∀ {k m name args}, P k (.spec (.simple m name args)) →
    Ends F (fun full => ∀ k' args', k ≤ k' →
      P (k' + 1) (.spec (.simple { m with id := k' } full args')))
      (table.qualifyName m.scope space name)

theorem eq_simple_of_label {name : Text} (h : n.label = .simple name) :
    ∃ args, n = .spec (.simple n.ann name args) := by
  cases n with
  | spec s => cases s <;> cases h; exact ⟨_, rfl⟩
  | top t => cases t <;> cases h
  | value v => cases v <;> cases h
  | _ => cases h

theorem Qualifies.faults (h : Qualifies P F table space) (hn : P k n) : Faults table space F n := by
  intro name hName
  obtain ⟨args, hEq⟩ := eq_simple_of_label hName
  exact (h (hEq ▸ hn)).mono fun _ _ => trivial

theorem Qualifies.respelled (hP : Renewable P) (h : Qualifies P F table space) {n' : Node Meta}
    (hn : P k n) (hLabel : Respelled table space n n'.label)
    (hAnn : n'.ann = { n.ann with id := k }) : P (k + 1) n' := by
  unfold Respelled at hLabel
  split at hLabel
  · rename_i name hName
    obtain ⟨full, hFull, hFullName⟩ := hLabel
    obtain ⟨args, hEq⟩ := eq_simple_of_label hName
    obtain ⟨args', hEq'⟩ := eq_simple_of_label hFullName
    have hEnds := h (hEq ▸ hn)
    rw [hFull] at hEnds
    rw [hEq', hAnn]
    exact hEnds k args' (Nat.le_refl k)
  · exact hP.renew hn hn hLabel hAnn

end TypeSpec

section Revise

variable {E : Node Meta → Node.Label → Prop} {splices : Bool} {F : Fault → Prop}
  {f : Revision (TypeSpec Meta)}

namespace Node

theorem mem_nodes_of_mem_specs {s : TypeSpec Meta} (h : s ∈ n.specs) : .spec s ∈ n.nodes := by
  induction n using Node.induct with
  | _ n ih =>
    cases hn : n.spec? with
    | none =>
      rw [specs_eq hn, List.mem_flatMap] at h
      obtain ⟨j, hj, h⟩ := h
      rw [nodes_eq]
      exact List.mem_cons_of_mem _ (List.mem_flatMap.2 ⟨j, hj, ih j hj h⟩)
    | some s' =>
      cases n with
      | spec s'' =>
        rw [specs_spec, List.mem_singleton] at h
        exact h ▸ self_mem_nodes _
      | _ => cases hn

namespace Rewritten

variable {k k' : Nat} {ns : List (Node Meta)} {news : List (Option (Node Meta))}

theorem children_ne_nil (h : Rewritten f k ns news k') (hSome : ∃ new ∈ news, new ≠ none) :
    ns ≠ [] := by
  rintro rfl
  cases h
  simp at hSome

theorem filterMap_reference? (h : Rewritten f k ns news k') :
    (patch ns news).filterMap reference? = ns.filterMap reference? := by
  induction h with
  | nil => rfl
  | @spec _ _ _ s image _ _ _ _ ih =>
    cases image <;> exact ih
  | kept _ _ _ _ _ ih =>
    rw [patch_cons, Option.getD_none, List.filterMap_cons, List.filterMap_cons, ih]
  | @rebuilt _ _ _ n n' _ _ _ hn hKids hSome hLabel _ _ _ _ ih =>
    have hNone : n.reference? = none := by
      cases n with
      | reference r => exact absurd rfl (hKids.children_ne_nil hSome)
      | _ => rfl
    have hNone' : n'.reference? = none := by
      have hIs : n'.reference?.isSome = false := by
        rw [← isReference_label, hLabel, isReference_label, hNone]
        rfl
      simpa using hIs
    rw [patch_cons, Option.getD_some, List.filterMap_cons_none hNone',
      List.filterMap_cons_none hNone]
    exact ih

theorem length_filterMap_value? (h : Rewritten f k ns news k') :
    ((patch ns news).filterMap value?).length = (ns.filterMap value?).length := by
  rw [List.length_filterMap_eq_countP, List.length_filterMap_eq_countP]
  induction h with
  | nil => rfl
  | @spec _ _ _ s image _ _ _ _ ih =>
    cases image <;> exact ih
  | kept _ _ _ _ _ ih =>
    rw [patch_cons, Option.getD_none, List.countP_cons, List.countP_cons]
    exact congrArg (· + _) ih
  | rebuilt _ _ _ hLabel _ _ _ _ ih =>
    rw [patch_cons, Option.getD_some, List.countP_cons, List.countP_cons,
      ← isValue_label, hLabel, isValue_label]
    exact congrArg (· + _) ih

theorem refers {n' : Node Meta} {kids : List (Option (Node Meta))}
    (h : Rewritten f k n.children kids k') (hLabel : n'.label = n.label)
    (hChildren : n'.children = patch n.children kids) : n'.refers = n.refers := by
  rw [refers_eq, refers_eq n, hLabel, hChildren]
  unfold Label.refers
  rw [h.filterMap_reference?, h.length_filterMap_value?]

theorem referrals (h : Rewritten f k ns news k') :
    (patch ns news).flatMap Node.referrals = ns.flatMap Node.referrals := by
  induction h with
  | nil => rfl
  | @spec _ _ _ s image _ _ _ _ ih =>
    rw [patch_cons, getD_map_spec, List.flatMap_cons, List.flatMap_cons, referrals_spec,
      referrals_spec, ih]
  | kept _ _ _ _ _ ih => rw [patch_cons, List.flatMap_cons, List.flatMap_cons, ih]; rfl
  | @rebuilt _ _ _ n n' _ _ _ _ hKids _ hLabel _ hChildren _ ihKids ih =>
    rw [patch_cons, Option.getD_some, List.flatMap_cons, List.flatMap_cons, ih, referrals_eq n',
      hKids.refers hLabel hChildren, hChildren, ihKids, ← referrals_eq]

end Rewritten

end Node

/-- What a revision of a source from the number `k` on leaves as it is: its namespace, what it uses,
the scope it is in and the name of what it declares; and the declaration is the same, or has a new
number. -/
structure Root.Same (k : Nat) (r r' : Root Meta) : Prop where
  space : r'.space = r.space
  uses : r'.uses = r.uses
  scope : r'.ann.scope = r.ann.scope
  name : r'.top.name = r.top.name
  top : r'.top = r.top ∨ k ≤ r'.top.ann.id

theorem Root.Same.refl (k : Nat) (r : Root Meta) : r.Same k r := ⟨rfl, rfl, rfl, rfl, .inl rfl⟩

theorem Root.Same.fullName (h : r.Same k r') : r'.fullName = r.fullName := by
  rw [Root.fullName, Root.fullName, h.space, h.name]

theorem Root.Same.scopePath (h : r.Same k r') : r'.scopePath = r.scopePath := by
  rw [Root.scopePath, Root.scopePath, h.space, h.name]

theorem TopLevel.name_of_label {t t' : TopLevel Meta}
    (h : (Node.top t').label = (Node.top t).label) : t'.name = t.name := by
  cases t <;> cases t' <;> simp_all [Node.label, TopLevel.name]

theorem Root.revise_same (h : Node.Revisable f F k [.root r]) :
    (Root.revise f r).Gives k F fun new _ => r.Same k (new.getD r) := by
  obtain ⟨-, hTop⟩ := Node.revisable_append.1 (h.below rfl)
  rw [Root.revise]
  refine (TopLevel.revise_patches k r.top (Nat.le_refl k) hTop).bind fun new k₁ _ hPatched => ?_
  cases new with
  | none => exact .pure (.refl k r)
  | some top =>
    refine Revising.Gives.bind (.lift (.renew r.ann)) fun m k' _ hRenewed => .pure ?_
    obtain ⟨rfl, -⟩ := hRenewed
    obtain hSame | ⟨hLabel, k₂, hLe, hAnn⟩ := hPatched.one rfl hTop (Nat.le_refl k)
    · obtain rfl : top = r.top := Node.top.inj hSame
      exact ⟨rfl, rfl, rfl, rfl, .inl rfl⟩
    · refine ⟨rfl, rfl, rfl, TopLevel.name_of_label hLabel, .inr ?_⟩
      exact hLe.trans (congrArg Meta.id hAnn).ge

/-- What a revision of a source gives from the number `k` on up to `k'`, and whether it is new. -/
structure Root.Recast (E : Node Meta → Node.Label → Prop) (splices : Bool) (k : Nat)
    (r r' : Root Meta) (c : Bool) (k' : Nat) : Prop where
  recast : Node.Recast E splices k [.root r] [.root r'] c k'
  referrals : (Node.root r').referrals = (Node.root r).referrals
  same : r.Same k r'
  renews : Node.Renews k k k' ((Node.root r).renewals Meta.id (.root r'))

theorem Root.Recast.all {P : Nat → Node Meta → Prop} {k' : Nat} {c : Bool}
    (h : r.Recast E splices k r' c k') (hP : Renewable P)
    (hE : ∀ {k n n'}, P k n → E n n'.label → n'.ann = { n.ann with id := k } → P (k + 1) n')
    (hr : (Node.root r).All (P k)) : (Node.root r').All (P k') :=
  h.recast.all hP hE (List.forall_mem_singleton.2 hr) _ (List.mem_singleton_self _)

theorem Root.revise_recast (hE : ∀ n : Node Meta, n.spec? = none → E n n.label)
    (hf : ∀ s ∈ (Node.root r).specs, ∀ k, (f s).Gives k F fun new k' => Node.Recast E splices k
      [.spec s] [.spec (new.getD s)] new.isSome k')
    (hBelow : (Node.root r).All fun n => n.ann.id < k) :
    (Root.revise f r).Gives k F fun new k' =>
      r.Recast E splices k (new.getD r) new.isSome k' := by
  have hf : ∀ s ∈ [Node.root r].flatMap Node.specs, ∀ k', k ≤ k' → (f s).Gives k' F fun new k' => _ :=
    fun s hs k' _ => hf s (by simpa using hs) k'
  have hRevisable : Node.Revisable f F k [.root r] := fun s hs k' hLe =>
    (hf s hs k' hLe).mono fun _ _ _ _ => trivial
  have hPatches := Root.revise_patches k r (Nat.le_refl k) hRevisable
  refine (hPatches.and ((Root.revise_same hRevisable).and (Root.revise_updates hRevisable
    hBelow))).mono fun new k' _ ⟨⟨news, hNews, hPatch, hSome⟩, hSame, hUpdates⟩ => ?_
  obtain ⟨c, hRecast, hc⟩ := hNews.recast hE hf (Nat.le_refl k)
  have hReferrals := hNews.referrals
  rw [← hPatch] at hRecast hReferrals
  obtain rfl : c = new.isSome := by rw [Bool.eq_iff_iff, hc, hSome]
  exact ⟨hRecast, by simpa using hReferrals, hSame, hUpdates.renews⟩

theorem Root.qualify?_recast {table : Scope}
    (hFaults : (Node.root r).All (TypeSpec.Faults table r.space F))
    (hBelow : (Node.root r).All fun n => n.ann.id < k) :
    (Root.qualify? table r).Gives k F fun new k' =>
      r.Recast (TypeSpec.Respelled table r.space) false k (new.getD r) new.isSome k' := by
  refine Root.revise_recast (fun n hn => ?_) (fun s hs k => ?_) hBelow
  · unfold TypeSpec.Respelled
    split
    · rename_i name hName
      obtain ⟨args, hEq⟩ := TypeSpec.eq_simple_of_label hName
      rw [hEq] at hn
      cases hn
    · rfl
  · exact TypeSpec.qualify?_recast k s fun j hj =>
      hFaults j (Node.nodes_subset (Node.mem_nodes_of_mem_specs hs) hj)

theorem Root.flatten?_recast (hBelow : (Node.root r).All fun n => n.ann.id < k) :
    (Root.flatten? r).Gives k F fun new k' =>
      r.Recast TypeSpec.Labelled true k (new.getD r) new.isSome k' :=
  Root.revise_recast (fun _ _ => rfl) (fun s _ k => .lift (TypeSpec.flatten?_recast k s)) hBelow

end Revise

end Assay
