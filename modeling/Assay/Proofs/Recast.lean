import Mathlib
import Assay.Proofs.Rewritten

/-! How types come out of a revision of them, said once for nodes of all kinds. A node is kept, or
built anew over what becomes of the nodes below it; its label is one that the revision gives it. Where
the revision also flattens, unions and intersections take in the parts of components of their kind. -/

namespace Assay

namespace Text

variable {α β : Type} {key : α → Text}

theorem dedupBy_sublist (key : α → Text) (xs : List α) : (dedupBy key xs).Sublist xs := by
  have hGo (seen : List Text) : (dedupBy.go key seen xs).Sublist xs := by
    induction xs generalizing seen with
    | nil => exact .slnil
    | cons x rest ih =>
      rw [dedupBy.go]
      split
      · exact (ih seen).cons x
      · exact (ih _).cons_cons x
  exact hGo []

theorem mem_of_mem_dedupBy {x : α} {xs : List α} (h : x ∈ dedupBy key xs) : x ∈ xs :=
  (dedupBy_sublist key xs).subset h

theorem map_dedupBy (f : α → β) {key' : β → Text} (h : ∀ x, key' (f x) = key x) (xs : List α) :
    (dedupBy key xs).map f = dedupBy key' (xs.map f) := by
  have hGo (seen : List Text) :
      (dedupBy.go key seen xs).map f = dedupBy.go key' seen (xs.map f) := by
    induction xs generalizing seen with
    | nil => rfl
    | cons x rest ih =>
      rw [List.map_cons, dedupBy.go, dedupBy.go, h]
      split
      · exact ih seen
      · rw [List.map_cons, ih]
  exact hGo []

theorem dedupBy_go_spec (seen : List Text) (xs : List α) :
    ((dedupBy.go key seen xs).map key).Nodup ∧ (∀ x ∈ dedupBy.go key seen xs, key x ∉ seen) ∧
      ∀ x ∈ xs, key x ∈ seen ∨ key x ∈ (dedupBy.go key seen xs).map key := by
  induction xs generalizing seen with
  | nil => simp [dedupBy.go]
  | cons x rest ih =>
    rw [dedupBy.go]
    split
    · rename_i hSeen
      obtain ⟨hNodup, hNew, hAll⟩ := ih seen
      exact ⟨hNodup, hNew, List.forall_mem_cons.2 ⟨.inl hSeen, hAll⟩⟩
    · rename_i hNew
      obtain ⟨hNodup, hFresh, hAll⟩ := ih (key x :: seen)
      refine ⟨?_, List.forall_mem_cons.2 ⟨hNew, fun y hy => ?_⟩, List.forall_mem_cons.2
        ⟨.inr (by simp), fun y hy => ?_⟩⟩
      · rw [List.map_cons, List.nodup_cons]
        refine ⟨fun hMem => ?_, hNodup⟩
        obtain ⟨y, hy, hKey⟩ := List.mem_map.1 hMem
        exact hFresh y hy (hKey ▸ List.mem_cons_self)
      · exact fun hSeen => hFresh y hy (List.mem_cons_of_mem _ hSeen)
      · obtain hSeen | hKept := hAll y hy
        · obtain hSame | hSeen := List.mem_cons.1 hSeen
          · exact .inr (by simp [hSame])
          · exact .inl hSeen
        · exact .inr (List.mem_cons_of_mem _ hKept)

theorem nodup_dedupBy (xs : List α) : ((dedupBy key xs).map key).Nodup := (dedupBy_go_spec [] xs).1

theorem mem_keys_dedupBy {xs : List α} {t : Text} :
    t ∈ (dedupBy key xs).map key ↔ t ∈ xs.map key := by
  refine ⟨fun h => ((dedupBy_sublist key xs).map key).subset h, fun h => ?_⟩
  obtain ⟨x, hx, rfl⟩ := List.mem_map.1 h
  exact ((dedupBy_go_spec [] xs).2.2 x hx).resolve_left (by simp)

theorem dedupBy_eq_self {xs : List α} (h : (xs.map key).Nodup) : dedupBy key xs = xs := by
  refine (dedupBy_sublist key xs).eq_of_length_le ?_
  have hPerm := (List.perm_ext_iff_of_nodup (nodup_dedupBy xs) h).2 fun t => mem_keys_dedupBy
  simpa using hPerm.length_eq.ge

end Text

/-- Components that a flat union or intersection can have, where `parts?` gives the components of
types of its kind. -/
structure TypeSpec.Spliced (parts? : TypeSpec Meta → Option (List (TypeSpec Meta)))
    (types : List (TypeSpec Meta)) : Prop where
  other : ∀ t ∈ types, parts? t = none
  distinct : (types.map TypeSpec.toText).Nodup
  several : types.length ≠ 1

namespace Node

/-- A node that is no union or intersection, or one that is flat as far as its own components go. -/
def Flat : Node Meta → Prop
  | .spec (.union _ types) => TypeSpec.Spliced TypeSpec.unionParts? types
  | .spec (.inter _ types) => TypeSpec.Spliced TypeSpec.interParts? types
  | _ => True

def isGroup (n : Node Meta) : Bool := n.label = .union || n.label = .inter

/-- The text of a type. -/
def text (n : Node Meta) : Text := (n.spec?.map TypeSpec.toText).getD []

/-- The nodes, in place of one with the label `l` what is right below it. -/
def splice (l : Label) (ns : List (Node Meta)) : List (Node Meta) :=
  ns.flatMap fun n => if n.label = l then n.children else [n]

theorem splice_cons (l : Label) (n : Node Meta) (ns : List (Node Meta)) :
    splice l (n :: ns) = (if n.label = l then n.children else [n]) ++ splice l ns :=
  List.flatMap_cons

theorem splice_eq_self {l : Label} {ns : List (Node Meta)} (h : ∀ n ∈ ns, n.label ≠ l) :
    splice l ns = ns := by
  rw [splice, List.flatMap_congr fun n hn => if_neg (h n hn)]
  simp

/-- What a node has right below it, if what was there becomes `kids`: a union or an intersection may
have the parts that differ in their texts. -/
def gather (splices : Bool) (n : Node Meta) (kids : List (Node Meta)) : List (Node Meta) :=
  if splices && n.isGroup then Text.dedupBy text (splice n.label kids) else kids

theorem spliced_iff {parts? : TypeSpec Meta → Option (List (TypeSpec Meta))} {l : Label}
    (h : ∀ t, parts? t = none ↔ (Node.spec t).label ≠ l) {types : List (TypeSpec Meta)} :
    TypeSpec.Spliced parts? types ↔ (∀ j ∈ types.map Node.spec, j.label ≠ l) ∧
      ((types.map Node.spec).map text).Nodup ∧ (types.map Node.spec).length ≠ 1 := by
  simp only [List.forall_mem_map, List.map_map, List.length_map, ← h]
  exact ⟨fun h => ⟨h.other, h.distinct, h.several⟩, fun h => ⟨h.1, h.2.1, h.2.2⟩⟩

theorem flat_iff {n : Node Meta} : n.Flat ↔ (n.isGroup → (∀ j ∈ n.children, j.label ≠ n.label) ∧
    (n.children.map text).Nodup ∧ n.children.length ≠ 1) := by
  cases n with
  | spec s =>
    cases s with
    | union =>
      refine (spliced_iff (l := .union) fun t => ?_).trans (imp_iff_right rfl).symm
      cases t <;> simp [TypeSpec.unionParts?, label]
    | inter =>
      refine (spliced_iff (l := .inter) fun t => ?_).trans (imp_iff_right rfl).symm
      cases t <;> simp [TypeSpec.interParts?, label]
    | _ => simp [Flat, isGroup, label]
  | top t => cases t <;> simp [Flat, isGroup, label]
  | value v => cases v <;> simp [Flat, isGroup, label]
  | _ => simp [Flat, isGroup, label]

/-- How nodes come out of a revision that draws numbers from `k` up to `k'`, and whether any of them
is built anew. A node `n` can get a label `l` if `E n l`; the revision flattens if `splices`. -/
inductive Recast (E : Node Meta → Label → Prop) (splices : Bool) :
    Nat → List (Node Meta) → List (Node Meta) → Bool → Nat → Prop
  | nil (k : Nat) : Recast E splices k [] [] false k
  | append {k k₁ k' : Nat} {xs xs' ys ys' : List (Node Meta)} {c c' : Bool}
    (hx : Recast E splices k xs xs' c k₁) (hy : Recast E splices k₁ ys ys' c' k') :
    Recast E splices k (xs ++ ys) (xs' ++ ys') (c || c') k'
  | kept {k k' : Nat} {n : Node Meta} (hLabel : E n n.label) (hFlat : splices → n.Flat)
    (hKids : Recast E splices k n.children n.children false k') :
    Recast E splices k [n] [n] false k'
  | rebuilt {k k₁ : Nat} {n n' : Node Meta} {kids : List (Node Meta)} {c : Bool}
    (hLabel : E n n'.label) (hAnn : n'.ann = { n.ann with id := k₁ })
    (hKids : Recast E splices k n.children kids c k₁)
    (hChildren : n'.children = n.gather splices kids)
    (hSeveral : splices → n.isGroup → n'.children.length ≠ 1)
    (hNew : c = false → n'.label = n.label → splices ∧ ¬n.Flat) :
    Recast E splices k [n] [n'] true (k₁ + 1)
  -- Of the components of a union or an intersection only one is left, which takes its place.
  | one {k k₁ : Nat} {n n' part : Node Meta} {kids : List (Node Meta)} {c : Bool}
    (hs : splices) (hKids : Recast E splices k n.children kids c k₁)
    (hOne : n.gather splices kids = [part]) (hNew : c = false → ¬n.Flat)
    (hLabel : n'.label = part.label) (hChildren : n'.children = part.children)
    (hAnn : n'.ann = { part.ann with id := k₁, position := n.ann.position }) :
    Recast E splices k [n] [n'] true (k₁ + 1)

namespace Recast

variable {E : Node Meta → Label → Prop} {splices : Bool} {k k₁ k' : Nat} {ns ns' : List (Node Meta)}
  {c : Bool} {n n' : Node Meta}

theorem le (h : Recast E splices k ns ns' c k') : k ≤ k' := by
  induction h with
  | nil k => exact Nat.le_refl k
  | append _ _ ihx ihy => exact ihx.trans ihy
  | kept _ _ _ ih => exact ih
  | rebuilt _ _ _ _ _ _ ih | one _ _ _ _ _ _ _ ih => exact ih.trans (Nat.le_succ _)

theorem same (h : Recast E splices k ns ns' c k') (hc : c = false) : ns' = ns := by
  induction h with
  | nil | kept => rfl
  | append _ _ ihx ihy =>
    obtain ⟨hx, hy⟩ := Bool.or_eq_false_iff.1 hc
    rw [ihx hx, ihy hy]
  | rebuilt | one => cases hc

/-- A node that is no union or intersection to be flattened is built anew over what becomes of the
nodes below it. -/
theorem renewed (hn : (splices && n.isGroup) = false) (hLabel : E n n'.label)
    (hAnn : n'.ann = { n.ann with id := k₁ }) (hKids : Recast E splices k n.children n'.children c k₁)
    (hNew : c = true ∨ n'.label ≠ n.label) : Recast E splices k [n] [n'] true (k₁ + 1) := by
  refine .rebuilt hLabel hAnn hKids ?_ (fun hs hGroup => ?_) fun hc hSame => ?_
  · rw [gather, hn]
    rfl
  · simp [hs, hGroup] at hn
  · exact absurd hSame (hNew.resolve_left (by simp [hc]))

end Recast

/-- From the number `low` on, the images of the outermost types of nodes are as they come out of a
revision. -/
theorem Rewritten.recast {E : Node Meta → Label → Prop} {splices : Bool} {F : Fault → Prop}
    {f : Revision (TypeSpec Meta)} {low k k' : Nat} {ns : List (Node Meta)}
    {news : List (Option (Node Meta))} (h : Rewritten f k ns news k')
    (hE : ∀ n : Node Meta, n.spec? = none → E n n.label)
    (hf : ∀ s ∈ ns.flatMap specs, ∀ k, low ≤ k → (f s).Gives k F fun new k' =>
      Recast E splices k [.spec s] [.spec (new.getD s)] new.isSome k') (hk : low ≤ k) :
    ∃ c, Recast E splices k ns (patch ns news) c k' ∧ (c = true ↔ ∃ new ∈ news, new ≠ none) := by
  have hOther {n : Node Meta} (hn : n.spec? = none) : n.Flat ∧ (splices && n.isGroup) = false := by
    cases n with
    | spec => cases hn
    | top t => cases t <;> simp [Flat, isGroup, label]
    | value v => cases v <;> simp [Flat, isGroup, label]
    | _ => simp [Flat, isGroup, label]
  induction h with
  | nil k => exact ⟨false, .nil k, by simp⟩
  | @spec _ _ _ s image _ _ hImage _ ih =>
    rw [List.flatMap_cons, specs_spec, List.forall_mem_append, List.forall_mem_singleton] at hf
    obtain ⟨hLe, hHead⟩ := (hf.1 _ hk).of_run hImage
    obtain ⟨c, hRest, hc⟩ := ih hf.2 (hk.trans hLe)
    refine ⟨image.isSome || c, ?_, ?_⟩
    · have hGet : (image.map Node.spec).getD (.spec s) = .spec (image.getD s) := by
        cases image <;> rfl
      rw [patch_cons, hGet]
      exact hHead.append hRest
    · cases image <;> simp [hc]
  | @kept _ _ _ n _ _ _ hn hKids hNone _ ihKids ih =>
    rw [List.flatMap_cons, specs_eq hn, List.forall_mem_append] at hf
    obtain ⟨c, hBelow, hc⟩ := ihKids hf.1 hk
    obtain rfl : c = false := by
      by_contra hNe
      obtain ⟨new, hNew, hSome⟩ := hc.1 (by simpa using hNe)
      exact hSome (hNone new hNew)
    obtain ⟨c', hRest, hc'⟩ := ih hf.2 (hk.trans hBelow.le)
    rw [patch_none hKids.length hNone] at hBelow
    exact ⟨c', .append (.kept (hE n hn) (fun _ => (hOther hn).1) hBelow) hRest, by simpa using hc'⟩
  | @rebuilt _ _ _ n n' _ _ _ hn _ hSome hLabel hAnn hChildren _ ihKids ih =>
    rw [List.flatMap_cons, specs_eq hn, List.forall_mem_append] at hf
    obtain ⟨c, hBelow, hc⟩ := ihKids hf.1 hk
    obtain ⟨c', hRest, -⟩ := ih hf.2 (hk.trans (hBelow.le.trans (Nat.le_succ _)))
    rw [← hChildren] at hBelow
    refine ⟨true || c', .append (.renewed (hOther hn).2 (hLabel ▸ hE n hn) hAnn hBelow
      (.inl (hc.2 hSome))) hRest, by simp⟩

end Node

namespace TypeSpec

open Node

/-- The label that the full form of a name gives a type that is a name; another type keeps its own. -/
def Respelled (table : Scope) (space : Text) (n : Node Meta) (l : Label) : Prop :=
  match n.label with
  | .simple name => ∃ full, table.qualifyName n.ann.scope space name = .ok full ∧ l = .simple full
  | other => l = other

section Qualify

variable {table : Scope} {space : Text} {F : Fault → Prop}

/-- The faults with which the name of a type has no full form satisfy `F`. -/
def Faults (table : Scope) (space : Text) (F : Fault → Prop) (n : Node Meta) : Prop :=
  ∀ name, n.label = .simple name →
    Ends F (fun _ => True) (table.qualifyName n.ann.scope space name)

theorem Faults.any (n : Node Meta) : Faults table space (fun _ => True) n := by
  intro name _
  cases table.qualifyName n.ann.scope space name <;> trivial

mutual

theorem qualify?_recast (k : Nat) : (s : TypeSpec Meta) →
    (Node.spec s).All (Faults table space F) →
    (qualify? table space s).Gives k F fun new k' =>
      Recast (Respelled table space) false k [.spec s] [.spec (new.getD s)] new.isSome k'
  | .simple m name args, h => by
    rw [qualify?]
    refine Revising.Gives.bind (P := fun full k' => k' = k ∧
      table.qualifyName m.scope space name = .ok full) (.result ?_) fun full k₀ _ ⟨hk, hFull⟩ => ?_
    · have hEnds := h.self name rfl
      change Ends F _ (table.qualifyName m.scope space name) at hEnds
      cases hName : table.qualifyName m.scope space name with
      | ok full => exact ⟨rfl, rfl⟩
      | error f => rwa [hName] at hEnds
    subst hk
    refine (qualifyAll?_recast k₀ args fun s hs => h.child (List.mem_map_of_mem hs)).bind
      fun new k₁ _ hArgs => ?_
    cases new with
    | some args' =>
      refine Revising.Gives.bind (.lift (.renew m)) fun m' k₂ _ ⟨hm, hk⟩ => .pure ?_
      subst hm hk
      exact .renewed rfl ⟨full, hFull, rfl⟩ rfl hArgs (.inl rfl)
    | none =>
      simp only
      split
      · rename_i hSame
        exact .pure (.kept ⟨full, hFull, hSame ▸ rfl⟩ (by simp) hArgs)
      · rename_i hNe
        refine Revising.Gives.bind (.lift (.renew m)) fun m' k₂ _ ⟨hm, hk⟩ => .pure ?_
        subst hm hk
        exact .renewed rfl ⟨full, hFull, rfl⟩ rfl hArgs (.inr fun hEq => hNe (Label.simple.inj hEq))
  | .union m types, h => by
    rw [qualify?]
    refine (qualifyAll?_recast k types fun s hs => h.child (List.mem_map_of_mem hs)).bind
      fun new k₁ _ hTypes => ?_
    cases new with
    | none => exact .pure (.kept rfl (by simp) hTypes)
    | some types' =>
      refine Revising.Gives.bind (.lift (.renew m)) fun m' k₂ _ ⟨hm, hk⟩ => .pure ?_
      subst hm hk
      exact .renewed rfl rfl rfl hTypes (.inl rfl)
  | .inter m types, h => by
    rw [qualify?]
    refine (qualifyAll?_recast k types fun s hs => h.child (List.mem_map_of_mem hs)).bind
      fun new k₁ _ hTypes => ?_
    cases new with
    | none => exact .pure (.kept rfl (by simp) hTypes)
    | some types' =>
      refine Revising.Gives.bind (.lift (.renew m)) fun m' k₂ _ ⟨hm, hk⟩ => .pure ?_
      subst hm hk
      exact .renewed rfl rfl rfl hTypes (.inl rfl)
  | .func m params result, h => by
    rw [qualify?]
    refine (qualifyAll?_recast k params fun s hs =>
      h.child (List.mem_append_left _ (List.mem_map_of_mem hs))).bind fun newParams k₁ _ hParams => ?_
    refine (qualify?_recast k₁ result (h.child (List.mem_append_right _ List.mem_cons_self))).bind
      fun newResult k₂ _ hResult => ?_
    have hKids := hParams.append hResult
    split
    · exact .pure (.kept rfl (by simp) hKids)
    · rename_i hNew
      refine Revising.Gives.bind (.lift (.renew m)) fun m' k' _ ⟨hm, hk⟩ => .pure ?_
      subst hm hk
      exact .renewed rfl rfl rfl hKids (.inl (isSome_or hNew))
  | .inferred m, _ => by
    rw [qualify?]
    exact .pure (.kept rfl (by simp) (.nil k))

theorem qualifyAll?_recast (k : Nat) : (ss : List (TypeSpec Meta)) →
    (∀ s ∈ ss, (Node.spec s).All (Faults table space F)) →
    (qualifyAll? table space ss).Gives k F fun new k' => Recast (Respelled table space) false k
      (ss.map .spec) ((new.getD ss).map .spec) new.isSome k'
  | [], _ => by
    rw [qualifyAll?]
    exact .pure (.nil k)
  | s :: rest, h => by
    rw [qualifyAll?]
    refine (qualify?_recast k s (h s List.mem_cons_self)).bind fun newHead k₁ _ hHead => ?_
    refine (qualifyAll?_recast k₁ rest fun s hs => h s (List.mem_cons_of_mem _ hs)).bind
      fun newRest k₂ _ hRest => ?_
    have hAll := hHead.append hRest
    split
    · exact .pure hAll
    · rename_i hNew
      rw [isSome_or hNew] at hAll
      exact .pure hAll

end

end Qualify

/-- A type keeps its label. -/
def Labelled (n : Node Meta) (l : Label) : Prop := l = n.label

theorem text_spec (s : TypeSpec Meta) : (Node.spec s).text = s.toText := rfl

theorem ann_withAnn (s : TypeSpec Meta) (m : Meta) : (s.withAnn m).ann = m := by
  cases s <;> rfl

theorem label_withAnn (s : TypeSpec Meta) (m : Meta) :
    (Node.spec (s.withAnn m)).label = (Node.spec s).label := by
  cases s <;> rfl

theorem children_withAnn (s : TypeSpec Meta) (m : Meta) :
    (Node.spec (s.withAnn m)).children = (Node.spec s).children := by
  cases s <;> rfl

section Flatten

variable {l : Label} {build : Meta → List (TypeSpec Meta) → TypeSpec Meta} {k k₁ : Nat} {m : Meta}
  {types parts : List (TypeSpec Meta)} {kids : List (Node Meta)} {c changed : Bool}

theorem rebuild_recast (hLabel : ∀ m types, (Node.spec (build m types)).label = l)
    (hAnn : ∀ m types, (build m types).ann = m)
    (hChildren : ∀ m types, (Node.spec (build m types)).children = types.map .spec)
    (hl : l = .union ∨ l = .inter) (hKids : Recast Labelled true k (types.map .spec) kids c k₁)
    (hParts : parts.map .spec = splice l kids)
    (hChanged : changed = false ↔ c = false ∧ ∀ t ∈ types, (Node.spec t).label ≠ l) :
    (rebuild build m parts changed).Gives k₁ fun new k' => Recast Labelled true k
      [.spec (build m types)] [.spec (new.getD (build m types))] new.isSome k' := by
  have hGroup : (Node.spec (build m types)).isGroup = true := by simpa [isGroup, hLabel] using hl
  have hPlace : (Node.spec (build m types)).ann = m := hAnn m types
  have hGather : (Text.dedupBy toText parts).map Node.spec =
      (Node.spec (build m types)).gather true kids := by
    rw [gather, hGroup, hLabel, ← hParts]
    exact Text.map_dedupBy Node.spec text_spec parts
  have hFlat : (Node.spec (build m types)).Flat ↔ (∀ t ∈ types, (Node.spec t).label ≠ l) ∧
      (types.map toText).Nodup ∧ types.length ≠ 1 := by
    rw [flat_iff, hChildren, hLabel]
    simp only [hGroup, true_imp_iff, List.forall_mem_map, List.map_map, List.length_map]
    rfl
  -- If no component changes or is of the kind of the type, the components are the parts.
  have hSame (hc : changed = false) : parts = types := by
    obtain ⟨hKept, hOther⟩ := hChanged.1 hc
    rw [hKids.same hKept, splice_eq_self (by simpa using hOther)] at hParts
    exact List.map_injective_iff.2 (fun _ _ => Node.spec.inj) hParts
  have hNone (hc : c = false) (h : (Node.spec (build m types)).Flat) :
      changed = false ∧ Text.dedupBy toText parts = types := by
    obtain ⟨hOther, hDistinct, -⟩ := hFlat.1 h
    have hKept := hChanged.2 ⟨hc, hOther⟩
    rw [hSame hKept, Text.dedupBy_eq_self hDistinct]
    exact ⟨hKept, rfl⟩
  rw [← hChildren m types] at hKids
  unfold rebuild moveTo
  simp only
  split
  · rename_i one hOne
    refine Fresh.Gives.bind (P := fun s k' => k' = k₁ + 1 ∧
      s = one.withAnn { one.ann with id := k₁, position := m.position }) ?_ fun s k' _ ⟨hk, hs⟩ => .pure ?_
    · refine (Fresh.Gives.renew one.ann).bind fun m' k' _ ⟨hm, hk⟩ => .pure ⟨hk, ?_⟩
      rw [hm]
    · subst hs hk
      rw [hOne] at hGather
      refine .one rfl hKids hGather.symm (fun hc h => ?_) (label_withAnn ..) (children_withAnn ..) ?_
      · exact (hFlat.1 h).2.2 (by rw [← (hNone hc h).2, hOne]; rfl)
      · exact (ann_withAnn ..).trans (by rw [hPlace]; rfl)
  · rename_i hSeveral
    have hLength : (Text.dedupBy toText parts).length ≠ 1 := fun hOne => by
      obtain ⟨one, hOne⟩ := List.length_eq_one_iff.1 hOne
      exact hSeveral one hOne
    split
    · rename_i hNew
      refine (Fresh.Gives.renew m).bind fun m' k' _ ⟨hm, hk⟩ => .pure ?_
      subst hm hk
      refine .rebuilt ((hLabel _ _).trans (hLabel m types).symm) ?_ hKids
        ((hChildren _ _).trans hGather) (fun _ _ => ?_) fun hc _ => ⟨rfl, fun h => ?_⟩
      · exact (hAnn _ _).trans (by rw [hPlace])
      · rwa [Option.getD_some, hChildren, List.length_map]
      · obtain ⟨hKept, hAll⟩ := hNone hc h
        rw [hAll, hKept, hSame hKept] at hNew
        simp at hNew
    · rename_i hOld
      simp only [Bool.or_eq_true, not_or, Bool.not_eq_true, bne_eq_false_iff_eq] at hOld
      obtain ⟨hc, hOther⟩ := hChanged.1 hOld.1
      have hAll : Text.dedupBy toText parts = types :=
        ((Text.dedupBy_sublist toText parts).eq_of_length hOld.2).trans (hSame hOld.1)
      have hDistinct : ((Text.dedupBy toText parts).map toText).Nodup := Text.nodup_dedupBy parts
      rw [hAll] at hDistinct hLength
      have hStays := hKids.same hc
      subst hc hStays
      exact .pure (.kept rfl (fun _ => hFlat.2 ⟨hOther, hDistinct, hLength⟩) hKids)

mutual

theorem flatten?_recast (k : Nat) : (s : TypeSpec Meta) →
    (flatten? s).Gives k fun new k' =>
      Recast Labelled true k [.spec s] [.spec (new.getD s)] new.isSome k'
  | .simple m name args => by
    rw [flatten?]
    refine (flattenAll?_recast k args).bind fun new k₁ _ hArgs => ?_
    cases new with
    | none => exact .pure (.kept rfl (fun _ => trivial) hArgs)
    | some args' =>
      refine (Fresh.Gives.renew m).bind fun m' k₂ _ ⟨hm, hk⟩ => .pure ?_
      subst hm hk
      exact .renewed rfl rfl rfl hArgs (.inl rfl)
  | .union m types => by
    rw [flatten?]
    refine (flattenParts_recast (l := .union) k (fun s => ?_) types).bind
      fun ⟨parts, changed⟩ k₁ _ ⟨kids, c, hKids, hParts, hChanged⟩ => ?_
    · cases s <;> simp [unionParts?, label, children]
    · exact rebuild_recast (fun _ _ => rfl) (fun _ _ => rfl) (fun _ _ => rfl) (.inl rfl) hKids hParts
        hChanged
  | .inter m types => by
    rw [flatten?]
    refine (flattenParts_recast (l := .inter) k (fun s => ?_) types).bind
      fun ⟨parts, changed⟩ k₁ _ ⟨kids, c, hKids, hParts, hChanged⟩ => ?_
    · cases s <;> simp [interParts?, label, children]
    · exact rebuild_recast (fun _ _ => rfl) (fun _ _ => rfl) (fun _ _ => rfl) (.inr rfl) hKids hParts
        hChanged
  | .func m params result => by
    rw [flatten?]
    refine (flattenAll?_recast k params).bind fun newParams k₁ _ hParams => ?_
    refine (flatten?_recast k₁ result).bind fun newResult k₂ _ hResult => ?_
    have hKids := hParams.append hResult
    split
    · exact .pure (.kept rfl (fun _ => trivial) hKids)
    · rename_i hNew
      refine (Fresh.Gives.renew m).bind fun m' k' _ ⟨hm, hk⟩ => .pure ?_
      subst hm hk
      exact .renewed rfl rfl rfl hKids (.inl (isSome_or hNew))
  | .inferred m => by
    rw [flatten?]
    exact .pure (.kept rfl (fun _ => trivial) (.nil k))

theorem flattenAll?_recast (k : Nat) : (ss : List (TypeSpec Meta)) →
    (flattenAll? ss).Gives k fun new k' =>
      Recast Labelled true k (ss.map .spec) ((new.getD ss).map .spec) new.isSome k'
  | [] => by
    rw [flattenAll?]
    exact .pure (.nil k)
  | s :: rest => by
    rw [flattenAll?]
    refine (flatten?_recast k s).bind fun newHead k₁ _ hHead => ?_
    refine (flattenAll?_recast k₁ rest).bind fun newRest k₂ _ hRest => ?_
    have hAll := hHead.append hRest
    split
    · exact .pure hAll
    · rename_i hNew
      rw [isSome_or hNew] at hAll
      exact .pure hAll

/-- The parts of a union or an intersection, and that nothing is said to have changed if none of its
components has and none is of its kind. -/
theorem flattenParts_recast {parts? : TypeSpec Meta → Option (List (TypeSpec Meta))} {l : Label}
    (k : Nat) (hParts : ∀ s, (parts? s).elim ((Node.spec s).label ≠ l) fun inner =>
      (Node.spec s).label = l ∧ (Node.spec s).children = inner.map .spec) :
    (ss : List (TypeSpec Meta)) → (flattenParts parts? ss).Gives k fun r k' =>
      ∃ kids c, Recast Labelled true k (ss.map .spec) kids c k' ∧
        r.1.map .spec = splice l kids ∧
          (r.2 = false ↔ c = false ∧ ∀ s ∈ ss, (Node.spec s).label ≠ l)
  | [] => by
    rw [flattenParts]
    exact .pure ⟨_, _, .nil k, rfl, by simp⟩
  | s :: rest => by
    rw [flattenParts]
    refine (flatten?_recast k s).bind fun new k₁ _ hHead => ?_
    refine (flattenParts_recast k₁ hParts rest).bind
      fun ⟨more, changed⟩ k₂ _ ⟨kids, c, hKids, hMore, hChanged⟩ => ?_
    have hNew := hParts (new.getD s)
    change changed = false ↔ _ at hChanged
    change more.map Node.spec = _ at hMore
    simp only
    split
    · rename_i inner hInner
      rw [hInner] at hNew
      refine .pure ⟨_, _, hHead.append hKids, ?_, ?_⟩
      · rw [List.map_append, hMore, ← hNew.2, List.singleton_append, splice_cons, if_pos hNew.1]
      · refine iff_of_false (by simp) fun ⟨hNone, hOther⟩ => ?_
        rw [Bool.or_eq_false_iff, Option.isSome_eq_false_iff, Option.isNone_iff_eq_none] at hNone
        rw [hNone.1] at hNew
        exact hOther s List.mem_cons_self hNew.1
    · rename_i hInner
      rw [hInner] at hNew
      refine .pure ⟨_, _, hHead.append hKids, ?_, ?_⟩
      · rw [List.map_cons, hMore, List.singleton_append, splice_cons, if_neg hNew]
        rfl
      · rw [Bool.or_eq_false_iff, Bool.or_eq_false_iff, hChanged, List.forall_mem_cons]
        cases new with
        | none => simp_all
        | some s' => simp

end

end Flatten

end TypeSpec

end Assay
