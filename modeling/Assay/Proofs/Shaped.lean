import Mathlib
import Assay.Proofs.Located

/-! What the tree of a source keeps of the way it was read. Whatever becomes of its types, and
whatever scopes its nodes are put into, only calls refer forward, only the last statement of a body
gives its value, and declarations and references start at different points. -/

namespace Assay

theorem Statement.Closes.of_last {α β : Type} {ss : List (Statement α)} {ss' : List (Statement β)}
    (hLast : ss'.map (·.last) = ss.map (·.last)) (h : Closes ss) : Closes ss' := by
  rintro before s after rfl hs
  rw [List.map_append, List.map_cons] at hLast
  obtain ⟨before', rest, rfl, -, hRest⟩ := List.map_eq_append_iff.1 hLast.symm
  obtain ⟨s', after', rfl, hs', hAfter⟩ := List.map_eq_cons_iff.1 hRest
  rw [h before' s' after' rfl (hs'.trans hs)] at hAfter
  exact List.map_eq_nil_iff.1 hAfter.symm

theorem Statement.closes_nil {α : Type} : Closes ([] : List (Statement α)) := by simp [Closes]

namespace Node

variable {α β : Type}

theorem formed_iff (n : Node α) : n.Formed ↔
    (∀ ref ∈ n.children.filterMap reference?, ref.forward = decide (n.label = .call)) ∧
      Statement.Closes (n.children.filterMap statement?) := by
  cases n with
  | top t =>
    cases t <;>
      simp [Formed, children, List.filterMap_map, List.filterMap_cons, Function.comp_def, reference?,
        statement?, Statement.closes_nil]
  | value v =>
    cases v <;>
      simp [Formed, label, children, List.filterMap_map, List.filterMap_cons, Function.comp_def,
        reference?, statement?, Statement.closes_nil]
  | spec s =>
    cases s <;>
      simp [Formed, children, List.filterMap_map, List.filterMap_cons, Function.comp_def, reference?,
        statement?, Statement.closes_nil]
  | statement s =>
    cases s
    simp [Formed, children, List.filterMap_cons, reference?, statement?, Statement.closes_nil]
  | _ =>
    simp [Formed, children, List.filterMap_map, List.filterMap_cons, Function.comp_def, reference?,
      statement?, Statement.closes_nil]

/-- Whether a label is that of the last statement of a body, if it is that of a statement. -/
def Label.last? : Label → Option Bool
  | .statement last => some last
  | _ => none

theorem last?_label (n : Node α) : n.label.last? = n.statement?.map (·.last) := by
  cases n with
  | top t => cases t <;> rfl
  | value v => cases v <;> rfl
  | spec s => cases s <;> rfl
  | _ => rfl

theorem map_last_filterMap (ns : List (Node α)) :
    (ns.filterMap statement?).map (·.last) = ns.filterMap (·.label.last?) := by
  rw [List.map_filterMap]
  exact List.filterMap_congr fun n _ => (last?_label n).symm

/-- A node with the label of one that is formed as it should be, over references that point forward if
those of the other do, and over statements that are last if those of the other are. -/
theorem Formed.of_label {n : Node α} {n' : Node β} (h : n.Formed) (hLabel : n'.label = n.label)
    (hRefs : (n'.children.filterMap reference?).map (·.forward) =
      (n.children.filterMap reference?).map (·.forward))
    (hLast : n'.children.filterMap (·.label.last?) = n.children.filterMap (·.label.last?)) :
    n'.Formed := by
  rw [formed_iff] at h ⊢
  refine ⟨fun ref' hRef' => ?_, h.2.of_last ?_⟩
  · obtain ⟨ref, hRef, hForward⟩ := List.mem_map.1 (hRefs ▸ List.mem_map_of_mem hRef')
    rw [← hForward, h.1 ref hRef, hLabel]
  · rw [map_last_filterMap, map_last_filterMap, hLast]

theorem formed_map (f : α → β) (n : Node α) : (n.map f).Formed ↔ n.Formed := by
  have hRefs : ((n.map f).children.filterMap reference?).map (·.forward) =
      (n.children.filterMap reference?).map (·.forward) := by
    rw [children_map, List.filterMap_map, List.map_filterMap, List.map_filterMap]
    refine List.filterMap_congr fun k _ => ?_
    cases k <;> rfl
  have hLast : (n.map f).children.filterMap (·.label.last?) =
      n.children.filterMap (·.label.last?) := by
    rw [children_map, List.filterMap_map]
    exact List.filterMap_congr fun k _ => congrArg Label.last? (label_map f k)
  exact ⟨fun h => h.of_label (label_map f n).symm hRefs.symm hLast.symm,
    fun h => h.of_label (label_map f n) hRefs hLast⟩

theorem all_formed_map {f : α → β} {n : Node α} : (n.map f).All Formed ↔ n.All Formed := by
  rw [all_map]
  exact forall₂_congr fun k _ => formed_map f k

theorem all_formed_spec (s : TypeSpec Meta) : (Node.spec s).All Formed := by
  intro k hk
  obtain ⟨s', rfl⟩ := spec_of_mem_nodes hk
  trivial

/-- The names that a node has itself are words, unless it is a type. -/
def Spoken (n : Node α) : Prop := n.spec? = none → n.Worded

theorem all_spoken_map {f : α → β} {n : Node α} : (n.map f).All Spoken ↔ n.All Spoken := by
  rw [all_map]
  refine forall₂_congr fun k _ => ?_
  have hSpec : (k.map f).spec? = none ↔ k.spec? = none := by cases k <;> simp [map, spec?]
  exact imp_congr hSpec (worded_map f k)

theorem all_spoken_spec (s : TypeSpec Meta) : (Node.spec s).All Spoken := by
  intro k hk
  obtain ⟨s', rfl⟩ := spec_of_mem_nodes hk
  exact nofun

namespace Rewritten

variable {f : Revision (TypeSpec Meta)} {k k' : Nat} {ns : List (Node Meta)}
  {news : List (Option (Node Meta))}

theorem filterMap_last? (h : Rewritten f k ns news k') :
    (patch ns news).filterMap (·.label.last?) = ns.filterMap (·.label.last?) := by
  have hSpec (s : TypeSpec Meta) : (Node.spec s).label.last? = none := by cases s <;> rfl
  induction h with
  | nil => rfl
  | @spec _ _ _ s image _ _ _ _ ih =>
    have hImage : ((image.map Node.spec).getD (.spec s)).label.last? = none := by
      cases image <;> exact hSpec _
    rw [patch_cons, List.filterMap_cons, List.filterMap_cons, hImage, hSpec, ih]
  | kept _ _ _ _ _ ih =>
    rw [patch_cons, Option.getD_none, List.filterMap_cons, List.filterMap_cons, ih]
  | rebuilt _ _ _ hLabel _ _ _ _ ih =>
    rw [patch_cons, Option.getD_some, List.filterMap_cons, List.filterMap_cons, hLabel, ih]

theorem formed (h : Rewritten f k ns news k') (hns : ∀ n ∈ ns, n.All Formed) :
    ∀ n ∈ patch ns news, n.All Formed := by
  induction h with
  | nil => exact hns
  | @spec _ _ _ s image _ _ _ _ ih =>
    rw [List.forall_mem_cons] at hns
    refine List.forall_mem_cons.2 ⟨?_, ih hns.2⟩
    cases image <;> exact all_formed_spec _
  | kept _ _ _ _ _ ih =>
    rw [List.forall_mem_cons] at hns
    exact List.forall_mem_cons.2 ⟨hns.1, ih hns.2⟩
  | @rebuilt _ _ _ n n' _ _ _ _ hKids _ hLabel _ hChildren _ ihKids ih =>
    rw [List.forall_mem_cons] at hns
    have hFormed : n'.Formed := by
      refine hns.1.self.of_label hLabel ?_ ?_
      · rw [hChildren, hKids.filterMap_reference?]
      · rw [hChildren, hKids.filterMap_last?]
    have hBelow := ihKids fun j hj => hns.1.child hj
    rw [← hChildren] at hBelow
    exact List.forall_mem_cons.2 ⟨all_iff.2 ⟨hFormed, hBelow⟩, ih hns.2⟩

theorem spoken (h : Rewritten f k ns news k') (hns : ∀ n ∈ ns, n.All Spoken) :
    ∀ n ∈ patch ns news, n.All Spoken := by
  induction h with
  | nil => exact hns
  | @spec _ _ _ s image _ _ _ _ ih =>
    rw [List.forall_mem_cons] at hns
    refine List.forall_mem_cons.2 ⟨?_, ih hns.2⟩
    cases image <;> exact all_spoken_spec _
  | kept _ _ _ _ _ ih =>
    rw [List.forall_mem_cons] at hns
    exact List.forall_mem_cons.2 ⟨hns.1, ih hns.2⟩
  | @rebuilt _ _ _ n n' _ _ _ _ _ _ hLabel _ hChildren _ ihKids ih =>
    rw [List.forall_mem_cons] at hns
    have hBelow := ihKids fun j hj => hns.1.child hj
    rw [← hChildren] at hBelow
    refine List.forall_mem_cons.2 ⟨all_iff.2 ⟨fun hSpec => ?_, hBelow⟩, ih hns.2⟩
    exact (hns.1.self (spec?_eq_none_of_label hLabel.symm hSpec)).of_label hLabel

theorem leading {γ : Type} {g : Meta → γ} (hg : ∀ m id, g { m with id } = g m)
    (h : Rewritten f k ns news k') :
    (patch ns news).flatMap (Node.leading g) = ns.flatMap (Node.leading g) := by
  induction h with
  | nil => rfl
  | @spec _ _ _ s image _ _ _ _ ih =>
    cases image <;>
      rw [patch_cons, List.flatMap_cons, List.flatMap_cons, ih, leading_spec] <;>
      exact congrArg (· ++ _) (leading_spec g _)
  | kept _ _ _ _ _ ih => rw [patch_cons, Option.getD_none, List.flatMap_cons, List.flatMap_cons, ih]
  | @rebuilt _ _ _ n n' _ _ _ _ _ _ hLabel hAnn hChildren _ ihKids ih =>
    rw [patch_cons, Option.getD_some, List.flatMap_cons, List.flatMap_cons, ih, leading_eq g n',
      leading_eq g n, hLabel, hAnn, hg, hChildren, ihKids]

end Rewritten

end Node

/-- A source whose nodes are formed and named as a reader forms and names them, and whose declarations
and references start at different points. -/
structure Root.Shapely (r : Root Meta) : Prop where
  formed : (Node.root r).All Node.Formed
  spoken : (Node.root r).All Node.Spoken
  leading : ((Node.root r).leading Meta.first?).Nodup

theorem Root.read_shapely {fs fs' : Files} {space path text : Text} {next next' : Nat}
    {r : Root Meta} (hFiles : fs.Built)
    (h : Root.read fs space path text next = (fs', .ok r, next')) : r.Shapely := by
  obtain ⟨-, -, hOk⟩ := Root.read_spec h
  obtain ⟨-, -, hWorded⟩ := hOk r rfl
  refine ⟨?_, hWorded.mono fun n hn _ => hn, Root.read_leading hFiles h⟩
  obtain ⟨root, hParse, rfl⟩ := (Root.parse_of_read h).1 r rfl
  exact (Node.all_formed_map (n := .root root)).2 (Root.parse_formed space text next _ hParse)

namespace Root.Shapely

variable {r : Root Meta}

theorem place (h : r.Shapely) : r.place.Shapely := by
  have hSame : (Node.root r.place).map Meta.unplaced = (Node.root r).map Meta.unplaced :=
    r.unplaced_place
  refine ⟨?_, ?_, ?_⟩
  · rw [← Node.all_formed_map (f := Meta.unplaced), hSame, Node.all_formed_map]
    exact h.formed
  · rw [← Node.all_spoken_map (f := Meta.unplaced), hSame, Node.all_spoken_map]
    exact h.spoken
  · have hFirst : Meta.first? = Meta.first? ∘ Meta.unplaced := rfl
    rw [hFirst, ← Node.leading_map, hSame, Node.leading_map, ← hFirst]
    exact h.leading

theorem rewritten {f : Revision (TypeSpec Meta)} {k k' : Nat} {new : Option (Root Meta)}
    (h : r.Shapely) (hNew : Node.Rewritten f k [.root r] [new.map .root] k') :
    (new.getD r).Shapely := by
  have hPatch : patch [Node.root r] [new.map .root] = [.root (new.getD r)] := by
    cases new <;> rfl
  have hFormed := hNew.formed (List.forall_mem_singleton.2 h.formed)
  have hSpoken := hNew.spoken (List.forall_mem_singleton.2 h.spoken)
  have hLeading := hNew.leading (g := Meta.first?) fun _ _ => rfl
  rw [hPatch, List.flatMap_singleton, List.flatMap_singleton] at hLeading
  rw [hPatch] at hFormed hSpoken
  exact ⟨hFormed _ (List.mem_singleton_self _), hSpoken _ (List.mem_singleton_self _),
    hLeading ▸ h.leading⟩

end Root.Shapely

end Assay
