import Mathlib
import Assay.Proofs.Numbered

/-! The flat form of types. A type is flat if no union or intersection in it has a component of its
own kind, two components that read alike, or one component only. Flattening gives a flat type and
leaves none but flat types as they are. -/

namespace Assay

namespace Node

theorem flat_congr {n n' : Node Meta} (hLabel : n'.label = n.label)
    (hChildren : n'.children = n.children) : n'.Flat ↔ n.Flat := by
  simp only [flat_iff, isGroup, hLabel, hChildren]

/-- Over flat components a union or an intersection has none of its own kind. -/
theorem label_of_mem_gather {n j : Node Meta} {kids : List (Node Meta)} (hn : n.isGroup)
    (hKids : ∀ i ∈ kids, i.All Flat) (h : j ∈ n.gather true kids) : j.label ≠ n.label := by
  rw [gather, hn] at h
  obtain ⟨i, hi, hj⟩ := List.mem_flatMap.1 (Text.mem_of_mem_dedupBy h)
  split at hj
  · rename_i hSame
    have hGroup : i.isGroup := by rwa [isGroup, hSame]
    exact hSame ▸ (flat_iff.1 (hKids i hi).self hGroup).1 j hj
  · rwa [List.mem_singleton.1 hj]

namespace Recast

variable {E : Node Meta → Label → Prop} {splices c : Bool} {k k' : Nat} {ns ns' : List (Node Meta)}

theorem flat (h : Recast TypeSpec.Labelled true k ns ns' c k') :
    (∀ n ∈ ns', n.All Flat) ∧ (c = false ↔ ∀ n ∈ ns, n.All Flat) := by
  have hBelow {n : Node Meta} {kids : List (Node Meta)} (hKids : ∀ i ∈ kids, i.All Flat) (j : Node Meta)
      (hj : j ∈ n.gather true kids) : j.All Flat :=
    (mem_gather hj).elim (hKids j) fun ⟨i, hi, hj⟩ => (hKids i hi).child hj
  induction h with
  | nil => simp
  | append _ _ ihx ihy =>
    rw [List.forall_mem_append, List.forall_mem_append, Bool.or_eq_false_iff, ihx.2, ihy.2]
    exact ⟨⟨ihx.1, ihy.1⟩, .rfl⟩
  | kept _ hFlat _ ih =>
    have hn := List.forall_mem_singleton.2 (all_iff.2 ⟨hFlat rfl, ih.1⟩)
    exact ⟨hn, iff_of_true rfl hn⟩
  | @rebuilt _ _ n n' kids c hLabel _ _ hChildren hSeveral hNew ih =>
    have hLabel : n'.label = n.label := hLabel
    refine ⟨List.forall_mem_singleton.2 (all_iff.2 ⟨flat_iff.2 fun hGroup => ?_, ?_⟩),
      iff_of_false (by simp) fun hns => ?_⟩
    · have hn : n.isGroup := by rwa [isGroup, ← hLabel]
      refine ⟨fun j hj => hLabel ▸ label_of_mem_gather hn ih.1 (hChildren ▸ hj), ?_, hSeveral rfl hn⟩
      rw [hChildren, gather, hn]
      exact Text.nodup_dedupBy _
    · exact hChildren ▸ hBelow ih.1
    · have hn := List.forall_mem_singleton.1 hns
      exact (hNew (ih.2.2 fun j hj => hn.child hj) hLabel).2 hn.self
  | @one _ _ n n' part kids c _ _ hOne hNew hLabel hChildren _ ih =>
    have hPart := hBelow ih.1 part (hOne ▸ List.mem_singleton_self part)
    refine ⟨List.forall_mem_singleton.2 (all_iff.2 ⟨(flat_congr hLabel hChildren).2 hPart.self,
      fun j hj => hPart.child (hChildren ▸ hj)⟩), iff_of_false (by simp) fun hns => ?_⟩
    have hn := List.forall_mem_singleton.1 hns
    exact hNew (ih.2.2 fun j hj => hn.child hj) hn.self

theorem of_nil (h : Recast E splices k ns ns' c k') (hNil : ns = []) :
    ns' = [] ∧ c = false ∧ k' = k := by
  induction h with
  | nil => exact ⟨rfl, rfl, rfl⟩
  | append _ _ ihx ihy =>
    obtain ⟨rfl, rfl⟩ := List.append_eq_nil_iff.1 hNil
    obtain ⟨rfl, rfl, rfl⟩ := ihx rfl
    exact ihy rfl
  | kept | rebuilt | one => cases hNil

theorem new_at {n : Node Meta} (h : Recast E splices k ns ns' c k') (hn : ns = [n])
    (hc : c = true) :
    ∃ n', ns' = [n'] ∧ n'.ann.position = n.ann.position ∧ k ≤ n'.ann.id ∧ n'.ann.id < k' := by
  induction h with
  | nil => cases hn
  | append hx hy ihx ihy =>
    obtain ⟨rfl, rfl⟩ | ⟨rfl, rfl⟩ := List.append_eq_singleton_iff.1 hn
    · obtain ⟨rfl, rfl, rfl⟩ := hx.of_nil rfl
      exact ihy rfl hc
    · obtain ⟨rfl, rfl, rfl⟩ := hy.of_nil rfl
      rw [Bool.or_false] at hc
      simpa using ihx rfl hc
  | kept => cases hc
  | rebuilt _ hAnn hKids =>
    obtain rfl := List.singleton_inj.1 hn
    refine ⟨_, rfl, ?_⟩
    rw [hAnn]
    exact ⟨rfl, hKids.le, Nat.lt_succ_self _⟩
  | one _ hKids _ _ _ _ hAnn =>
    obtain rfl := List.singleton_inj.1 hn
    refine ⟨_, rfl, ?_⟩
    rw [hAnn]
    exact ⟨rfl, hKids.le, Nat.lt_succ_self _⟩

end Recast

end Node

namespace TypeSpec

def IsFlat (s : TypeSpec Meta) : Prop := (Node.spec s).All Node.Flat

theorem isFlat_inter (m : Meta) (types : List (TypeSpec Meta)) :
    IsFlat (.inter m types) ↔ Spliced interParts? types ∧ ∀ t ∈ types, t.IsFlat := by
  rw [IsFlat, Node.all_iff]
  exact and_congr_right fun _ => List.forall_mem_map

theorem interParts?_flat {s : TypeSpec Meta} {inner : List (TypeSpec Meta)}
    (h : interParts? s = some inner) (hs : s.IsFlat) :
    ∀ t ∈ inner, t.IsFlat ∧ interParts? t = none := by
  cases s <;> simp only [interParts?, reduceCtorEq, Option.some.injEq] at h
  subst h
  obtain ⟨hSpliced, hTypes⟩ := (isFlat_inter _ _).1 hs
  exact fun t ht => ⟨hTypes t ht, hSpliced.other t ht⟩

theorem flatten?_flat {k : Nat} (s : TypeSpec Meta) :
    (flatten? s).Gives k fun new _ => (new.getD s).IsFlat ∧ (new = none ↔ s.IsFlat) := by
  refine (flatten?_recast k s).mono fun new k' _ h => ?_
  have hFlat := h.flat
  rw [List.forall_mem_singleton, List.forall_mem_singleton, Option.isSome_eq_false_iff,
    Option.isNone_iff_eq_none] at hFlat
  exact hFlat

theorem flatten_flat (s : TypeSpec Meta) (k : Nat) : ((flatten s) k).1.IsFlat :=
  (flatten?_flat (k := k) s).2.1

/-- Flattening leaves exactly the flat types as they are. Another type becomes a flat type: a new node,
at the place of the type and under a number that was not given to any node before. So what flattening
gives is not changed by it again. -/
theorem flatten_normalizes (s : TypeSpec Meta) (k : Nat) :
    (match flatten? s k with
      | (none, _) => s.IsFlat ∧ (flatten s k).1 = s
      | (some t, k') => ¬s.IsFlat ∧ (flatten s k).1 = t ∧ t.IsFlat ∧ t ≠ s ∧
        t.ann.position = s.ann.position ∧ k ≤ t.ann.id ∧ t.ann.id < k') ∧
    ∀ k', (flatten? (flatten s k).1 k').1 = none ∧
      (flatten (flatten s k).1 k').1 = (flatten s k).1 := by
  have hGiven (s : TypeSpec Meta) (k : Nat) : (flatten s k).1 = (flatten? s k).1.getD s := rfl
  have hAgain (k' : Nat) : (flatten? (flatten s k).1 k').1 = none :=
    (flatten?_flat _).2.2.2 (flatten_flat s k)
  obtain ⟨-, hFlat, hNone⟩ := flatten?_flat (k := k) s
  obtain ⟨-, hRecast⟩ := flatten?_recast k s
  refine ⟨?_, fun k' => ⟨hAgain k', by rw [hGiven _ k', hAgain, Option.getD_none]⟩⟩
  rw [hGiven s k]
  split
  · rename_i k' hs
    rw [hs] at hNone ⊢
    exact ⟨hNone.1 rfl, rfl⟩
  · rename_i t k' hs
    rw [hs] at hFlat hNone hRecast ⊢
    have hOther : ¬s.IsFlat := fun h => nomatch hNone.2 h
    obtain ⟨n', hEq, hNew⟩ := hRecast.new_at rfl rfl
    obtain rfl := List.singleton_inj.1 hEq
    exact ⟨hOther, rfl, hFlat, fun h => hOther (h ▸ hFlat), hNew⟩

end TypeSpec

end Assay
