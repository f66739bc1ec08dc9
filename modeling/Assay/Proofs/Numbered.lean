import Assay.Proofs.Placed

/-! The numbers of the nodes of a revised tree. What a revision gives has each number once if what it
was given has: it leaves out numbers and draws new ones, but takes none over twice. -/

namespace Assay

/-- Numbers that are drawn from old ones and from those from `k` up to `k'`, none of them twice if
the old ones are distinct and below `k`. -/
structure Drawn (k k' : Nat) (old new : List Nat) : Prop where
  le : k ≤ k'
  nodup : old.Nodup → (∀ i ∈ old, i < k) → new.Nodup
  from_ : ∀ i ∈ new, i ∈ old ∨ k ≤ i ∧ i < k'

namespace Drawn

variable {k k₁ k' : Nat} {xs xs' ys ys' : List Nat}

theorem refl (hLe : k ≤ k') (xs : List Nat) : Drawn k k' xs xs :=
  ⟨hLe, fun h _ => h, fun _ h => .inl h⟩

theorem append (hx : Drawn k k₁ xs xs') (hy : Drawn k₁ k' ys ys') :
    Drawn k k' (xs ++ ys) (xs' ++ ys') := by
  have hLe := hx.le
  have hLe' := hy.le
  refine ⟨hLe.trans hLe', fun hOld hBelow => ?_, fun i hi => ?_⟩
  · obtain ⟨hxs, hys, hApart⟩ := List.nodup_append.1 hOld
    obtain ⟨hxBelow, hyBelow⟩ := List.forall_mem_append.1 hBelow
    have hyBelow' : ∀ i ∈ ys, i < k₁ := fun i hi => (hyBelow i hi).trans_le hLe
    refine List.nodup_append.2 ⟨hx.nodup hxs hxBelow, hy.nodup hys hyBelow', ?_⟩
    rintro i hi j hj rfl
    obtain hi | hi := hx.from_ i hi <;> obtain hj | hj := hy.from_ i hj
    · exact hApart i hi i hj rfl
    · have := hxBelow i hi
      omega
    · have := hyBelow i hj
      omega
    · omega
  · obtain hi | hi := List.mem_append.1 hi
    · obtain hi | hi := hx.from_ i hi
      · exact .inl (List.mem_append_left _ hi)
      · exact .inr ⟨hi.1, by omega⟩
    · obtain hi | hi := hy.from_ i hi
      · exact .inl (List.mem_append_right _ hi)
      · exact .inr ⟨by omega, hi.2⟩

theorem sublist (h : Drawn k k' xs xs') (hOld : xs.Sublist ys) (hNew : ys'.Sublist xs') :
    Drawn k k' ys ys' := by
  refine ⟨h.le, fun hys hBelow => ?_, fun i hi => ?_⟩
  · have hxs := h.nodup (hys.sublist hOld) fun i hi => hBelow i (hOld.subset hi)
    exact hxs.sublist hNew
  · exact (h.from_ i (hNew.subset hi)).imp_left fun hi => hOld.subset hi

theorem next (h : Drawn k k' xs xs') : Drawn k (k' + 1) xs (k' :: xs') := by
  have hLe := h.le
  refine ⟨by omega, fun hxs hBelow => ?_, fun i hi => ?_⟩
  · refine List.nodup_cons.2 ⟨fun hi => ?_, h.nodup hxs hBelow⟩
    obtain hi | hi := h.from_ _ hi
    · have := hBelow _ hi
      omega
    · omega
  · obtain rfl | hi := List.mem_cons.1 hi
    · exact .inr ⟨hLe, Nat.lt_succ_self _⟩
    · exact (h.from_ i hi).imp_right fun hi => ⟨hi.1, by omega⟩

theorem renew (i : Nat) (h : Drawn k k' xs xs') : Drawn k (k' + 1) (i :: xs) (k' :: xs') :=
  h.next.sublist (List.sublist_cons_self _ _) (.refl _)

end Drawn

namespace Node

theorem ids_gather_sublist (splices : Bool) (n : Node Meta) (kids : List (Node Meta)) :
    ((n.gather splices kids).flatMap ids).Sublist (kids.flatMap ids) := by
  unfold gather
  split
  · refine ((Text.dedupBy_sublist text _).flatMap ids).trans ?_
    rw [splice, List.flatMap_assoc]
    refine List.Sublist.flatMap_right _ fun j _ => ?_
    split
    · rw [ids_eq]
      exact List.sublist_cons_self _ _
    · rw [List.flatMap_singleton]
  · exact .refl _

theorem Recast.drawn {E : Node Meta → Label → Prop} {splices c : Bool} {k k' : Nat}
    {ns ns' : List (Node Meta)} (h : Recast E splices k ns ns' c k') :
    Drawn k k' (ns.flatMap ids) (ns'.flatMap ids) := by
  induction h with
  | nil k => exact .refl (Nat.le_refl k) _
  | append _ _ ihx ihy =>
    rw [List.flatMap_append, List.flatMap_append]
    exact ihx.append ihy
  | kept _ _ hKids _ => exact .refl hKids.le _
  | @rebuilt _ _ n n' kids _ _ hAnn _ hChildren _ _ ih =>
    rw [List.flatMap_singleton, List.flatMap_singleton, ids_eq n', ids_eq n, hAnn, hChildren]
    exact (ih.sublist (.refl _) (ids_gather_sublist splices n kids)).renew _
  | @one _ _ n n' part kids _ _ _ hOne _ _ hChildren hAnn ih =>
    have hPart := ids_gather_sublist splices n kids
    rw [hOne, List.flatMap_singleton, ids_eq] at hPart
    rw [List.flatMap_singleton, List.flatMap_singleton, ids_eq n', ids_eq n, hAnn, hChildren]
    exact (ih.sublist (.refl _) ((List.sublist_cons_self _ _).trans hPart)).renew _

end Node

theorem Root.Recast.drawn {E : Node Meta → Node.Label → Prop} {splices c : Bool} {k k' : Nat}
    {r r' : Root Meta} (h : r.Recast E splices k r' c k') :
    Drawn k k' (Node.root r).ids (Node.root r').ids := by
  simpa using h.recast.drawn

end Assay
