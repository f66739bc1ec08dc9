import Mathlib
import Assay.Proofs.Rewritten
import Assay.Store

/-! What becomes of a tree that is rewritten: which of its nodes are the same as before, which are
built anew and under which numbers, and what the store knows of these. -/

namespace Assay

variable {st : Store} {f : Revision (TypeSpec Meta)} {k : Nat} {n n' : Node Meta}

namespace Store

variable {i j : Nat}

theorem refsOf?_setRefs_self (st : Store) (i : Nat) (symbols : List Symbol) :
    (st.setRefs i symbols).refsOf? i = some symbols := by
  simp [refsOf?, setRefs]

theorem refsOf?_setRefs_of_ne (st : Store) (symbols : List Symbol) (h : j ≠ i) :
    (st.setRefs i symbols).refsOf? j = st.refsOf? j := by
  simp [refsOf?, setRefs, List.lookup, beq_eq_false_iff_ne.2 h]

theorem typeOf?_setType_self (st : Store) (i : Nat) (t : TypeSpec Meta) :
    (st.setType i t).typeOf? i = some t := by
  simp [typeOf?, setType]

theorem typeOf?_setType_of_ne (st : Store) (t : TypeSpec Meta) (h : j ≠ i) :
    (st.setType i t).typeOf? j = st.typeOf? j := by
  simp [typeOf?, setType, List.lookup, beq_eq_false_iff_ne.2 h]

theorem refsOf?_mem {symbols : List Symbol} (h : st.refsOf? i = some symbols) :
    (i, symbols) ∈ st.refs := by
  obtain ⟨before, after, hSplit, _⟩ := List.lookup_eq_some_iff.1 h
  rw [hSplit]
  simp

theorem derive_frame (st : Store) (i j : Nat) : (st.derive i j).table = st.table ∧
    (st.derive i j).tops = st.tops ∧ (st.derive i j).links = st.links ∧
      (st.derive i j).next = st.next := by
  unfold derive
  cases st.typeOf? i with
  | none =>
    simp only [Option.elim_none]
    cases st.refsOf? i <;> exact ⟨rfl, rfl, rfl, rfl⟩
  | some t =>
    simp only [Option.elim_some]
    cases (st.setType j t).refsOf? i <;> exact ⟨rfl, rfl, rfl, rfl⟩

theorem inherit_frame (st : Store) (n n' : Node Meta) : (st.inherit n n').table = st.table ∧
    (st.inherit n n').tops = st.tops ∧ (st.inherit n n').links = st.links ∧
      (st.inherit n n').next = st.next := by
  unfold inherit
  generalize n.renewals Meta.id n' = pairs
  induction pairs generalizing st with
  | nil => exact ⟨rfl, rfl, rfl, rfl⟩
  | cons p rest ih =>
    obtain ⟨hTable, hTops, hLinks, hNext⟩ := st.derive_frame p.1 p.2
    rw [List.foldl_cons]
    obtain ⟨hTable', hTops', hLinks', hNext'⟩ := ih (st.derive p.1 p.2)
    exact ⟨hTable'.trans hTable, hTops'.trans hTops, hLinks'.trans hLinks, hNext'.trans hNext⟩

theorem renew_of_declared {r : Root Meta} {d : Declared} (h : st.declaredBy? r.top = some d)
    (r' : Root Meta) : st.renew r r' = (st.inherit (.root r) (.root r')).setTop d.id r'.top := by
  obtain ⟨-, hTops, -, -⟩ := st.inherit_frame (.root r) (.root r')
  have hFind : (st.inherit (.root r) (.root r')).declaredBy? r.top = some d := by
    rw [declaredBy?, hTops, ← declaredBy?, h]
  simp only [renew, hFind]

theorem renew_eq_or (st : Store) (r r' : Root Meta) :
    (∃ i, st.renew r r' = (st.inherit (.root r) (.root r')).setTop i r'.top) ∨
      st.renew r r' = st.inherit (.root r) (.root r') := by
  unfold renew
  simp only
  split
  · exact .inl ⟨_, rfl⟩
  · exact .inr rfl

theorem renew_known (st : Store) (r r' : Root Meta) :
    (st.renew r r').typeOf? = (st.inherit (.root r) (.root r')).typeOf? ∧
      (st.renew r r').refsOf? = (st.inherit (.root r) (.root r')).refsOf? := by
  obtain ⟨_, hRenew⟩ | hRenew := st.renew_eq_or r r'
  · rw [hRenew]
    exact ⟨rfl, rfl⟩
  · rw [hRenew]
    exact ⟨rfl, rfl⟩

theorem typeOf?_derive (st : Store) (i j m : Nat) :
    (st.derive i j).typeOf? m =
      if m = j then (st.typeOf? i).or (st.typeOf? j) else st.typeOf? m := by
  have hRefs (typed : Store) (symbols : Option (List Symbol)) :
      (symbols.elim typed (typed.setRefs j)).typeOf? m = typed.typeOf? m := by
    cases symbols <;> rfl
  rw [derive, hRefs]
  cases hType : st.typeOf? i with
  | none =>
    rw [Option.elim_none, Option.none_or]
    split
    · subst m
      rfl
    · rfl
  | some t =>
    rw [Option.elim_some, Option.some_or]
    split
    · subst m
      exact typeOf?_setType_self st j t
    · exact typeOf?_setType_of_ne st t ‹_›

theorem refsOf?_derive (st : Store) (i j m : Nat) :
    (st.derive i j).refsOf? m =
      if m = j then (st.refsOf? i).or (st.refsOf? j) else st.refsOf? m := by
  have hTyped (t : Option (TypeSpec Meta)) (m : Nat) :
      (t.elim st (st.setType j)).refsOf? m = st.refsOf? m := by
    cases t <;> rfl
  rw [derive, hTyped]
  cases hRefs : st.refsOf? i with
  | none =>
    rw [Option.elim_none, Option.none_or, hTyped]
    split
    · subst m
      rfl
    · rfl
  | some symbols =>
    rw [Option.elim_some, Option.some_or]
    split
    · subst m
      exact refsOf?_setRefs_self _ j symbols
    · rw [refsOf?_setRefs_of_ne _ symbols ‹_›, hTyped]

/-- What is known of nodes that are built anew one after the other is what was known of those in whose
places they stand; nothing is forgotten of others. -/
theorem look_foldl_derive {β : Type} (look : Store → Nat → Option β) (hLook : ∀ st i j m, look
      (derive st i j) m = if m = j then (look st i).or (look st j) else look st m)
    {pairs : List (Nat × Nat)} (hNodup : (pairs.map Prod.snd).Nodup)
    (hApart : ∀ p ∈ pairs, ∀ q ∈ pairs, p.1 ≠ q.2) (hNew : ∀ p ∈ pairs, look st p.2 = none) :
    (∀ p ∈ pairs, look (pairs.foldl (fun st p => st.derive p.1 p.2) st) p.2 = look st p.1) ∧
      ∀ m, m ∉ pairs.map Prod.snd →
        look (pairs.foldl (fun st p => st.derive p.1 p.2) st) m = look st m := by
  induction pairs generalizing st with
  | nil => exact ⟨by simp, fun _ _ => rfl⟩
  | cons pair rest ih =>
    obtain ⟨i, j⟩ := pair
    rw [List.map_cons, List.nodup_cons] at hNodup
    rw [List.foldl_cons]
    have hRest (q : Nat × Nat) (hq : q ∈ rest) : q.2 ≠ j := fun h =>
      hNodup.1 (List.mem_map.2 ⟨q, hq, h⟩)
    obtain ⟨hEach, hOther⟩ := @ih (st.derive i j) hNodup.2
      (fun p hp q hq => hApart p (List.mem_cons_of_mem _ hp) q (List.mem_cons_of_mem _ hq))
      fun q hq => by
        rw [hLook, if_neg (hRest q hq)]
        exact hNew q (List.mem_cons_of_mem _ hq)
    refine ⟨List.forall_mem_cons.2 ⟨?_, fun q hq => ?_⟩, fun m hm => ?_⟩
    · rw [hOther j hNodup.1, hLook, if_pos rfl, hNew (i, j) List.mem_cons_self, Option.or_none]
    · rw [hEach q hq, hLook, if_neg (hApart q (List.mem_cons_of_mem _ hq) (i, j) List.mem_cons_self)]
    · rw [List.map_cons, List.mem_cons, not_or] at hm
      rw [hOther m hm.2, hLook, if_neg hm.1]

/-- Nothing is known of nodes with numbers from `k` on. -/
structure Unknown (k : Nat) (st : Store) : Prop where
  types : ∀ i, k ≤ i → st.typeOf? i = none
  refs : ∀ i, k ≤ i → st.refsOf? i = none

end Store

theorem Node.top_of_label {n : Node Meta} {t : TopLevel Meta} (h : n.label = (Node.top t).label) :
    ∃ t', n = .top t' := by
  cases n with
  | top t' => exact ⟨t', rfl⟩
  | value v => cases t <;> cases v <;> cases h
  | spec s => cases t <;> cases s <;> cases h
  | _ => cases t <;> cases h

namespace Store

/-- The symbol that a node declares as the top-level node of a source; no other node has one. -/
def symbolOf? (st : Store) : Node Meta → Option Symbol
  | .top t => (st.declaredBy? t).map Declared.symbol
  | _ => none

/-- Each declaration has a number of its own, below `k`. -/
structure Declares (k : Nat) (st : Store) : Prop where
  below : ∀ d ∈ st.tops, d.id < k ∧ d.top.ann.id < k
  distinct : (st.tops.map (·.id)).Nodup

theorem Declares.symbolOf?_renew (h : st.Declares k) {r r' : Root Meta} (hNew : k ≤ r'.top.ann.id) :
    (st.renew r r').symbolOf? (.top r'.top) = st.symbolOf? (.top r.top) := by
  obtain ⟨-, hTops, -, -⟩ := st.inherit_frame (.root r) (.root r')
  have hOther (d : Declared) (hd : d ∈ st.tops) :
      (d.id = r'.top.ann.id || d.top.ann.id = r'.top.ann.id) = false := by
    obtain ⟨hId, hTop⟩ := h.below d hd
    simp only [Bool.or_eq_false_iff, decide_eq_false_iff_not]
    omega
  rw [symbolOf?, symbolOf?]
  cases hFind : st.declaredBy? r.top with
  | none =>
    have hSame : (st.inherit (.root r) (.root r')).declaredBy? r.top = none := by
      rw [declaredBy?, hTops, ← declaredBy?, hFind]
    simp only [renew, hSame]
    rw [declaredBy?, hTops, List.find?_eq_none.2 fun d hd => by simp [hOther d hd]]
  | some d =>
    have hd := List.mem_of_find?_eq_some hFind
    have hIds : st.top? d.id = some d := by
      obtain ⟨d', hd'⟩ := Option.isSome_iff_exists.1
        (List.find?_isSome (p := fun x : Declared => x.id = d.id) |>.2 ⟨d, hd, by simp⟩)
      have hId : d'.id = d.id := by simpa using List.find?_some hd'
      rw [top?, hd', List.inj_on_of_nodup_map h.distinct (List.mem_of_find?_eq_some hd') hd hId]
    rw [renew_of_declared hFind, declaredBy?, setTop, hTops, List.find?_map]
    -- Of the declarations with another tree now, the one found has the new top-level node.
    have hSame : ∀ x ∈ st.tops, ((fun d : Declared => d.id = r'.top.ann.id ||
        d.top.ann.id = r'.top.ann.id) ∘ fun x => if x.id = d.id then { x with top := r'.top } else x) x =
          decide (x.id = d.id) := by
      intro x hx
      by_cases hId : x.id = d.id
      · simp [hId]
      · simpa [hId] using hOther x hx
    rw [List.find?_congr hSame, ← top?, hIds]
    simp [Declared.symbol]

theorem Declares.symbolOf?_renewed (h : st.Declares k) {r r' : Root Meta} {n n' : Node Meta}
    (hLabel : n'.label = n.label) (hn : n ∈ (Node.root r).nodes) (hn' : n' ∈ (Node.root r').nodes)
    (hNew : k ≤ n'.ann.id) : (st.renew r r').symbolOf? n' = st.symbolOf? n := by
  cases n' with
  | top t' =>
    obtain ⟨t, rfl⟩ := Node.top_of_label hLabel.symm
    obtain rfl := Node.top_of_mem_nodes hn
    obtain rfl := Node.top_of_mem_nodes hn'
    exact h.symbolOf?_renew hNew
  | _ =>
    cases n with
    | top t => obtain ⟨_, ⟨⟩⟩ := Node.top_of_label hLabel
    | _ => rfl

end Store

theorem exists_of_forall₂ {α β : Type} {R : α → β → Prop} {xs : List α} {ys : List β} {y : β}
    (h : List.Forall₂ R xs ys) (hy : y ∈ ys) : ∃ x ∈ xs, R x y := by
  induction h with
  | nil => cases hy
  | @cons x _ _ _ hR _ ih =>
    obtain rfl | hy := List.mem_cons.1 hy
    · exact ⟨x, List.mem_cons_self, hR⟩
    · obtain ⟨x', hx', hR'⟩ := ih hy
      exact ⟨x', List.mem_cons_of_mem _ hx', hR'⟩

/-- Within a run from the number `k` on up to `k'`, a revision gives a type the image `image`, or keeps
it. -/
def Revision.Image (f : Revision (TypeSpec Meta)) (k k' : Nat) (s : TypeSpec Meta)
    (image : Option (TypeSpec Meta)) : Prop :=
  ∃ k₁ k₂, k ≤ k₁ ∧ k₂ ≤ k' ∧ (f s).run k₁ = (.ok image, k₂)

theorem Revision.Image.widen {k₀ k' k'' : Nat} {s : TypeSpec Meta} {image : Option (TypeSpec Meta)}
    (h : f.Image k k' s image) (hLe : k₀ ≤ k) (hLe' : k' ≤ k'') : f.Image k₀ k'' s image := by
  obtain ⟨k₁, k₂, hk₁, hk₂, hRun⟩ := h
  exact ⟨k₁, k₂, hLe.trans hk₁, hk₂.trans hLe', hRun⟩

namespace Node

theorem outer_subset (n : Node Meta) : n.outer ⊆ n.nodes := by
  induction n using Node.induct with
  | _ n ih =>
    intro j hj
    cases hn : n.spec? with
    | none =>
      rw [outer_eq hn, List.mem_cons, List.mem_flatMap] at hj
      rw [nodes_eq, List.mem_cons, List.mem_flatMap]
      exact hj.imp_right fun ⟨k, hk, hj⟩ => ⟨k, hk, ih k hk hj⟩
    | some s =>
      cases n with
      | spec s' =>
        rw [outer_spec, List.mem_singleton] at hj
        exact hj ▸ self_mem_nodes _
      | _ => cases hn

theorem renewals_self (n : Node Meta) : renewals Meta.id n n = [] := by
  rw [renewals.eq_def, if_pos rfl]

theorem renewals_spec (s : TypeSpec Meta) (n' : Node Meta) :
    renewals Meta.id (.spec s) n' = [] := by
  rw [renewals.eq_def]
  split <;> rfl

/-- The numbers of nodes that others have built anew, each with the new one. -/
def renewalsOf (ns ns' : List (Node Meta)) : List (Nat × Nat) :=
  (ns.zip ns').flatMap fun p => renewals Meta.id p.1 p.2

theorem renewals_eq (hn : n.spec? = none) (hNe : n.ann.id ≠ n'.ann.id) :
    renewals Meta.id n n' = (n.ann.id, n'.ann.id) :: renewalsOf n.children n'.children := by
  have hZip : renewalsOf n.children n'.children =
      (n.children.attach.zip n'.children).flatMap fun p => renewals Meta.id p.1.1 p.2 := by
    rw [renewalsOf, ← List.attach_map_subtype_val n.children, List.zip_map_left, List.flatMap_map,
      List.attach_map_subtype_val]
    rfl
  rw [renewals.eq_def, if_neg hNe]
  cases n with
  | spec s => cases hn
  | _ => exact congrArg _ hZip.symm

theorem renewalsOf_cons (n n' : Node Meta) (ns ns' : List (Node Meta)) :
    renewalsOf (n :: ns) (n' :: ns') = renewals Meta.id n n' ++ renewalsOf ns ns' := by
  rw [renewalsOf, List.zip_cons_cons, List.flatMap_cons]
  rfl

theorem getD_map_spec (s : TypeSpec Meta) (image : Option (TypeSpec Meta)) :
    (image.map Node.spec).getD (.spec s) = .spec (image.getD s) := by
  cases image <;> rfl

/-- Whether a node is outside the types and has a number from `low` on. -/
def isAnew (low : Nat) (n : Node Meta) : Bool := n.spec?.isNone && low ≤ n.ann.id

/-- Nodes with numbers below `low` that are built anew under numbers from `k` on up to `k'`, each under
one of its own. -/
structure Renews (low k k' : Nat) (pairs : List (Nat × Nat)) : Prop where
  nodup : (pairs.map Prod.snd).Nodup
  old : ∀ p ∈ pairs, p.1 < low
  new : ∀ p ∈ pairs, k ≤ p.2 ∧ p.2 < k'

namespace Renews

variable {low k k₁ k' : Nat} {xs ys : List (Nat × Nat)}

theorem nil (low k : Nat) : Renews low k k [] := ⟨List.nodup_nil, by simp, by simp⟩

theorem widen (h : Renews low k₁ k' xs) (hLe : k ≤ k₁) : Renews low k k' xs :=
  ⟨h.nodup, h.old, fun p hp => ⟨hLe.trans (h.new p hp).1, (h.new p hp).2⟩⟩

theorem append (hx : Renews low k k₁ xs) (hy : Renews low k₁ k' ys) (hLe : k ≤ k₁)
    (hLe' : k₁ ≤ k') : Renews low k k' (xs ++ ys) where
  nodup := by
    rw [List.map_append]
    refine hx.nodup.append hy.nodup fun i hi hi' => ?_
    obtain ⟨p, hp, rfl⟩ := List.mem_map.1 hi
    obtain ⟨q, hq, hEq⟩ := List.mem_map.1 hi'
    have := hx.new p hp
    have := hy.new q hq
    omega
  old := List.forall_mem_append.2 ⟨hx.old, hy.old⟩
  new := List.forall_mem_append.2
    ⟨fun p hp => ⟨(hx.new p hp).1, (hx.new p hp).2.trans_le hLe'⟩,
      fun p hp => ⟨hLe.trans (hy.new p hp).1, (hy.new p hp).2⟩⟩

theorem cons {i : Nat} (hx : Renews low k k₁ xs) (hi : i < low) (hLe : k ≤ k₁) :
    Renews low k (k₁ + 1) ((i, k₁) :: xs) where
  nodup := by
    rw [List.map_cons, List.nodup_cons]
    refine ⟨fun hMem => ?_, hx.nodup⟩
    obtain ⟨p, hp, hEq⟩ := List.mem_map.1 hMem
    have := hx.new p hp
    omega
  old := List.forall_mem_cons.2 ⟨hi, hx.old⟩
  new := List.forall_mem_cons.2 ⟨⟨hLe, Nat.lt_succ_self k₁⟩,
    fun p hp => ⟨(hx.new p hp).1, (hx.new p hp).2.trans (Nat.lt_succ_self k₁)⟩⟩

end Renews

namespace Rewritten

variable {f : Revision (TypeSpec Meta)} {F : Fault → Prop} {low k k' : Nat} {ns : List (Node Meta)}
  {news : List (Option (Node Meta))}

theorem renews (h : Rewritten f k ns news k') (hf : Revisable f F low ns) (hk : low ≤ k)
    (hBelow : ∀ n ∈ ns, n.All (·.ann.id < low)) :
    Renews low k k' (renewalsOf ns (patch ns news)) := by
  induction h with
  | nil k => exact .nil low k
  | @spec _ _ _ s image _ _ hImage hRest ih =>
    obtain ⟨hs, hMore⟩ := revisable_cons.1 hf
    have hLe := ((hs s (by simp [specs_spec]) _ hk).of_run hImage).1
    rw [patch_cons, renewalsOf_cons, renewals_spec]
    exact (ih hMore (hk.trans hLe) (List.forall_mem_cons.1 hBelow).2).widen hLe
  | kept hn hKids _ hRest _ ih =>
    obtain ⟨hHead, hMore⟩ := revisable_cons.1 hf
    have hLe := hKids.le (hHead.below hn) hk
    rw [patch_cons, renewalsOf_cons, Option.getD_none, renewals_self]
    exact (ih hMore (hk.trans hLe) (List.forall_mem_cons.1 hBelow).2).widen hLe
  | @rebuilt _ k₁ _ n n' _ _ _ hn hKids _ _ hAnn hChildren hRest ihKids ih =>
    obtain ⟨hHead, hMore⟩ := revisable_cons.1 hf
    obtain ⟨hnBelow, hnsBelow⟩ := List.forall_mem_cons.1 hBelow
    have hLe := hKids.le (hHead.below hn) hk
    have hLe' := hk.trans (hLe.trans (Nat.le_succ k₁))
    have hId : n'.ann.id = k₁ := congrArg Meta.id hAnn
    have hSelf : n.ann.id < low := hnBelow.self
    have hOwn := (ihKids (hHead.below hn) hk fun j hj => hnBelow.child hj).cons hSelf hLe
    rw [patch_cons, renewalsOf_cons, Option.getD_some, renewals_eq hn (by omega), hChildren, hId]
    exact hOwn.append (ih hMore hLe' hnsBelow) (hLe.trans (Nat.le_succ k₁)) (hRest.le hMore hLe')

theorem map_id_anew (h : Rewritten f k ns news k') (hf : Revisable f F low ns) (hk : low ≤ k)
    (hBelow : ∀ n ∈ ns, n.All (·.ann.id < low)) :
    (((patch ns news).flatMap outer).filter (isAnew low)).map (·.ann.id) =
      (renewalsOf ns (patch ns news)).map Prod.snd := by
  induction h with
  | nil k => rfl
  | @spec _ _ _ s image _ _ hImage hRest ih =>
    obtain ⟨hs, hMore⟩ := revisable_cons.1 hf
    have hLe := ((hs s (by simp [specs_spec]) _ hk).of_run hImage).1
    rw [patch_cons, renewalsOf_cons, renewals_spec, getD_map_spec, List.flatMap_cons, outer_spec]
    exact ih hMore (hk.trans hLe) (List.forall_mem_cons.1 hBelow).2
  | @kept _ _ _ n _ _ _ hn hKids _ hRest _ ih =>
    obtain ⟨hHead, hMore⟩ := revisable_cons.1 hf
    obtain ⟨hnBelow, hnsBelow⟩ := List.forall_mem_cons.1 hBelow
    have hLe := hKids.le (hHead.below hn) hk
    have hNone : n.outer.filter (isAnew low) = [] := by
      rw [List.filter_eq_nil_iff]
      intro j hj
      have hLow : j.ann.id < low := hnBelow j (outer_subset n hj)
      simp [isAnew, hLow]
    rw [patch_cons, renewalsOf_cons, Option.getD_none, renewals_self, List.flatMap_cons,
      List.filter_append, hNone]
    exact ih hMore (hk.trans hLe) hnsBelow
  | @rebuilt _ k₁ _ n n' _ _ _ hn hKids _ hLabel hAnn hChildren hRest ihKids ih =>
    obtain ⟨hHead, hMore⟩ := revisable_cons.1 hf
    obtain ⟨hnBelow, hnsBelow⟩ := List.forall_mem_cons.1 hBelow
    have hLe := hKids.le (hHead.below hn) hk
    have hId : n'.ann.id = k₁ := congrArg Meta.id hAnn
    have hSelf : n.ann.id < low := hnBelow.self
    have hn' := spec?_eq_none_of_label hLabel hn
    have hOwn := ihKids (hHead.below hn) hk fun j hj => hnBelow.child hj
    have hAnew : isAnew low n' = true := by simpa [isAnew, hn', hId] using hk.trans hLe
    rw [patch_cons, renewalsOf_cons, Option.getD_some, renewals_eq hn (by omega), List.flatMap_cons,
      outer_eq hn', List.cons_append, List.filter_cons_of_pos hAnew, List.filter_append,
      List.map_cons, List.map_append, List.cons_append, List.map_cons, List.map_append, hChildren,
      hOwn, ih hMore (hk.trans (hLe.trans (Nat.le_succ k₁))) hnsBelow]

/-- A node outside the types is one of before, or was built anew in the place of one: with the same
label and the same annotation but for the number. -/
theorem same_or_anew (h : Rewritten f k ns news k') (hf : Revisable f F low ns) (hk : low ≤ k)
    (hBelow : ∀ n ∈ ns, n.All (·.ann.id < low)) (hn' : n' ∈ (patch ns news).flatMap outer)
    (hShell : n'.spec? = none) :
    n' ∈ ns.flatMap outer ∨ ∃ n ∈ ns.flatMap outer, n'.label = n.label ∧
      n'.ann = { n.ann with id := n'.ann.id } ∧
        (n.ann.id, n'.ann.id) ∈ renewalsOf ns (patch ns news) := by
  induction h with
  | nil k => exact .inl hn'
  | @spec _ _ _ s image ns news hImage hRest ih =>
    obtain ⟨hs, hMore⟩ := revisable_cons.1 hf
    have hLe := ((hs s (by simp [specs_spec]) _ hk).of_run hImage).1
    rw [patch_cons, getD_map_spec, List.flatMap_cons, outer_spec, List.singleton_append,
      List.mem_cons] at hn'
    obtain rfl | hn' := hn'
    · cases hShell
    · rw [patch_cons, renewalsOf_cons, renewals_spec, List.flatMap_cons, outer_spec]
      refine (ih hMore (hk.trans hLe) (List.forall_mem_cons.1 hBelow).2 hn').imp
        (List.mem_cons_of_mem _) fun ⟨n, hn, hRest⟩ => ⟨n, List.mem_cons_of_mem _ hn, hRest⟩
  | @kept _ _ _ n _ ns news hn hKids _ hRest _ ih =>
    obtain ⟨hHead, hMore⟩ := revisable_cons.1 hf
    have hLe := hKids.le (hHead.below hn) hk
    rw [patch_cons, Option.getD_none, List.flatMap_cons, List.mem_append] at hn'
    rw [patch_cons, renewalsOf_cons, Option.getD_none, renewals_self, List.flatMap_cons]
    obtain hn' | hn' := hn'
    · exact .inl (List.mem_append_left _ hn')
    · refine (ih hMore (hk.trans hLe) (List.forall_mem_cons.1 hBelow).2 hn').imp
        (List.mem_append_right _) fun ⟨n, hn, hRest⟩ => ⟨n, List.mem_append_right _ hn, hRest⟩
  | @rebuilt _ k₁ _ n m _ ns news hn hKids _ hLabel hAnn hChildren hRest ihKids ih =>
    obtain ⟨hHead, hMore⟩ := revisable_cons.1 hf
    obtain ⟨hnBelow, hnsBelow⟩ := List.forall_mem_cons.1 hBelow
    have hLe := hKids.le (hHead.below hn) hk
    have hId : m.ann.id = k₁ := congrArg Meta.id hAnn
    have hSelf : n.ann.id < low := hnBelow.self
    rw [patch_cons, Option.getD_some, List.flatMap_cons,
      outer_eq (spec?_eq_none_of_label hLabel hn), hChildren, List.cons_append, List.mem_cons,
      List.mem_append] at hn'
    rw [patch_cons, renewalsOf_cons, Option.getD_some, renewals_eq hn (by omega), List.flatMap_cons,
      outer_eq hn, hChildren]
    obtain rfl | hn' | hn' := hn'
    · exact .inr ⟨n, List.mem_cons_self, hLabel, hId ▸ hAnn, List.mem_cons_self⟩
    · refine (ihKids (hHead.below hn) hk (fun j hj => hnBelow.child hj) hn').imp
        (fun hn' => List.mem_cons_of_mem _ (List.mem_append_left _ hn')) ?_
      rintro ⟨j, hj, hLabel, hAnn, hPair⟩
      exact ⟨j, List.mem_cons_of_mem _ (List.mem_append_left _ hj), hLabel, hAnn,
        List.mem_cons_of_mem _ (List.mem_append_left _ hPair)⟩
    · refine (ih hMore (hk.trans (hLe.trans (Nat.le_succ k₁))) hnsBelow hn').imp
        (List.mem_append_right _) ?_
      rintro ⟨j, hj, hLabel, hAnn, hPair⟩
      exact ⟨j, List.mem_append_right _ hj, hLabel, hAnn, List.mem_append_right _ hPair⟩

theorem images (h : Rewritten f k ns news k') (hf : Revisable f F low ns) (hk : low ≤ k) :
    ∃ images, List.Forall₂ (f.Image k k') (ns.flatMap specs) images ∧
      (patch ns news).flatMap specs = patch (ns.flatMap specs) images ∧
      ((∃ new ∈ news, new ≠ none) ↔ ∃ image ∈ images, image ≠ none) := by
  induction h with
  | nil k => exact ⟨[], .nil, rfl, by simp⟩
  | @spec _ _ _ s image ns news hImage hRest ih =>
    obtain ⟨hs, hMore⟩ := revisable_cons.1 hf
    have hLe := ((hs s (by simp [specs_spec]) _ hk).of_run hImage).1
    have hLe' := hRest.le hMore (hk.trans hLe)
    obtain ⟨images, hImages, hSpecs, hChanged⟩ := ih hMore (hk.trans hLe)
    refine ⟨image :: images, ?_, ?_, ?_⟩
    · rw [List.flatMap_cons, specs_spec]
      exact .cons ⟨_, _, Nat.le_refl _, hLe', hImage⟩
        (hImages.imp fun _ _ hImage => hImage.widen hLe (Nat.le_refl _))
    · rw [patch_cons, getD_map_spec, List.flatMap_cons, List.flatMap_cons, specs_spec, specs_spec,
        hSpecs]
      rfl
    · rw [List.exists_mem_cons_iff, List.exists_mem_cons_iff, hChanged]
      cases image <;> simp
  | @kept _ _ _ n kids ns news hn hKids hNone hRest ihKids ih =>
    obtain ⟨hHead, hMore⟩ := revisable_cons.1 hf
    have hLe := hKids.le (hHead.below hn) hk
    have hLe' := hRest.le hMore (hk.trans hLe)
    obtain ⟨images, hImages, -, hChanged⟩ := ihKids (hHead.below hn) hk
    obtain ⟨images', hImages', hSpecs', hChanged'⟩ := ih hMore (hk.trans hLe)
    have hKept (image : Option (TypeSpec Meta)) (hImage : image ∈ images) : image = none := by
      by_contra hNe
      obtain ⟨new, hNew, hNe⟩ := hChanged.2 ⟨image, hImage, hNe⟩
      exact hNe (hNone new hNew)
    refine ⟨images ++ images', ?_, ?_, ?_⟩
    · rw [List.flatMap_cons, specs_eq hn]
      exact List.rel_append (hImages.imp fun _ _ hImage => hImage.widen (Nat.le_refl _) hLe')
        (hImages'.imp fun _ _ hImage => hImage.widen hLe (Nat.le_refl _))
    · rw [patch_cons, Option.getD_none, List.flatMap_cons, List.flatMap_cons, hSpecs', specs_eq hn,
        patch_append hImages.length_eq.symm, patch_none hImages.length_eq.symm hKept]
    · have hNot : ¬∃ image ∈ images, image ≠ none := fun ⟨image, hImage, hNe⟩ =>
        hNe (hKept image hImage)
      rw [List.exists_mem_cons_iff, hChanged']
      simp only [List.mem_append, or_and_right, exists_or, hNot, false_or]
      simp
  | @rebuilt _ k₁ _ n m kids ns news hn hKids hSome hLabel hAnn hChildren hRest ihKids ih =>
    obtain ⟨hHead, hMore⟩ := revisable_cons.1 hf
    have hLe := (hKids.le (hHead.below hn) hk).trans (Nat.le_succ k₁)
    have hLe' := hRest.le hMore (hk.trans hLe)
    obtain ⟨images, hImages, hSpecs, hChanged⟩ := ihKids (hHead.below hn) hk
    obtain ⟨images', hImages', hSpecs', hChanged'⟩ := ih hMore (hk.trans hLe)
    refine ⟨images ++ images', ?_, ?_, ?_⟩
    · rw [List.flatMap_cons, specs_eq hn]
      exact List.rel_append
        (hImages.imp fun _ _ hImage => hImage.widen (Nat.le_refl _) ((Nat.le_succ k₁).trans hLe'))
        (hImages'.imp fun _ _ hImage => hImage.widen hLe (Nat.le_refl _))
    · rw [patch_cons, Option.getD_some, List.flatMap_cons, List.flatMap_cons, hSpecs', specs_eq hn,
        specs_eq (spec?_eq_none_of_label hLabel hn), hChildren, hSpecs,
        patch_append hImages.length_eq.symm]
    · rw [List.exists_mem_cons_iff, hChanged']
      simp only [List.mem_append, or_and_right, exists_or, ← hChanged, hSome]
      simp

theorem shared (h : Rewritten f k ns news k') (hf : Revisable f F low ns) (hk : low ≤ k)
    (hn : n ∈ ns.flatMap outer)
    (hSame : ∀ s ∈ n.specs, ∀ image, f.Image k k' s image → image = none) :
    n ∈ (patch ns news).flatMap outer := by
  induction h with
  | nil k => exact hn
  | @spec _ _ _ s image ns news hImage hRest ih =>
    obtain ⟨hs, hMore⟩ := revisable_cons.1 hf
    have hLe := ((hs s (by simp [specs_spec]) _ hk).of_run hImage).1
    have hLe' := hRest.le hMore (hk.trans hLe)
    rw [List.flatMap_cons, List.mem_append] at hn
    rw [patch_cons, getD_map_spec, List.flatMap_cons, List.mem_append]
    refine hn.imp (fun hn => ?_) fun hn =>
      ih hMore (hk.trans hLe) hn fun s hs image hImage =>
        hSame s hs image (hImage.widen hLe (Nat.le_refl _))
    rw [outer_spec, List.mem_singleton] at hn
    subst hn
    obtain rfl := hSame s (by simp [specs_spec]) image ⟨_, _, Nat.le_refl _, hLe', hImage⟩
    exact self_mem_outer _
  | @kept _ _ _ m kids ns news hm hKids hNone hRest _ ih =>
    obtain ⟨hHead, hMore⟩ := revisable_cons.1 hf
    have hLe := hKids.le (hHead.below hm) hk
    rw [List.flatMap_cons, List.mem_append] at hn
    rw [patch_cons, Option.getD_none, List.flatMap_cons, List.mem_append]
    exact hn.imp_right fun hn => ih hMore (hk.trans hLe) hn fun s hs image hImage =>
      hSame s hs image (hImage.widen hLe (Nat.le_refl _))
  | @rebuilt _ k₁ _ m m' kids ns news hm hKids hSome hLabel _ hChildren hRest ihKids ih =>
    obtain ⟨hHead, hMore⟩ := revisable_cons.1 hf
    have hLe := (hKids.le (hHead.below hm) hk).trans (Nat.le_succ k₁)
    have hLe' := (Nat.le_succ k₁).trans (hRest.le hMore (hk.trans hLe))
    rw [List.flatMap_cons, List.mem_append, outer_eq hm, List.mem_cons] at hn
    rw [patch_cons, Option.getD_some, List.flatMap_cons, List.mem_append,
      outer_eq (spec?_eq_none_of_label hLabel hm), hChildren, List.mem_cons]
    obtain (rfl | hn) | hn := hn
    · -- One of the types in a node that is built anew has got another image.
      obtain ⟨images, hImages, -, hChanged⟩ := hKids.images (hHead.below hm) hk
      obtain ⟨image, hImage, hNe⟩ := hChanged.1 hSome
      obtain ⟨s, hs, hOf⟩ := exists_of_forall₂ hImages hImage
      rw [← specs_eq hm] at hs
      exact absurd (hSame s hs image (hOf.widen (Nat.le_refl _) hLe')) hNe
    · exact .inl (.inr (ihKids (hHead.below hm) hk hn fun s hs image hImage =>
        hSame s hs image (hImage.widen (Nat.le_refl _) hLe')))
    · exact .inr (ih hMore (hk.trans hLe) hn fun s hs image hImage =>
        hSame s hs image (hImage.widen hLe (Nat.le_refl _)))

end Rewritten

end Node

/-- A revision of types that numbers on, whatever it does. -/
def Revision.Counts (f : Revision (TypeSpec Meta)) : Prop := ∀ s k, k ≤ ((f s).run k).2

theorem Revision.Counts.revisable (hf : f.Counts) {F : Fault → Prop} (hF : ∀ s ∈ n.specs, ∀ k₁ fault,
    k ≤ k₁ → ((f s).run k₁).1 = .error fault → F fault) : Node.Revisable f F k [n] := by
  intro s hs k₁ hLe
  rw [List.flatMap_singleton] at hs
  refine ⟨hf s k₁, ?_⟩
  cases hResult : ((f s).run k₁).1 with
  | ok image => trivial
  | error fault => exact hF s hs k₁ fault hLe hResult

/-- What a revision `f` of types makes of a source, from the number `k` on up to the number `k'`. -/
structure Root.Rewrites (f : Revision (TypeSpec Meta)) (k : Nat) (r : Root Meta)
    (new : Option (Root Meta)) (k' : Nat) : Prop where
  /-- The outermost types are replaced by their images, and the nodes around those that are replaced
  are built anew. -/
  tree : Node.Rewritten f k [.root r] [new.map .root] k'
  /-- This determines the tree. -/
  only : ∀ new' k'', Node.Rewritten f k [.root r] [new'] k'' → new' = new.map .root ∧ k'' = k'
  /-- The source is built anew exactly if one of its outermost types gets another image. -/
  images : ∃ images, List.Forall₂ (f.Image k k') (Node.root r).specs images ∧
    (Node.root (new.getD r)).specs = patch (Node.root r).specs images ∧
    (new ≠ none ↔ ∃ image ∈ images, image ≠ none)
  /-- A node in which no type gets another image is a node of the new tree. -/
  shared : ∀ n ∈ (Node.root r).outer,
    (∀ s ∈ n.specs, ∀ image, f.Image k k' s image → image = none) →
      n ∈ (Node.root (new.getD r)).outer
  /-- Every other node has a new number, and is otherwise annotated and known as before; the store is
  the one after the source is built anew. -/
  anew : ∀ n' ∈ (Node.root (new.getD r)).outer, n'.spec? = none → n' ∈ (Node.root r).outer ∨
    (k ≤ n'.ann.id ∧ n'.ann.id < k') ∧ ∃ n ∈ (Node.root r).outer, n'.label = n.label ∧
      n'.ann = { n.ann with id := n'.ann.id } ∧ ∀ st : Store, st.Unknown k →
        (st.renew r (new.getD r)).typeOf? n'.ann.id = st.typeOf? n.ann.id ∧
        (st.renew r (new.getD r)).refsOf? n'.ann.id = st.refsOf? n.ann.id ∧
        (st.Declares k → (st.renew r (new.getD r)).symbolOf? n' = st.symbolOf? n)
  /-- No new number is given out twice. -/
  distinct : (((Node.root (new.getD r)).outer.filter (Node.isAnew k)).map (·.ann.id)).Nodup

theorem Store.Unknown.inherit {low k' : Nat} (h : st.Unknown k) (hLow : low ≤ k)
    (hRenews : Node.Renews low k k' (n.renewals Meta.id n')) {p : Nat × Nat}
    (hp : p ∈ n.renewals Meta.id n') :
    (st.inherit n n').typeOf? p.2 = st.typeOf? p.1 ∧
      (st.inherit n n').refsOf? p.2 = st.refsOf? p.1 := by
  have hApart (p : Nat × Nat) (hp : p ∈ n.renewals Meta.id n') (q : Nat × Nat)
      (hq : q ∈ n.renewals Meta.id n') : p.1 ≠ q.2 := by
    have := hRenews.old p hp
    have := hRenews.new q hq
    omega
  exact ⟨(look_foldl_derive typeOf? typeOf?_derive hRenews.nodup hApart
      fun q hq => h.types _ (hRenews.new q hq).1).1 p hp,
    (look_foldl_derive refsOf? refsOf?_derive hRenews.nodup hApart
      fun q hq => h.refs _ (hRenews.new q hq).1).1 p hp⟩

/-- What a revision of a source comes to. -/
structure Root.Updates (f : Revision (TypeSpec Meta)) (k : Nat) (r : Root Meta)
    (new : Option (Root Meta)) (k' : Nat) : Prop where
  rewrites : r.Rewrites f k new k'
  renews : Node.Renews k k k' ((Node.root r).renewals Meta.id (.root (new.getD r)))

theorem Root.revise_updates {F : Fault → Prop} {r : Root Meta} (hf : Node.Revisable f F k [.root r])
    (hBelow : (Node.root r).All (·.ann.id < k)) : (r.revise f).Gives k F (r.Updates f k) := by
  refine (Root.revise_patches k r (Nat.le_refl k) hf).mono fun new k' _ hPatched => ?_
  obtain ⟨news, hNews, hPatch, hChanged⟩ := hPatched
  -- The nodes patched are the one root, so its new form is the one entry of `news`.
  obtain ⟨root, rfl⟩ : ∃ root, news = [root] := List.length_eq_one_iff.1 hNews.length
  have hRoot : [Node.root (new.getD r)] = patch [.root r] [root] := hPatch
  have hNew : root = new.map .root := by
    cases new <;> cases root <;> simp_all [patch]
  subst hNew
  have hOuter : (Node.root (new.getD r)).outer =
      (patch [Node.root r] [new.map .root]).flatMap Node.outer := by
    rw [← hRoot, List.flatMap_singleton]
  have hRenews : Node.Renews k k k' ((Node.root r).renewals Meta.id (.root (new.getD r))) := by
    have hRenews := hNews.renews hf (Nat.le_refl k) (List.forall_mem_singleton.2 hBelow)
    rw [← hRoot] at hRenews
    simpa [Node.renewalsOf] using hRenews
  refine ⟨⟨hNews, fun new' k'' h => ?_, ?_, fun n hn hSame => ?_, fun n' hn' hShell => ?_, ?_⟩, hRenews⟩
  · obtain ⟨hEq, hk⟩ := hNews.unique h
    exact ⟨List.singleton_inj.1 hEq, hk⟩
  · obtain ⟨images, hImages, hSpecs, hChanged⟩ := hNews.images hf (Nat.le_refl k)
    refine ⟨images, by simpa using hImages, ?_, ?_⟩
    · rw [← hRoot] at hSpecs
      simpa using hSpecs
    · rw [← hChanged]
      simp
  · rw [hOuter]
    exact hNews.shared hf (Nat.le_refl k) (by simpa using hn) hSame
  · rw [hOuter] at hn'
    refine (hNews.same_or_anew hf (Nat.le_refl k)
      (List.forall_mem_singleton.2 hBelow) hn' hShell).imp
      (fun hOld => by simpa using hOld) ?_
    rintro ⟨n, hn, hLabel, hAnn, hPair⟩
    have hn : n ∈ (Node.root r).outer := by simpa using hn
    rw [← hRoot] at hPair
    have hPair : (n.ann.id, n'.ann.id) ∈ (Node.root r).renewals Meta.id (.root (new.getD r)) := by
      simpa [Node.renewalsOf] using hPair
    have hNumber := hRenews.new _ hPair
    refine ⟨hNumber, n, hn, hLabel, hAnn, fun st hst => ?_⟩
    obtain ⟨hType, hRefs⟩ := hst.inherit (Nat.le_refl k) hRenews hPair
    obtain ⟨hTypes, hAllRefs⟩ := st.renew_known r (new.getD r)
    refine ⟨hTypes ▸ hType, hAllRefs ▸ hRefs, fun hDeclares => ?_⟩
    rw [← hOuter] at hn'
    exact hDeclares.symbolOf?_renewed hLabel (Node.outer_subset _ hn) (Node.outer_subset _ hn') hNumber.1
  · rw [hOuter, hNews.map_id_anew hf (Nat.le_refl k) (List.forall_mem_singleton.2 hBelow)]
    exact (hNews.renews hf (Nat.le_refl k) (List.forall_mem_singleton.2 hBelow)).nodup

/-- A revision of a source replaces its outermost types by their images and shares with the old tree
all nodes in which no type changes; its faults are those of the revision of types. -/
theorem Root.revise_rewrites (f : Revision (TypeSpec Meta)) (hf : f.Counts) (r : Root Meta) (k : Nat)
    (hBelow : (Node.root r).All (·.ann.id < k)) :
    Ends (fun fault => ∃ s ∈ (Node.root r).specs, ∃ k₁, k ≤ k₁ ∧ ((f s).run k₁).1 = .error fault)
      (fun new => r.Rewrites f k new ((r.revise f).run k).2) ((r.revise f).run k).1 :=
  (Root.revise_updates (hf.revisable fun s hs k₁ _ hLe hFault => ⟨s, hs, k₁, hLe, hFault⟩) hBelow).2.mono
    fun _ h => h.rewrites

/-- A revision that gives written types new numbers and keeps the others. -/
def Revision.renumber : Revision (TypeSpec Meta) := fun s =>
  if s.isInferred then return none else return some (s.withAnn (← s.ann.renew))

/-- A class with the supertype `A` and an attribute without a written type. -/
def Root.supertyped : Root Meta :=
  ⟨⟨1, none, none⟩, "p", [], .ofClass ⟨⟨2, none, none⟩, .everywhere, "C", [],
    .simple ⟨3, none, none⟩ "A" [],
    [⟨⟨4, none, none⟩, .val, "x", .inferred ⟨5, none, none⟩, none⟩], []⟩⟩

theorem Root.revise_rewrites_supertyped :
    Revision.renumber.Counts ∧ (Node.root supertyped).All (·.ann.id < 6) ∧
      ∃ new, (supertyped.revise Revision.renumber).run 6 = (.ok (some new), 9) ∧
        supertyped.Rewrites Revision.renumber 6 (some new) 9 := by
  have hCounts : Revision.renumber.Counts := by
    intro s k
    unfold Revision.renumber
    split
    · exact Nat.le_refl k
    · exact Nat.le_succ k
  have hBelow : (Node.root supertyped).All (·.ann.id < 6) := by
    unfold Node.All
    decide +kernel
  exact ⟨hCounts, hBelow, _, rfl, revise_rewrites Revision.renumber hCounts supertyped 6 hBelow⟩

end Assay
