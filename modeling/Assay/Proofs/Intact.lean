import Assay.Proofs.Mapped
import Assay.Proofs.Places

/-! The tree that a check gives back. Its nodes have numbers of their own, each has a position and a
scope, and the place of each is the one in this tree, although the tree shares nodes with the one
that was read. Its top-level declaration is what the type that it declares points to. -/

namespace Assay

open Check (Leads Quiet ending)

variable {r : Root Meta} {k : Nat}

/-- The numbers of the top-level declarations of a store were given out. -/
def Store.Numbered (st : Store) : Prop :=
  ∀ d ∈ st.tops, d.id < st.next ∧ d.top.ann.id < st.next

/-- Between two worlds top-level declarations are added that have nothing to do with the nodes whose
numbers satisfy `K`. -/
structure World.Spares (K : Nat → Prop) (w w' : World) : Prop where
  next : w.store.next ≤ w'.store.next
  tops : ∃ new, w'.store.tops = w.store.tops ++ new ∧ ∀ d ∈ new, ¬K d.id ∧ ¬K d.top.ann.id
  numbered : w'.store.Numbered

namespace World

variable {K K' : Nat → Prop} {w w' w'' : World}

theorem Spares.trans (h : w.Spares K w') (h' : w'.Spares K w'') : w.Spares K w'' := by
  obtain ⟨new, hTops, hNew⟩ := h.tops
  obtain ⟨new', hTops', hNew'⟩ := h'.tops
  refine ⟨h.next.trans h'.next, ⟨new ++ new', ?_, List.forall_mem_append.2 ⟨hNew, hNew'⟩⟩, h'.numbered⟩
  rw [hTops', hTops, List.append_assoc]

theorem Spares.mono (h : w.Spares K' w') (hK : ∀ i, K i → K' i) : w.Spares K w' := by
  obtain ⟨new, hTops, hNew⟩ := h.tops
  refine ⟨h.next, ⟨new, hTops, fun d hd => ?_⟩, h.numbered⟩
  exact ⟨fun hi => (hNew d hd).1 (hK _ hi), fun hi => (hNew d hd).2 (hK _ hi)⟩

theorem Quiet.numbered (h : w.Quiet w') (hNumbered : w.store.Numbered) : w'.store.Numbered := by
  intro d hd
  rw [h.tops] at hd
  have hd := hNumbered d hd
  exact ⟨hd.1.trans_le h.next, hd.2.trans_le h.next⟩

theorem Quiet.spares (h : w.Quiet w') (hNumbered : w.store.Numbered) : w.Spares K w' :=
  ⟨h.next, ⟨[], by rw [h.tops, List.append_nil], by simp⟩, h.numbered hNumbered⟩

/-- If the declarations are numbered, what is added has nothing to do with the nodes so far. -/
def Sparing (w w' : World) : Prop := w.store.Numbered → w.Spares (· < w.store.next) w'

instance : Frame Sparing where
  quiet h := h.spares
  trans h h' hNumbered := (h hNumbered).trans
    ((h' (h hNumbered).numbered).mono fun _ hi => hi.trans_le (h hNumbered).next)

end World

/-- A node that was numbered below `k`, with a scope, and a position if its text was `placed`. -/
structure Node.Grounded (placed : Prop) (k : Nat) (n : Node Meta) : Prop where
  below : n.ann.id < k
  position : placed → n.ann.position.isSome
  scope : n.ann.scope.isSome

variable {placed : Prop}

theorem Node.grounded_renewable : Renewable (Node.Grounded placed) where
  mono hLe h := ⟨h.below.trans_le hLe, h.position, h.scope⟩
  renew h hPlace _ hAnn := by
    refine ⟨?_, ?_, ?_⟩ <;> rw [hAnn]
    · exact Nat.lt_succ_self _
    · exact hPlace.position
    · exact h.scope

/-- A tree whose nodes have numbers of their own, below `k`, and scopes, and positions if its text
was `placed`. -/
structure Root.Grounded (placed : Prop) (k : Nat) (r : Root Meta) : Prop where
  nodup : (Node.root r).ids.Nodup
  all : (Node.root r).All (Node.Grounded placed k)

namespace Root.Grounded

variable {k k' : Nat} {r r' : Root Meta}

theorem mono (h : r.Grounded placed k) (hLe : k ≤ k') : r.Grounded placed k' :=
  ⟨h.nodup, h.all.mono fun _ => Node.grounded_renewable.mono hLe⟩

theorem below (h : r.Grounded placed k) : ∀ i ∈ (Node.root r).ids, i < k := by
  intro i hi
  obtain ⟨n, hn, rfl⟩ := List.mem_map.1 hi
  exact (h.all n hn).below

end Root.Grounded

theorem Root.id_mem_ids (r : Root Meta) : r.top.ann.id ∈ (Node.root r).ids := by
  refine List.mem_map_of_mem (f := fun n : Node Meta => n.ann.id) (a := .top r.top) ?_
  rw [Node.nodes_eq]
  refine List.mem_cons_of_mem _ (List.mem_flatMap.2 ⟨.top r.top, ?_, Node.self_mem_nodes _⟩)
  simp [Node.children]

/-- What a revision makes of a tree from the number `k` up to `k'`. -/
structure Root.Regrounds (placed : Prop) (k k' : Nat) (r r' : Root Meta) : Prop where
  grounded : r'.Grounded placed k'
  drawn : Drawn k k' (Node.root r).ids (Node.root r').ids
  same : r.Same k r'

theorem Root.Recast.regrounds {E : Node Meta → Node.Label → Prop} {splices c : Bool} {k' : Nat}
    {r' : Root Meta} (h : r.Recast E splices k r' c k') (hr : r.Grounded placed k) :
    r.Regrounds placed k k' r' := by
  refine ⟨⟨h.drawn.nodup hr.nodup hr.below, h.all Node.grounded_renewable (fun hn _ hAnn => ?_) hr.all⟩,
    h.drawn, h.same⟩
  exact ⟨hAnn ▸ Nat.lt_succ_self _, hAnn ▸ hn.position, hAnn ▸ hn.scope⟩

theorem Root.qualify?_regrounds (table : Scope) (h : r.Grounded placed k) :
    (Root.qualify? table r).Gives k (fun _ => True) fun new k' => r.Regrounds placed k k' (new.getD r) :=
  (Root.qualify?_recast (fun n _ => .any n) (h.all.mono fun _ hn => hn.below)).mono
    fun _ _ _ hNew => hNew.regrounds h

theorem Root.flatten?_regrounds (h : r.Grounded placed k) :
    (Root.flatten? r).Gives k (fun _ => True) fun new k' => r.Regrounds placed k k' (new.getD r) :=
  (Root.flatten?_recast (h.all.mono fun _ hn => hn.below)).mono fun _ _ _ hNew => hNew.regrounds h

namespace Store

variable {st : Store} {before after : List Declared} {own : Declared}

theorem declaredBy?_eq {top : TopLevel Meta} (hTops : st.tops = before ++ own :: after)
    (hBefore : ∀ d ∈ before, d.id ≠ top.ann.id ∧ d.top.ann.id ≠ top.ann.id)
    (hOwn : own.id = top.ann.id ∨ own.top.ann.id = top.ann.id) :
    st.declaredBy? top = some own := by
  rw [declaredBy?, hTops, List.find?_append, List.find?_eq_none.2, Option.none_or,
    List.find?_cons_of_pos]
  · simpa using hOwn
  · intro d hd
    simpa using hBefore d hd

theorem top?_eq (hTops : st.tops = before ++ own :: after) (hBefore : ∀ d ∈ before, d.id ≠ own.id) :
    st.top? own.id = some own := by
  rw [top?, hTops, List.find?_append, List.find?_eq_none.2, Option.none_or, List.find?_cons_of_pos]
  · simp
  · simpa using hBefore

theorem declaredBy?_eq_none {top : TopLevel Meta}
    (h : ∀ d ∈ st.tops, d.id ≠ top.ann.id ∧ d.top.ann.id ≠ top.ann.id) :
    st.declaredBy? top = none := by
  refine List.find?_eq_none.2 fun d hd => ?_
  simpa using h d hd

theorem tops_setTop (top : TopLevel Meta) (hTops : st.tops = before ++ own :: after)
    (hOthers : ∀ d ∈ before ++ after, d.id ≠ own.id) :
    (st.setTop own.id top).tops = before ++ { own with top } :: after := by
  obtain ⟨hBefore, hAfter⟩ := List.forall_mem_append.1 hOthers
  have hKeep (ds : List Declared) (h : ∀ d ∈ ds, d.id ≠ own.id) :
      ds.map (fun d => if d.id = own.id then { d with top } else d) = ds :=
    (List.map_congr_left fun d hd => if_neg (h d hd)).trans (List.map_id' ds)
  simp only [setTop, hTops, List.map_append, List.map_cons, hKeep before hBefore,
    hKeep after hAfter, if_true]

end Store

/-- A declaration that has nothing to do with the declaration numbered `first`, whose tree is `r`. -/
structure Declared.Clear (first : Nat) (r : Root Meta) (next : Nat) (d : Declared) : Prop where
  ne : d.id ≠ first
  id : d.id ∉ (Node.root r).ids
  top : d.top.ann.id ∉ (Node.root r).ids
  numbered : d.id < next ∧ d.top.ann.id < next

/-- A check has declared its type, under the number `first`, and its tree is `r` by now; the world `b`
is the one it was started in, and `K` says which numbers have nothing to do with it. -/
structure Root.Ongoing (placed : Prop) (K : Nat → Prop) (b : World) (first : Nat) (r : Root Meta) (w : World) :
    Prop where
  grounded : r.Grounded placed w.store.next
  next : b.store.next ≤ w.store.next
  bounded : ∀ i, K i → i < b.store.next
  others : ∀ i ∈ (Node.root r).ids, ¬K i
  entry : first < w.store.next ∧ ¬K first
  tops : ∃ after, w.store.tops = b.store.tops ++ ⟨first, r.fullName, r.top⟩ :: after ∧
    (∀ d ∈ after, ¬K d.id ∧ ¬K d.top.ann.id) ∧
      ∀ d ∈ b.store.tops ++ after, d.Clear first r w.store.next

namespace Root.Ongoing

variable {K : Nat → Prop} {b w w' : World} {first : Nat} {r r' : Root Meta}

theorem spares (h : r.Ongoing placed K b first w) : b.Spares K w := by
  obtain ⟨after, hTops, hAfter, hClear⟩ := h.tops
  have hTop := r.id_mem_ids
  refine ⟨h.next, ⟨_, hTops, List.forall_mem_cons.2 ⟨⟨h.entry.2, h.others _ hTop⟩, hAfter⟩⟩,
    fun d hd => ?_⟩
  rw [hTops] at hd
  obtain hd | hd := List.mem_append.1 hd
  · exact (hClear d (List.mem_append_left _ hd)).numbered
  · obtain rfl | hd := List.mem_cons.1 hd
    · exact ⟨h.entry.1, h.grounded.below _ hTop⟩
    · exact (hClear d (List.mem_append_right _ hd)).numbered

theorem declaredBy? (h : r.Ongoing placed K b first w) :
    w.store.declaredBy? r.top = some ⟨first, r.fullName, r.top⟩ := by
  obtain ⟨after, hTops, -, hClear⟩ := h.tops
  refine Store.declaredBy?_eq hTops (fun d hd => ?_) (.inr rfl)
  have hd := hClear d (List.mem_append_left _ hd)
  exact ⟨fun hEq => hd.id (hEq ▸ r.id_mem_ids), fun hEq => hd.top (hEq ▸ r.id_mem_ids)⟩

theorem top? (h : r.Ongoing placed K b first w) :
    w.store.top? first = some ⟨first, r.fullName, r.top⟩ := by
  obtain ⟨after, hTops, -, hClear⟩ := h.tops
  exact Store.top?_eq hTops fun d hd => (hClear d (List.mem_append_left _ hd)).ne

theorem of_spares (h : r.Ongoing placed K b first w) (hSpares : w.Spares (· < w.store.next) w') :
    r.Ongoing placed K b first w' := by
  obtain ⟨after, hTops, hAfter, hClear⟩ := h.tops
  obtain ⟨new, hTops', hNew⟩ := hSpares.tops
  have hLe := hSpares.next
  have hBelow := h.grounded.below
  have hK : ∀ i, K i → i < w.store.next := fun i hi => (h.bounded i hi).trans_le h.next
  refine ⟨h.grounded.mono hLe, h.next.trans hLe, h.bounded, h.others,
    ⟨h.entry.1.trans_le hLe, h.entry.2⟩, ⟨after ++ new, ?_, ?_, ?_⟩⟩
  · rw [hTops', hTops, List.append_assoc, List.cons_append]
  · refine List.forall_mem_append.2 ⟨hAfter, fun d hd => ?_⟩
    exact ⟨fun hi => (hNew d hd).1 (hK _ hi), fun hi => (hNew d hd).2 (hK _ hi)⟩
  · rw [← List.append_assoc]
    refine List.forall_mem_append.2 ⟨fun d hd => ?_, fun d hd => ?_⟩
    · have hd := hClear d hd
      exact ⟨hd.ne, hd.id, hd.top, hd.numbered.1.trans_le hLe, hd.numbered.2.trans_le hLe⟩
    · have hd' := hNew d hd
      refine ⟨fun hEq => hd'.1 (hEq ▸ h.entry.1), fun hi => hd'.1 (hBelow _ hi),
        fun hi => hd'.2 (hBelow _ hi), hSpares.numbered d ?_⟩
      rw [hTops']
      exact List.mem_append_right _ hd

theorem renewed (h : r.Ongoing placed K b first w) (hNew : r.Regrounds placed w.store.next w'.store.next r')
    (hTops : w'.store.tops = (w.store.setTop first r'.top).tops) : r'.Ongoing placed K b first w' := by
  obtain ⟨after, hTops₀, hAfter, hClear⟩ := h.tops
  have hLe := hNew.drawn.le
  have hIds : ∀ i ∈ (Node.root r').ids, i ∈ (Node.root r).ids ∨ w.store.next ≤ i :=
    fun i hi => (hNew.drawn.from_ i hi).imp_right And.left
  have hOthers : ∀ i ∈ (Node.root r').ids, ¬K i := by
    intro i hi hK
    obtain hi | hi := hIds i hi
    · exact h.others i hi hK
    · have := (h.bounded i hK).trans_le h.next
      omega
  refine ⟨hNew.grounded, h.next.trans hLe, h.bounded, hOthers,
    ⟨h.entry.1.trans_le hLe, h.entry.2⟩, ⟨after, ?_, hAfter, fun d hd => ?_⟩⟩
  · have hSet := Store.tops_setTop r'.top hTops₀ fun d hd => (hClear d hd).ne
    rw [hTops, hNew.same.fullName]
    exact hSet
  · have hd := hClear d hd
    have hNot {i : Nat} (hOld : i ∉ (Node.root r).ids) (hi : i < w.store.next) :
        i ∉ (Node.root r').ids := fun hMem => (hIds i hMem).elim hOld (by omega)
    exact ⟨hd.ne, hNot hd.id hd.numbered.1, hNot hd.top hd.numbered.2,
      hd.numbered.1.trans_le hLe, hd.numbered.2.trans_le hLe⟩

end Root.Ongoing

section

variable {K : Nat → Prop} {b w : World} {first : Nat} {r : Root Meta} {load : Load}

theorem Check.update_ongoing {change : Revision (Root Meta)} (h : r.Ongoing placed K b first w)
    (hChange : (change r).Gives w.store.next (fun _ => True) fun new k' =>
      r.Regrounds placed w.store.next k' (new.getD r)) :
    Leads (Check.update r change) w (fun _ _ => True) fun r' w' => r'.Ongoing placed K b first w' ∧
      r'.fullName = r.fullName := by
  unfold Check.update
  refine .bind (P := fun new w' => w' = { w with store := { w.store with next := w'.store.next } } ∧
    r.Regrounds placed w.store.next w'.store.next (Option.getD new r))
    (.revise hChange (fun _ _ _ => trivial) fun new next _ hNew => ⟨rfl, hNew⟩) fun new w₁ ⟨hSame, hNew⟩ => ?_
  have hTops₁ : w₁.store.tops = w.store.tops := by rw [hSame]
  have hLinks₁ : w₁.store.links = w.store.links := by rw [hSame]
  have h₁ : r.Ongoing placed K b first w₁ :=
    h.of_spares (World.Quiet.spares ⟨hNew.drawn.le, hTops₁, hLinks₁⟩ h.spares.numbered)
  cases new with
  | none => exact .pure ⟨h₁, rfl⟩
  | some r' =>
    refine .bind (.modifyStore (Q := fun _ w' => r'.Ongoing placed K b first w') ?_)
      fun _ w₂ h₂ => .pure ⟨h₂, hNew.same.fullName⟩
    rw [Store.renew_of_declared h₁.declaredBy?]
    obtain ⟨-, hTops, -, hNext⟩ := w₁.store.inherit_frame (.root r) (.root r')
    exact h.renewed (hNext.symm ▸ hNew) (congrArg (List.map _) (hTops.trans hTops₁))

theorem Root.qualify_ongoing (h : r.Ongoing placed K b first w) :
    Leads r.qualify w (fun _ _ => True) fun r' w' => r'.Ongoing placed K b first w' ∧
      r'.fullName = r.fullName := by
  refine .traced (.bind (P := fun st w' => st = w.store ∧ w' = w) (.store ⟨rfl, rfl⟩)
    fun st w₁ ⟨hst, hw₁⟩ => ?_)
  subst hst hw₁
  exact Check.update_ongoing h (Root.qualify?_regrounds _ h.grounded)

theorem Root.flatten_ongoing (h : r.Ongoing placed K b first w) :
    Leads r.flatten w (fun _ _ => True) fun r' w' => r'.Ongoing placed K b first w' ∧
      r'.fullName = r.fullName :=
  .traced (Check.update_ongoing h (Root.flatten?_regrounds h.grounded))

/-- A tree that is about to be checked: no declaration has to do with it. -/
structure Root.Ready (placed : Prop) (K : Nat → Prop) (r : Root Meta) (w : World) : Prop where
  grounded : r.Grounded placed w.store.next
  bounded : ∀ i, K i → i < w.store.next
  others : ∀ i ∈ (Node.root r).ids, ¬K i
  tops : ∀ d ∈ w.store.tops, d.Clear r.top.ann.id r w.store.next

theorem Root.Ready.numbered (h : r.Ready placed K w) : w.store.Numbered := fun d hd => (h.tops d hd).numbered

theorem Discovery.declareTop_ongoing (h : r.Ready placed K w) :
    Leads (Discovery.declareTop r) w (fun _ _ => True) fun errors w' =>
      if errors = [] then r.Ongoing placed K w r.top.ann.id w'
      else w.Quiet w' ∧ ∃ previous rest,
        w.store.table.find [] (Name.ofText r.fullName) = .ok (previous :: rest) := by
  unfold Discovery.declareTop
  refine .bind (P := fun symbols w' => w' = w ∧
    w.store.table.find [] (Name.ofText r.fullName) = .ok symbols) (.find ?_)
    fun symbols w₁ ⟨hw₁, hFind⟩ => ?_
  · cases w.store.table.find [] (Name.ofText r.fullName) with
    | error f => trivial
    | ok symbols => exact ⟨rfl, rfl⟩
  subst hw₁
  cases symbols with
  | cons previous rest =>
    refine (Quiet.alreadyDefined.leads w₁).bind fun e w₂ hAlready => .pure ?_
    rw [if_neg (by simp)]
    exact ⟨hAlready.1, previous, rest, hFind⟩
  | nil =>
    have hTop := r.id_mem_ids
    refine (Quiet.declare.leads w₁).bind fun _ w₂ ⟨hQuiet, _⟩ => ?_
    refine .bind (.modifyStore (Q := fun _ w' => r.Ongoing placed K w₁ r.top.ann.id w') ?_)
      fun _ w₃ h₃ => ?_
    · refine ⟨h.grounded.mono hQuiet.next, hQuiet.next, h.bounded, h.others,
        ⟨(h.grounded.below _ hTop).trans_le hQuiet.next, h.others _ hTop⟩,
        ⟨[], ?_, by simp, fun d hd => ?_⟩⟩
      · change w₂.store.tops ++ _ = _
        rw [hQuiet.tops]
      · rw [List.append_nil] at hd
        have hd := h.tops d hd
        exact ⟨hd.ne, hd.id, hd.top, hd.numbered.1.trans_le hQuiet.next,
          hd.numbered.2.trans_le hQuiet.next⟩
    have hRest : Quiet (do
        Check.log ("declared " ++ r.fullName)
        if r.top.name ≠ r.fullName then
          Check.declare (← Check.scopeOf r.ann) (Name.ofText r.top.name)
            (.alias r.top.ann.id r.fullName (some (.top r.top)))
        return [] : Check (List Diagnostic)) fun errors => errors = [] := by
      refine Quiet.log.after fun _ => ?_
      simp only
      split
      · exact Quiet.scopeOf.after fun _ => Quiet.declare.after fun _ => .pure rfl
      · exact .pure rfl
    refine (hRest.leads w₃).mono (fun _ _ => id) fun errors w₄ ⟨hQuiet', hErrors⟩ => ?_
    rw [if_pos hErrors]
    exact h₃.of_spares (hQuiet'.spares h₃.spares.numbered)

theorem Root.discover_ongoing (hLoad : load.Keeps World.Sparing) (h : r.Ready placed K w) :
    Leads (r.discover load) w (fun _ _ => True) fun _ w' =>
      r.Ongoing placed K w r.top.ann.id w' ∨
        w.Quiet w' ∧ ∃ previous rest,
          w.store.table.find [] (Name.ofText r.fullName) = .ok (previous :: rest) := by
  refine .traced ((Discovery.declareTop_ongoing h).bind fun errors w₁ h₁ => ?_)
  cases errors with
  | cons => exact .pure (.inr (by simpa using h₁))
  | nil =>
    have h₁ : r.Ongoing placed K w r.top.ann.id w₁ := by simpa using h₁
    exact (Discovery.rest_keeps hLoad r w₁).mono (fun _ _ => id) fun _ _ hSpares =>
      .inl (h₁.of_spares (hSpares h₁.spares.numbered))

theorem Scope.find_openAll {t : Scope} {paths : List Path} {name : Name} {symbols : List Symbol}
    (h : t.find [] name = .ok [])
    (h' : (paths.foldl (fun table path => table.openAt path) t).find [] name = .ok symbols) :
    symbols = [] := by
  cases hKey : name.key with
  | ok key =>
    rw [Scope.find_root hKey, Scope.membersAt] at h h'
    rw [Scope.bindingsAt_openAll] at h'
    exact Except.ok.inj (h'.symm.trans h)
  | error f =>
    -- Without a key only a scope that is missing gives an answer.
    unfold Scope.find at h'
    rw [hKey] at h'
    split at h'
    · split at h' <;> cases h'
      rfl
    · cases h'

theorem Root.place_grounded (hNodup : (Node.root r).ids.Nodup)
    (hBelow : ∀ i ∈ (Node.root r).ids, i < k)
    (hPositions : placed → (Node.root r).All (·.ann.position.isSome)) :
    r.place.Grounded placed k := by
  have hPositions' (hPlaced : placed) : (Node.root r.place).All (·.ann.position.isSome) := by
    have : ((Node.root r.place).map Meta.unplaced).All (·.ann.position.isSome) := by
      rw [Root.unplaced_place, Node.all_map]
      exact (hPositions hPlaced).mono fun n hn => by rwa [Node.ann_map]
    rw [Node.all_map] at this
    exact this.mono fun n hn => by rwa [Node.ann_map] at hn
  refine ⟨r.ids_place ▸ hNodup, fun n hn => ⟨?_, fun hPlaced => hPositions' hPlaced n hn, ?_⟩⟩
  · exact hBelow _ (r.ids_place ▸ List.mem_map_of_mem hn)
  · obtain ⟨path, hPath, _⟩ := r.place_inside n hn
    rw [hPath]
    rfl

/-- What a check spares, and what it gives back. -/
structure Root.Checks (placed : Prop) (K : Nat → Prop) (r : Root Meta) (w : World) (r' : Root Meta) (w' : World) :
    Prop where
  spares : w.Spares K w'
  grounded : r'.Grounded placed w'.store.next
  declared : w.store.table.find [] (Name.ofText r.fullName) = .ok [] →
    w'.store.declaredBy? r'.top = some ⟨r.top.ann.id, r.fullName, r'.top⟩ ∧
      w'.store.top? r.top.ann.id = some ⟨r.top.ann.id, r.fullName, r'.top⟩

theorem Root.check_checks (hLoad : load.Keeps World.Sparing) (hGrounded : r.place.Grounded placed w.store.next)
    (hBounded : ∀ i, K i → i < w.store.next) (hOthers : ∀ i ∈ (Node.root r).ids, ¬K i)
    (hTops : ∀ d ∈ w.store.tops, d.Clear r.top.ann.id r w.store.next) :
    Leads (r.check load) w (fun _ _ => True) fun p w' => r.Checks placed K w p.1 w' := by
  have hIds := r.ids_place
  have hFirst : r.place.top.ann.id = r.top.ann.id := TopLevel.id_place _ _
  have hFull := r.fullName_place
  refine .traced (.bind (P := fun r' w' => r' = r.place ∧ w' = w.openAll r.scopes) ?_ ?_)
  · refine .traced (.bind (P := fun _ w' => w' = w.openAll r.scopes) (.modifyStore rfl) ?_)
    exact fun _ w' hw' => .pure ⟨rfl, hw'⟩
  rintro r₁ w₁ ⟨hr₁, hw₁⟩
  refine .bind (P := fun _ w' => w' = { w₁ with store := w₁.store.link (.root r₁) })
    (.modifyStore rfl) fun _ w₂ hw₂ => ?_
  have hSpares : w.Spares K w₂ := by
    subst hw₂ hw₁ hr₁
    exact ⟨Nat.le_refl _, ⟨[], (List.append_nil _).symm, by simp⟩, fun d hd => (hTops d hd).numbered⟩
  have hReady : r₁.Ready placed K w₂ := by
    subst hw₂ hw₁ hr₁
    refine ⟨hGrounded, hBounded, hIds.symm ▸ hOthers, fun d hd => ?_⟩
    have hd := hTops d hd
    exact ⟨hFirst.symm ▸ hd.ne, hIds.symm ▸ hd.id, hIds.symm ▸ hd.top, hd.numbered⟩
  have hNew (hFind : w.store.table.find [] (Name.ofText r.fullName) = .ok []) :
      ∀ symbols, w₂.store.table.find [] (Name.ofText r₁.fullName) = .ok symbols → symbols = [] := by
    subst hw₂ hw₁ hr₁
    rw [hFull]
    exact fun symbols h => Scope.find_openAll hFind h
  have hDone {r' : Root Meta} {w' : World} (h : r'.Ongoing placed K w₂ r₁.top.ann.id w')
      (hName : r'.fullName = r₁.fullName) : r.Checks placed K w r' w' := by
    have hEntry : (⟨r₁.top.ann.id, r'.fullName, r'.top⟩ : Declared) =
        ⟨r.top.ann.id, r.fullName, r'.top⟩ := by
      rw [hName, hr₁, hFirst, hFull]
    refine ⟨hSpares.trans h.spares, h.grounded, fun _ => ⟨?_, ?_⟩⟩
    · rw [h.declaredBy?, hEntry]
    · have hTop := h.top?
      rwa [hEntry, hr₁, hFirst] at hTop
  refine (Root.discover_ongoing hLoad hReady).bind fun found w₃ hFound => ?_
  refine .bind (P := fun st w' => st = w₃.store ∧ w' = w₃) (.store ⟨rfl, rfl⟩)
    fun st w₄ ⟨hst, hw₄⟩ => ?_
  subst hst hw₄
  obtain h₄ | ⟨hQuiet, previous, rest, hFind⟩ := hFound
  · simp only [h₄.declaredBy?]
    refine (Root.qualify_ongoing h₄).bind fun r₂ w₅ ⟨h₅, hName₅⟩ => ?_
    refine (Root.flatten_ongoing h₅).bind fun r₃ w₆ ⟨h₆, hName₆⟩ => ?_
    refine (r₃.resolveNames_quiet.leads w₆).bind fun names w₇ ⟨hQuiet₇, _⟩ => ?_
    have h₇ := h₆.of_spares (hQuiet₇.spares h₆.spares.numbered)
    refine (r₃.infer_quiet w₇).bind fun types w₈ ⟨hQuiet₈, _⟩ => .pure ?_
    exact hDone (h₇.of_spares (hQuiet₈.spares h₇.spares.numbered)) (hName₆.trans hName₅)
  · -- The type was declared before, and the tree is given back as it was put into scopes.
    have hNone : w₄.store.declaredBy? r₁.top = none := by
      refine Store.declaredBy?_eq_none fun d hd => ?_
      have hd := hReady.tops d (hQuiet.tops ▸ hd)
      exact ⟨hd.ne, fun hEq => hd.top (hEq ▸ r₁.id_mem_ids)⟩
    simp only [hNone]
    refine .pure ⟨hSpares.trans (hQuiet.spares hReady.numbered), hReady.grounded.mono hQuiet.next,
      fun hFree => ?_⟩
    cases hNew hFree _ hFind

end

theorem Root.check_sparing {w w' : World} (hLoad : load.Keeps World.Sparing)
    (hNumbered : w.store.Numbered) (hQuiet : w.Quiet w')
    (hSpan : Span w.store.next w'.store.next (Node.root r).ids) :
    Leads (r.check load) w' (fun _ _ => True) fun _ w'' => w.Spares (· < w.store.next) w'' := by
  have hNot {i : Nat} (hi : i < w.store.next) : i ∉ (Node.root r).ids := fun hMem => by
    have := hSpan.mem i hMem
    omega
  have hGrounded : r.place.Grounded False w'.store.next :=
    Root.place_grounded hSpan.nodup (fun i hi => (hSpan.mem i hi).2) False.elim
  refine (Root.check_checks hLoad hGrounded (fun i hi => Nat.lt_of_lt_of_le hi hSpan.le)
    (fun i hi hLow => hNot hLow hi) fun d hd => ?_).mono (fun _ _ => id) fun _ _ h =>
      (hQuiet.spares hNumbered).trans h.spares
  obtain ⟨hId, hTop⟩ := hNumbered d (hQuiet.tops ▸ hd)
  exact ⟨fun hEq => hNot hId (hEq ▸ r.id_mem_ids), hNot hId, hNot hTop, hId.trans_le hSpan.le,
    hTop.trans_le hSpan.le⟩

theorem Check.Leads.of_imp {α : Type} {m : Check α} {w : World} {p : Prop} {Q : α → World → Prop}
    (h : p → Leads m w (fun _ _ => True) Q) : Leads m w (fun _ _ => True) fun a w' => p → Q a w' := by
  intro s hs
  have hEnds (hp : p) := h hp s hs
  cases hEnd : (m.ending s).1 with
  | ok a =>
    intro hp
    have hEnds := hEnds hp
    rw [hEnd] at hEnds
    exact hEnds
  | error f => trivial

instance : World.Frame.Checked World.Sparing where
  check hLoad _ _ _ hQuiet hSpan := .of_imp fun hNumbered =>
    Root.check_sparing hLoad hNumbered hQuiet hSpan

/-- One of those that types are loaded from. -/
inductive Supply where
  /-- A loader that answers as it likes. -/
  | answers (f : Name → Node Meta → Option Symbol)
  /-- Loaders of the kinds that a config can have. -/
  | loaders (ls : List Loader)
  /-- The units of the compilation. -/
  | units

namespace Supply

def load : Supply → Load
  | .answers f => fun name trigger => return f name trigger
  | .loaders ls => fun name trigger => Check.ask name (some trigger) ls
  | .units => fun name _ => Compilation.loadUnit name

/-- How a type is loaded from several supplies: from the first one that has it. -/
def chain : List Supply → Load
  | [] => fun _ _ => return none
  | supply :: rest => fun name trigger => do
    match ← supply.load name trigger with
    | some symbol => return some symbol
    | none => chain rest name trigger

theorem load_keeps {R : World → World → Prop} [World.Frame.Checked R] (supply : Supply) :
    supply.load.Keeps R := by
  intro name trigger
  cases supply with
  | answers f => exact .pure
  | loaders ls => exact Check.ask_keeps _ _ _
  | units => exact .get fun _ => Compilation.load_keeps _ _

theorem chain_keeps {R : World → World → Prop} [World.Frame.Checked R] (supplies : List Supply) :
    (chain supplies).Keeps R := by
  induction supplies with
  | nil => exact fun _ _ => .pure
  | cons supply rest ih =>
    refine fun name trigger => (supply.load_keeps name trigger).bind fun found => ?_
    cases found with
    | some symbol => exact .pure
    | none => exact ih name trigger

end Supply

/-- What a store says about a place of a tree is what the tree says: about the place itself and its
parent, about its children and siblings, and about those right after and right before it. The nodes
above it are nodes of the tree. -/
structure Relatives.Current (st : Store) (n : Node Meta) (x : Relatives Meta) : Prop where
  here : st.relativesOf? x.node.ann.id = some x
  parent : ∀ p, x.parent? = some p → st.relativesOf? p.node.ann.id = some p ∧ x ∈ p.children
  children : st.childrenOf? x = some x.children
  siblings : st.siblingsOf? x = some x.siblings
  next : st.siblingAt? x 1 = some x.next?
  previous : st.siblingAt? x (-1) = some x.previous?
  enclosing : ∀ p k, x.enclosing? p = some k → k ∈ n.nodes

theorem Store.Linked.current {st : Store} {n : Node Meta} (h : st.Linked n) (hIds : n.ids.Nodup)
    {x : Relatives Meta} (hx : x ∈ (Relatives.ofRoot n).nodes) : x.Current st n where
  here := h x hx
  parent p hp := by
    obtain ⟨hMem, hChild⟩ := Relatives.parent_mem_nodes hx hp
    exact ⟨h p hMem, hChild⟩
  children := h.childrenOf? hx
  siblings := h.siblingsOf? hIds hx
  next := h.next? hIds hx
  previous := h.previous? hIds hx
  enclosing p k hk := by
    obtain ⟨a, ha, rfl⟩ := List.mem_map.1 (List.mem_of_find?_eq_some hk)
    exact Relatives.above_mem_nodes hx a ha

/-- A tree is intact: its nodes have numbers of their own, each has a position and a scope, and what
the store says about the place of each is what the tree says. -/
structure Root.Intact (st : Store) (r : Root Meta) : Prop where
  distinct : (Node.root r).ids.Nodup
  placed : ∀ n ∈ (Node.root r).nodes, n.ann.position.isSome ∧ n.ann.scope.isSome
  root : st.relativesOf? r.ann.id = some (.ofRoot (.root r))
  current : ∀ n ∈ (Node.root r).nodes, ∃ x ∈ (Relatives.ofRoot (.root r)).nodes,
    x.node = n ∧ x.Current st (.root r)

theorem Root.Checks.intact {K : Nat → Prop} {r' : Root Meta} {w w' : World}
    (h : r.Checks True K w r' w') (hLinked : w'.store.Linked (.root r')) : r'.Intact w'.store where
  distinct := h.grounded.nodup
  placed n hn := ⟨(h.grounded.all n hn).position trivial, (h.grounded.all n hn).scope⟩
  root := hLinked _ (Relatives.self_mem_nodes _)
  current n hn := by
    have hPlaces := Relatives.map_node_nodes (.ofRoot (.root r'))
    obtain ⟨x, hx, rfl⟩ := List.mem_map.1 (hPlaces.symm ▸ hn)
    exact ⟨x, hx, rfl, hLinked.current h.grounded.nodup hx⟩

/-- Whatever is in the table and whatever types are loaded from, a check of a source that was read
gives back an intact tree. If nothing was declared under the full name of the source, the declaration
that the check makes is that of the top-level node of this tree, to which its type points. -/
theorem check_gives_intact_tree {files files' : Files} (hFiles : files.Built)
    {space path text : Text} {low high : Nat} {r : Root Meta}
    (hRead : Root.read files space path text low = (files', .ok r, high)) (supplies : List Supply)
    (s : State) (hNext : high ≤ s.store.next)
    (hTops : ∀ d ∈ s.store.tops, (d.id < s.store.next ∧ d.id ∉ (Node.root r).ids) ∧
      d.top.ann.id < s.store.next ∧ d.top.ann.id ∉ (Node.root r).ids)
    {r' : Root Meta} {errors : List Diagnostic} {s' : State}
    (hCheck : ending (r.check (Supply.chain supplies)) s = (.ok (r', errors), s')) :
    r'.Intact s'.store ∧ (s.store.table.find [] (Name.ofText r.fullName) = .ok [] →
      ∃ d, s'.store.declaredBy? r'.top = some d ∧ d.id = r.top.ann.id ∧ d.name = r.fullName ∧
        d.top = r'.top ∧ s'.store.decl? d.symbol = some (.top r'.top)) := by
  obtain ⟨-, -, hOk⟩ := Root.read_spec hRead
  obtain ⟨-, hSpan, -⟩ := hOk r rfl
  have hBelow : ∀ i ∈ (Node.root r).ids, i < s.store.next :=
    fun i hi => (hSpan.mem i hi).2.trans_le hNext
  have hGrounded : r.place.Grounded True s.store.next :=
    Root.place_grounded hSpan.nodup hBelow fun _ => Root.read_located hFiles hRead
  have hClear : ∀ d ∈ s.store.tops, d.Clear r.top.ann.id r s.store.next := by
    intro d hd
    obtain ⟨⟨hId, hNotId⟩, hTop, hNotTop⟩ := hTops d hd
    exact ⟨fun hEq => hNotId (hEq ▸ r.id_mem_ids), hNotId, hNotTop, hId, hTop⟩
  have hChecks := Root.check_checks (K := fun _ => False) (w := s.world)
    (Supply.chain_keeps supplies) hGrounded (fun _ => False.elim) (fun _ _ => id) hClear s rfl
  rw [hCheck] at hChecks
  have hChecks : r.Checks True (fun _ => False) s.world r' s'.world := hChecks
  have hTied := Root.check_tied (w := s.world) (Supply.chain_keeps supplies)
    ⟨hSpan.le.trans hNext, hSpan.nodup, fun i hi => ⟨(hSpan.mem i hi).1, hBelow i hi⟩⟩ s rfl
  rw [hCheck] at hTied
  have hTied : r'.Tied low s.world s'.world := hTied
  refine ⟨hChecks.intact hTied.linked, fun hFree => ?_⟩
  obtain ⟨hDeclared, hTop⟩ := hChecks.declared hFree
  refine ⟨_, hDeclared, rfl, rfl, rfl, ?_⟩
  exact congrArg (Option.map fun d : Declared => Node.top d.top) hTop

/-- A class whose types get full names and flat forms, so that its tree is a new one. -/
theorem check_gives_intact_tree_rewritten :
    let supplies := [.units, .answers fun _ _ => none, .loaders [.library]]
    ∃ files r high r' errors s',
      Root.read [] "p" "A.th" "class A { val a: A; val b: A | Object | A; }" 1 = (files, .ok r, high) ∧
      ending (r.check (Supply.chain supplies))
          { State.start .default with store := { Store.empty with next := high } } =
        (.ok (r', errors), s') ∧
      r'.ann.id ≠ r.ann.id ∧ r'.Intact s'.store ∧
        ∃ d, s'.store.declaredBy? r'.top = some d ∧ d.top = r'.top := by
  intro supplies
  have hRun : ((Root.read [] "p" "A.th" "class A { val a: A; val b: A | Object | A; }" 1).2.1.toOption.bind
      fun r => ((ending (r.check (Supply.chain supplies))
        { State.start .default with store := { Store.empty with next :=
          (Root.read [] "p" "A.th" "class A { val a: A; val b: A | Object | A; }" 1).2.2 } }).1.toOption.map
        fun result => decide (result.1.ann.id ≠ r.ann.id ∧ r.fullName = "p.A"))) = some true := by
    decide +kernel
  cases hRead : Root.read [] "p" "A.th" "class A { val a: A; val b: A | Object | A; }" 1 with
  | mk files rest =>
    obtain ⟨_ | r, high⟩ := rest
    · simp [hRead, Except.toOption] at hRun
    cases hEnd : ending (r.check (Supply.chain supplies))
        { State.start .default with store := { Store.empty with next := high } } with
    | mk result s' =>
      obtain _ | ⟨r', errors⟩ := result
      · simp [hRead, hEnd, Except.toOption] at hRun
      obtain ⟨hNew, hName⟩ : r'.ann.id ≠ r.ann.id ∧ r.fullName = "p.A" := by
        simpa [hRead, hEnd, Except.toOption] using hRun
      obtain ⟨hIntact, hDeclared⟩ := check_gives_intact_tree .empty hRead supplies
        { State.start .default with store := { Store.empty with next := high } }
        (Nat.le_refl high) (by simp [Store.empty]) hEnd
      obtain ⟨d, hBy, -, -, hTop, -⟩ := hDeclared (by rw [hName]; rfl)
      exact ⟨files, r, high, r', errors, s', rfl, hEnd, hNew, hIntact, d, hBy, hTop⟩

end Assay
