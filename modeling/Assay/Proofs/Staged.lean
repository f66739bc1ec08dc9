import Mathlib
import Assay.Proofs.Shaped
import Assay.Proofs.Visited

/-! The stages of a check. Up to the point where its names are resolved nothing is known of what is in
the body of a source; then each reference that means anything means a declaration of the source, or
what is not in its body. -/

namespace Assay

open Check (Leads ending)

namespace Check

variable {α : Type}

/-- A step that is started in some state of the world `w` ends with a result and another world. -/
def Goes (m : Check α) (w : World) (a : α) (w' : World) : Prop :=
  ∃ s s', s.world = w ∧ ending m s = (.ok a, s') ∧ s'.world = w'

theorem Leads.goes (m : Check α) (w : World) : Leads m w (fun _ _ => True) (Goes m w) := by
  intro s hs
  cases hEnd : ending m s with
  | mk result s' =>
    cases result with
    | error f => trivial
    | ok a => exact ⟨s, s', hs, hEnd, rfl⟩

theorem Goes.leads {m : Check α} {w w' : World} {a : α} {F : Fault → World → Prop}
    {Q : α → World → Prop} (h : Goes m w a w') (hm : Leads m w F Q) : Q a w' := by
  obtain ⟨s, s', hs, hEnd, rfl⟩ := h
  have hEnds := hm s hs
  rw [hEnd] at hEnds
  exact hEnds

end Check

open Check (Goes)

/-- The world after the scopes of a source are opened and its nodes are linked. -/
def World.prepared (w : World) (r : Root Meta) : World :=
  { w.openAll r.scopes with store := (w.openAll r.scopes).store.link (.root r.place) }

/-- The stages of a check that is not stopped, from a world up to the tree, the diagnostics and the
world at the end. -/
inductive Root.Staged (load : Load) (r : Root Meta) (w : World) :
    Root Meta → List Diagnostic → World → Prop where
  | mk {d : Declared} {r₁ r₂ : Root Meta} {found names types : List Diagnostic}
    {w₁ w₂ w₃ w₄ w₅ : World} (hFound : Goes (r.place.discover load) (w.prepared r) found w₁)
    (hDeclared : w₁.store.declaredBy? r.place.top = some d) (hQualify : Goes r.place.qualify w₁ r₁ w₂)
    (hFlatten : Goes r₁.flatten w₂ r₂ w₃) (hNames : Goes r₂.resolveNames w₃ names w₄)
    (hTypes : Goes r₂.infer w₄ types w₅) :
    Staged load r w r₂ (Diagnostic.sort (found ++ names ++ types)) w₅

theorem Root.check_staged (load : Load) (r : Root Meta) (w : World) :
    Leads (r.check load) w (fun _ _ => True) fun p w' =>
      r.Staged load w p.1 p.2 w' ∨ w'.store.declaredBy? p.1.top = none := by
  refine .traced (.bind (P := fun r' w' => r' = r.place ∧ w' = w.openAll r.scopes) ?_ ?_)
  · refine .traced (.bind (P := fun _ w' => w' = w.openAll r.scopes) (.modifyStore rfl) ?_)
    exact fun _ w' hw' => .pure ⟨rfl, hw'⟩
  rintro r₁ w₁ ⟨rfl, rfl⟩
  refine .bind (P := fun _ w' => w' = w.prepared r) (.modifyStore rfl) fun _ w₂ hw₂ => ?_
  subst hw₂
  refine (Leads.goes (r.place.discover load) _).bind fun found w₃ hFound => ?_
  refine .bind (P := fun st w' => st = w₃.store ∧ w' = w₃) (.store ⟨rfl, rfl⟩) ?_
  rintro st w₄ ⟨rfl, rfl⟩
  split
  · exact .pure (.inr ‹_›)
  · rename_i d hDeclared
    refine (Leads.goes r.place.qualify w₄).bind fun r₂ w₅ hQualify => ?_
    refine (Leads.goes r₂.flatten w₅).bind fun r₃ w₆ hFlatten => ?_
    refine (Leads.goes r₃.resolveNames w₆).bind fun names w₇ hNames => ?_
    refine (Leads.goes r₃.infer w₇).bind fun types w₈ hTypes => .pure (.inl ?_)
    exact .mk hFound hDeclared hQualify hFlatten hNames hTypes

theorem Node.mem_outer {n k : Node Meta} (hn : n ∈ k.nodes) (h : n.spec? = none) : n ∈ k.outer := by
  induction k using Node.induct with
  | _ k ih =>
    cases hSpec : k.spec? with
    | none =>
      rw [nodes_eq, List.mem_cons, List.mem_flatMap] at hn
      rw [outer_eq hSpec, List.mem_cons, List.mem_flatMap]
      exact hn.imp_right fun ⟨j, hj, hMem⟩ => ⟨j, hj, ih j hj hMem⟩
    | some s =>
      cases k with
      | spec s' =>
        obtain ⟨s'', rfl⟩ := spec_of_mem_nodes hn
        cases h
      | _ => cases hSpec

theorem Node.Inner.spec? {n : Node Meta} (h : n.Inner) : n.spec? = none := by
  cases n with
  | spec s => exact h.elim
  | _ => rfl

theorem Check.update_table (r : Root Meta) (change : Revision (Root Meta)) (w : World) :
    Leads (Check.update r change) w (fun _ _ => True) fun _ w' => w'.store.table = w.store.table := by
  refine .bind (P := fun _ w' => w'.store.table = w.store.table) ?_ fun new w₁ h₁ => ?_
  · refine .bind (P := fun _ w' => w'.store.table = w.store.table) (.fresh rfl) fun result w₁ h₁ => ?_
    cases result with
    | ok new => exact .pure h₁
    | error f => exact .throw trivial
  cases new with
  | none => exact .pure h₁
  | some r' =>
    obtain ⟨hTable, -⟩ := w₁.store.inherit_frame (.root r) (.root r')
    refine .bind (P := fun _ w' => w'.store.table = w.store.table) (.modifyStore ?_)
      fun _ _ h₂ => .pure h₂
    obtain ⟨_, hRenew⟩ | hRenew := w₁.store.renew_eq_or r r'
    · rw [hRenew]
      exact hTable.trans h₁
    · rw [hRenew]
      exact hTable.trans h₁

/-- A source of the body of which nothing is known: neither is it the meaning of anything, nor has it
any type. -/
structure Root.Untouched (r : Root Meta) (w : World) : Prop where
  grounded : r.Grounded True w.store.next
  shapely : r.Shapely
  avoids : w.Avoids r.Inner

namespace Root.Untouched

variable {r r' : Root Meta} {w w' : World}

theorem below (h : r.Untouched w) : (Node.root r).All (·.ann.id < w.store.next) :=
  h.grounded.all.mono fun _ hn => hn.below

theorem not_inner (hNodup : (Node.root r).ids.Nodup) {n : Node Meta}
    (hn : n ∈ (Node.root r).nodes) (h : ¬n.Inner) : ¬r.Inner n.ann.id := by
  rintro ⟨k, hk, hInner, hId⟩
  exact h (List.inj_on_of_nodup_map hNodup hk hn hId ▸ hInner)

theorem top_not_inner (hNodup : (Node.root r).ids.Nodup) : ¬r.Inner r.top.ann.id :=
  not_inner hNodup (n := .top r.top)
    (Node.mem_nodes_of_child (Node.self_mem_nodes _) (by simp [Node.children])) id

theorem of_read {files : Files} {space path text : Text} {next : Nat} {s : State}
    (hFiles : s.files.Built) (hKnown : s.world.Avoids fun _ => False)
    (hRead : Root.read s.files space path text s.store.next = (files, .ok r, next)) :
    r.place.Untouched (World.prepared
      (State.world { s with files, store := { s.store with next } }) r) := by
  obtain ⟨-, -, hOk⟩ := Root.read_spec hRead
  obtain ⟨-, hSpan, -⟩ := hOk r rfl
  have hBelow : ∀ i ∈ (Node.root r).ids, i < next := fun i hi => (hSpan.mem i hi).2
  have hInner (i : Nat) (hi : r.place.Inner i) : s.store.next ≤ i ∧ i < next := by
    obtain ⟨n, hn, -, rfl⟩ := hi
    exact hSpan.mem _ (r.ids_place ▸ List.mem_map_of_mem hn)
  have hAvoids : World.Avoids r.place.Inner
      (State.world { s with files, store := { s.store with next } }) := by
    refine ⟨fun i hi => (hInner i hi).2, ?_, hKnown.loaders⟩
    refine Store.Within.mono (P := s.world.Other fun _ => False)
      ⟨hKnown.within.table, hKnown.within.refs, hKnown.within.types, hKnown.within.tops⟩ ?_
    exact fun i hi => ⟨hi.1.trans_le hSpan.le, fun hMem => absurd hi.1 (Nat.not_lt.2 (hInner i hMem).1)⟩
  exact ⟨Root.place_grounded hSpan.nodup hBelow fun _ => Root.read_located hFiles hRead,
    (Root.read_shapely hFiles hRead).place, (hAvoids.openAll _).link _⟩

theorem discover {load : Load} (hLoad : load.Avoiding) (h : r.Untouched w) :
    Leads (r.discover load) w (fun _ _ => True) fun _ w' => r.Untouched w' := by
  refine (Root.discover_avoiding hLoad (O := r.Inner) (fun n hn hNot => ⟨h.below n hn, ?_⟩) w h.avoids
    (Nat.le_refl _)).mono (fun _ _ => id) fun _ w' ⟨hAvoids, hNext, _⟩ => ?_
  · exact not_inner h.grounded.nodup hn hNot
  · exact ⟨h.grounded.mono hNext, h.shapely, hAvoids⟩

/-- A change of the types of a source touches nothing in its body, nor anything else. -/
structure Turns (r : Root Meta) (w : World) (r' : Root Meta) (w' : World) : Prop where
  untouched : r'.Untouched w'
  table : w'.store.table = w.store.table
  uses : ∀ u, .use u ∈ (Node.root r).nodes → .use u ∈ (Node.root r').nodes

theorem update {f : Revision (TypeSpec Meta)} {change : Revision (Root Meta)} (h : r.Untouched w)
    (hChange : change r = Root.revise f r) (hf : f.Counts)
    (hGives : (Root.revise f r).Gives w.store.next (fun _ => True) fun new k' =>
      r.Regrounds True w.store.next k' (new.getD r)) :
    Leads (Check.update r change) w (fun _ _ => True) (Turns r w) := by
  refine ((Check.update_avoids hChange hf h.avoids h.below hGives).and
    (Check.update_table r change w)).mono (fun _ _ _ => trivial) ?_
  rintro r' w' ⟨⟨hNext, ⟨new, rfl, hUpdates, hRegrounds⟩, hAvoids⟩, hTable⟩
  have hTree := hUpdates.rewrites.tree
  have hGrounded := hRegrounds.grounded
  have hBelow := hGrounded.all.mono fun _ hn => hn.below
  have hTop : Node.top (new.getD r).top ∈ (Node.root (new.getD r)).nodes :=
    Node.mem_nodes_of_child (Node.self_mem_nodes _) (by simp [Node.children])
  have hPatch : patch [Node.root r] [new.map .root] = [.root (new.getD r)] := by
    cases new <;> rfl
  -- A node of the body is one of before, or was built anew in the place of one.
  have hOld (n' : Node Meta) (hn' : n' ∈ (Node.root (new.getD r)).nodes) (hInner : n'.Inner) :
      n' ∈ (Node.root r).nodes ∨ ∃ n ∈ (Node.root r).nodes, n.Inner ∧
        (n.ann.id, n'.ann.id) ∈ (Node.root r).renewals Meta.id (.root (new.getD r)) := by
    have hOuter : n' ∈ (patch [Node.root r] [new.map .root]).flatMap Node.outer := by
      rw [hPatch, List.flatMap_singleton]
      exact Node.mem_outer hn' hInner.spec?
    have hCases := hTree.same_or_anew (hf.revisable (F := fun _ => True) fun _ _ _ _ _ _ => trivial)
      (Nat.le_refl _) (List.forall_mem_singleton.2 h.below) hOuter hInner.spec?
    rw [hPatch, List.flatMap_singleton] at hCases
    obtain hSame | ⟨n, hn, hLabel, -, hPair⟩ := hCases
    · exact .inl (Node.outer_subset _ hSame)
    · refine .inr ⟨n, Node.outer_subset _ hn, Node.inner_of_label hLabel hInner, ?_⟩
      simpa [Node.renewalsOf] using hPair
  refine ⟨⟨hGrounded, h.shapely.rewritten hTree, hAvoids _ ?_ ?_ ?_ (hBelow _ hTop) ?_⟩, hTable,
    fun u hu => ?_⟩
  · rintro i ⟨n', hn', -, rfl⟩
    exact hBelow n' hn'
  · rintro i ⟨hLt, hNot⟩ ⟨n', hn', hInner, rfl⟩
    obtain hSame | ⟨n, hn, -, hPair⟩ := hOld n' hn' hInner
    · exact hNot ⟨n', hSame, hInner, rfl⟩
    · exact absurd hLt (Nat.not_lt.2 (hUpdates.renews.new _ hPair).1)
  · exact top_not_inner hGrounded.nodup
  · rintro p hp ⟨n', hn', hInner, hId⟩
    obtain hSame | ⟨n, hn, hOldInner, hPair⟩ := hOld n' hn' hInner
    · exact absurd (h.below n' hSame) (Nat.not_lt.2 (hId ▸ (hUpdates.renews.new p hp).1))
    · have hEq : p = (n.ann.id, n'.ann.id) :=
        List.inj_on_of_nodup_map hUpdates.renews.nodup hp hPair hId.symm
      exact ⟨n, hn, hOldInner, by rw [hEq]⟩
  · -- What is brought in names no types, so it is in the new tree.
    have hSpecs : (Node.use u).specs = [] := Node.specs_eq rfl
    exact Node.outer_subset _ (hUpdates.rewrites.shared _ (Node.mem_outer hu rfl) (by simp [hSpecs]))

theorem qualify (h : r.Untouched w) : Leads r.qualify w (fun _ _ => True) (Turns r w) := by
  refine .traced (.bind (P := fun st w' => st = w.store ∧ w' = w) (.store ⟨rfl, rfl⟩) ?_)
  rintro st w₁ ⟨rfl, rfl⟩
  exact h.update rfl (TypeSpec.qualify?_counts _ r.space) (Root.qualify?_regrounds _ h.grounded)

theorem flatten (h : r.Untouched w) : Leads r.flatten w (fun _ _ => True) (Turns r w) :=
  .traced (h.update rfl TypeSpec.flatten?_counts (Root.flatten?_regrounds h.grounded))

end Root.Untouched

end Assay
