import Mathlib
import Assay.Proofs.Label
import Assay.Proofs.Table
import Assay.Tree.Revision

/-! How a revision of types rewrites a tree, said once for nodes of all kinds: the outermost types get
their images, and a node is built anew exactly if something below it is. -/

namespace Assay

namespace Fresh

variable {α β : Type}

/-- A computation that numbers new nodes, started at `k`, lets no number be given out twice, and its
result and the next number satisfy `Q`. -/
def Gives (x : Fresh α) (k : Nat) (Q : α → Nat → Prop) : Prop := k ≤ (x k).2 ∧ Q (x k).1 (x k).2

namespace Gives

variable {k : Nat}

theorem pure {a : α} {Q : α → Nat → Prop} (h : Q a k) : Gives (Pure.pure a) k Q :=
  ⟨Nat.le_refl k, h⟩

theorem bind {x : Fresh α} {f : α → Fresh β} {P : α → Nat → Prop} {Q : β → Nat → Prop}
    (hx : Gives x k P) (hf : ∀ a k', k ≤ k' → P a k' → Gives (f a) k' Q) : Gives (x >>= f) k Q := by
  obtain ⟨hLe, hP⟩ := hx
  obtain ⟨hLe', hQ⟩ := hf _ _ hLe hP
  exact ⟨Nat.le_trans hLe hLe', hQ⟩

theorem mono {x : Fresh α} {P Q : α → Nat → Prop} (hx : Gives x k P)
    (h : ∀ a k', k ≤ k' → P a k' → Q a k') : Gives x k Q :=
  ⟨hx.1, h _ _ hx.1 hx.2⟩

theorem renew (m : Meta) : Gives m.renew k fun m' k' => m' = { m with id := k } ∧ k' = k + 1 :=
  ⟨Nat.le_succ k, rfl, rfl⟩

end Gives

end Fresh

namespace Revising

variable {α β : Type}

/-- The same for a computation that may fault: the fault satisfies `F`. -/
def Gives (x : Revising α) (k : Nat) (F : Fault → Prop) (Q : α → Nat → Prop) : Prop :=
  Fresh.Gives x.run k fun result k' => Ends F (Q · k') result

namespace Gives

variable {k : Nat} {F : Fault → Prop}

theorem pure {a : α} {Q : α → Nat → Prop} (h : Q a k) : Gives (Pure.pure a) k F Q :=
  Fresh.Gives.pure (a := Except.ok a) h

theorem lift {x : Fresh α} {Q : α → Nat → Prop} (h : x.Gives k Q) : Gives (liftM x) k F Q := h

theorem result {r : Except Fault α} {Q : α → Nat → Prop}
    (h : Ends F (Q · k) r) :
    Gives (ExceptT.mk (Pure.pure r)) k F Q :=
  ⟨Nat.le_refl k, h⟩

theorem bind {x : Revising α} {f : α → Revising β} {P : α → Nat → Prop} {Q : β → Nat → Prop}
    (hx : Gives x k F P) (hf : ∀ a k', k ≤ k' → P a k' → Gives (f a) k' F Q) :
    Gives (x >>= f) k F Q := by
  unfold Gives
  rw [ExceptT.run_bind]
  refine Fresh.Gives.bind hx fun r k' hLe hr => ?_
  cases r with
  | ok a => exact hf a k' hLe hr
  | error f => exact Fresh.Gives.pure hr

theorem mono {x : Revising α} {P Q : α → Nat → Prop} (hx : Gives x k F P)
    (h : ∀ a k', k ≤ k' → P a k' → Q a k') : Gives x k F Q := by
  refine Fresh.Gives.mono hx fun r k' hLe hr => ?_
  cases r with
  | ok a => exact h a k' hLe hr
  | error f => exact hr

theorem and {x : Revising α} {P Q : α → Nat → Prop} (hP : Gives x k F P) (hQ : Gives x k F Q) :
    Gives x k F fun a k' => P a k' ∧ Q a k' := by
  obtain ⟨hLe, hP⟩ := hP
  obtain ⟨-, hQ⟩ := hQ
  refine ⟨hLe, ?_⟩
  cases hResult : (x.run k).1 with
  | ok a =>
    rw [hResult] at hP hQ
    exact ⟨hP, hQ⟩
  | error f =>
    rw [hResult] at hP
    exact hP

theorem of_run {x : Revising α} {Q : α → Nat → Prop} {a : α} {k' : Nat} (hx : Gives x k F Q)
    (h : x.run k = (.ok a, k')) : k ≤ k' ∧ Q a k' := by
  unfold Gives Fresh.Gives at hx
  rwa [h] at hx

theorem exact {x : Revising α} {Q : α → Nat → Prop} (hx : Gives x k F Q) :
    Gives x k F fun a k' => x.run k = (.ok a, k') ∧ Q a k' := by
  obtain ⟨hLe, hEnds⟩ := hx
  refine ⟨hLe, ?_⟩
  generalize hRun : x.run k = run at hEnds ⊢
  obtain ⟨result, k'⟩ := run
  cases result with
  | ok a => exact ⟨rfl, hEnds⟩
  | error f => exact hEnds

end Gives

end Revising

section Patch

variable {α : Type}

def patch (xs : List α) (news : List (Option α)) : List α :=
  List.zipWith (fun x new => new.getD x) xs news

theorem patch_cons (x : α) (new : Option α) (xs : List α) (news : List (Option α)) :
    patch (x :: xs) (new :: news) = new.getD x :: patch xs news := rfl

theorem patch_append {xs ys : List α} {news news' : List (Option α)}
    (h : news.length = xs.length) :
    patch (xs ++ ys) (news ++ news') = patch xs news ++ patch ys news' :=
  List.zipWith_append h.symm

theorem patch_none {xs : List α} {news : List (Option α)} (hLength : news.length = xs.length)
    (h : ∀ new ∈ news, new = none) : patch xs news = xs := by
  induction xs generalizing news with
  | nil => rfl
  | cons x xs ih =>
    cases news with
    | nil => simp at hLength
    | cons new news =>
      rw [List.forall_mem_cons] at h
      rw [patch_cons, h.1, ih (by simpa using hLength) h.2]
      rfl

end Patch

namespace Node

variable {α : Type}

theorem walk_eq (enter : Node α → Bool) (n : Node α) :
    n.walk enter = n :: if enter n then n.children.flatMap (walk enter) else [] := by
  have hAttach (xs : List (Node α)) :
      xs.attach.flatMap (fun k => walk enter k.1) = xs.flatMap (walk enter) := by
    rw [← List.flatMap_map, List.attach_map_subtype_val]
  conv_lhs => unfold walk
  split
  · exact congrArg _ (hAttach n.children)
  · rfl

/-- A node and what is below it, down to the outermost types. -/
def outer (n : Node α) : List (Node α) := n.walk fun n => n.spec?.isNone

theorem outer_spec (s : TypeSpec α) : (Node.spec s).outer = [.spec s] := by
  rw [outer, walk_eq]
  rfl

theorem outer_eq {n : Node α} (h : n.spec? = none) : n.outer = n :: n.children.flatMap outer := by
  rw [outer, walk_eq, if_pos (by rw [h]; rfl)]
  rfl

theorem self_mem_outer (n : Node α) : n ∈ n.outer := by
  rw [outer, walk_eq]
  exact List.mem_cons_self

/-- The outermost types of a tree, in the order of a walk. -/
def specs (n : Node α) : List (TypeSpec α) := n.outer.filterMap spec?

theorem specs_spec (s : TypeSpec α) : (Node.spec s).specs = [s] := by
  rw [specs, outer_spec]
  rfl

theorem specs_eq {n : Node α} (h : n.spec? = none) : n.specs = n.children.flatMap specs := by
  rw [specs, outer_eq h, List.filterMap_cons_none h, List.filterMap_flatMap]
  rfl

/-- How a revision of types rewrites nodes and everything below them, from the number `k` on up to
the number `k'`: each node gets a new form, or `none` if it is kept. The form of a type is its image.
Any other node is kept if everything right below it is; otherwise it is built anew over that, under
the next number. -/
inductive Rewritten (f : Revision (TypeSpec Meta)) :
    Nat → List (Node Meta) → List (Option (Node Meta)) → Nat → Prop
  | nil (k : Nat) : Rewritten f k [] [] k
  | spec {k k₁ k' : Nat} {s : TypeSpec Meta} {image : Option (TypeSpec Meta)}
    {ns : List (Node Meta)} {news : List (Option (Node Meta))}
    (hImage : (f s).run k = (.ok image, k₁)) (hRest : Rewritten f k₁ ns news k') :
    Rewritten f k (.spec s :: ns) (image.map .spec :: news) k'
  | kept {k k₁ k' : Nat} {n : Node Meta} {kids : List (Option (Node Meta))}
    {ns : List (Node Meta)} {news : List (Option (Node Meta))} (hn : n.spec? = none)
    (hKids : Rewritten f k n.children kids k₁) (hNone : ∀ new ∈ kids, new = none)
    (hRest : Rewritten f k₁ ns news k') : Rewritten f k (n :: ns) (none :: news) k'
  | rebuilt {k k₁ k' : Nat} {n n' : Node Meta} {kids : List (Option (Node Meta))}
    {ns : List (Node Meta)} {news : List (Option (Node Meta))} (hn : n.spec? = none)
    (hKids : Rewritten f k n.children kids k₁) (hSome : ∃ new ∈ kids, new ≠ none)
    (hLabel : n'.label = n.label) (hAnn : n'.ann = { n.ann with id := k₁ })
    (hChildren : n'.children = patch n.children kids)
    (hRest : Rewritten f (k₁ + 1) ns news k') : Rewritten f k (n :: ns) (some n' :: news) k'

namespace Rewritten

variable {f : Revision (TypeSpec Meta)} {k k₁ k' : Nat} {ns xs ys : List (Node Meta)}
  {news news' : List (Option (Node Meta))}

theorem length (h : Rewritten f k ns news k') : news.length = ns.length := by
  induction h with
  | nil => rfl
  | spec _ _ ih | kept _ _ _ _ _ ih | rebuilt _ _ _ _ _ _ _ _ ih =>
    rw [List.length_cons, List.length_cons, ih]

theorem append (hx : Rewritten f k xs news k₁) (hy : Rewritten f k₁ ys news' k') :
    Rewritten f k (xs ++ ys) (news ++ news') k' := by
  induction hx with
  | nil => exact hy
  | spec hImage _ ih => exact .spec hImage (ih hy)
  | kept hn hKids hNone _ _ ih => exact .kept hn hKids hNone (ih hy)
  | rebuilt hn hKids hSome hLabel hAnn hChildren _ _ ih =>
    exact .rebuilt hn hKids hSome hLabel hAnn hChildren (ih hy)

theorem unique {news' : List (Option (Node Meta))} {k'' : Nat} (h : Rewritten f k ns news k')
    (h' : Rewritten f k ns news' k'') : news' = news ∧ k'' = k' := by
  induction h generalizing news' k'' with
  | nil => cases h' with
    | nil => exact ⟨rfl, rfl⟩
  | spec hImage _ ih => cases h' with
    | spec hImage' hRest' =>
      cases hImage.symm.trans hImage'
      obtain ⟨rfl, rfl⟩ := ih hRest'
      exact ⟨rfl, rfl⟩
    | kept hn | rebuilt hn => cases hn
  | kept hn _ hNone _ ihKids ih => cases h' with
    | spec => cases hn
    | kept _ hKids' _ hRest' =>
      obtain ⟨rfl, rfl⟩ := ihKids hKids'
      obtain ⟨rfl, rfl⟩ := ih hRest'
      exact ⟨rfl, rfl⟩
    | rebuilt _ hKids' hSome' =>
      obtain ⟨rfl, rfl⟩ := ihKids hKids'
      obtain ⟨new, hNew, hNe⟩ := hSome'
      exact absurd (hNone new hNew) hNe
  | rebuilt hn _ hSome hLabel hAnn hChildren _ ihKids ih => cases h' with
    | spec => cases hn
    | kept _ hKids' hNone' =>
      obtain ⟨rfl, rfl⟩ := ihKids hKids'
      obtain ⟨new, hNew, hNe⟩ := hSome
      exact absurd (hNone' new hNew) hNe
    | rebuilt _ hKids' _ hLabel' hAnn' hChildren' hRest' =>
      obtain ⟨rfl, rfl⟩ := ihKids hKids'
      obtain ⟨rfl, rfl⟩ := ih hRest'
      rw [eq_of_label (hLabel'.trans hLabel.symm) (hAnn'.trans hAnn.symm)
        (hChildren'.trans hChildren.symm)]
      exact ⟨rfl, rfl⟩

end Rewritten

/-- The nodes `ns` become `ns'` when a revision of types rewrites them, and `changed` says whether any
of them is built anew. -/
def Patched (f : Revision (TypeSpec Meta)) (k : Nat) (ns ns' : List (Node Meta)) (changed : Bool)
    (k' : Nat) : Prop :=
  ∃ news, Rewritten f k ns news k' ∧ ns' = patch ns news ∧
    (changed = true ↔ ∃ new ∈ news, new ≠ none)

namespace Patched

variable {f : Revision (TypeSpec Meta)} {k k₁ k' : Nat} {xs xs' ys ys' : List (Node Meta)}
  {c c' : Bool} {n n' : Node Meta}

theorem nil (f : Revision (TypeSpec Meta)) (k : Nat) : Patched f k [] [] false k :=
  ⟨[], .nil k, rfl, by simp⟩

theorem append (hx : Patched f k xs xs' c k₁) (hy : Patched f k₁ ys ys' c' k') :
    Patched f k (xs ++ ys) (xs' ++ ys') (c || c') k' := by
  obtain ⟨news, hNews, rfl, hc⟩ := hx
  obtain ⟨news', hNews', rfl, hc'⟩ := hy
  refine ⟨news ++ news', hNews.append hNews', (patch_append hNews.length).symm, ?_⟩
  rw [Bool.or_eq_true, hc, hc']
  simp only [List.mem_append, or_and_right, exists_or]

theorem spec {s : TypeSpec Meta} {image : Option (TypeSpec Meta)}
    (h : (f s).run k = (.ok image, k')) :
    Patched f k [.spec s] [.spec (image.getD s)] image.isSome k' := by
  refine ⟨_, .spec h (.nil k'), ?_, ?_⟩ <;> cases image <;> simp [patch]

theorem kept (hn : n.spec? = none) (h : Patched f k n.children xs' false k') :
    Patched f k [n] [n] false k' := by
  obtain ⟨news, hNews, -, hc⟩ := h
  refine ⟨[none], .kept hn hNews (fun new hNew => ?_) (.nil k'), rfl, by simp⟩
  by_contra hNe
  exact absurd (hc.2 ⟨new, hNew, hNe⟩) Bool.false_ne_true

theorem rebuilt (hn : n.spec? = none) (h : Patched f k n.children n'.children c k') (hc : c = true)
    (hLabel : n'.label = n.label) (hAnn : n'.ann = { n.ann with id := k' }) :
    Patched f k [n] [n'] true (k' + 1) := by
  obtain ⟨news, hNews, hChildren, hSome⟩ := h
  exact ⟨[some n'], .rebuilt hn hNews (hSome.1 hc) hLabel hAnn hChildren (.nil _), rfl, by simp⟩

theorem leaves (f : Revision (TypeSpec Meta)) (k : Nat) {ns : List (Node Meta)}
    (h : ∀ n ∈ ns, n.spec? = none ∧ n.children = []) : Patched f k ns ns false k := by
  induction ns with
  | nil => exact nil f k
  | cons n ns ih =>
    rw [List.forall_mem_cons] at h
    exact append (kept h.1.1 (h.1.2 ▸ nil f k)) (ih h.2)

theorem typeParams (f : Revision (TypeSpec Meta)) (k : Nat) (ps : List (TypeParam Meta)) :
    Patched f k (ps.map .typeParam) (ps.map .typeParam) false k := by
  refine leaves f k fun n hn => ?_
  obtain ⟨p, _, rfl⟩ := List.mem_map.1 hn
  exact ⟨rfl, rfl⟩

theorem reference (f : Revision (TypeSpec Meta)) (k : Nat) (ref : Reference Meta) :
    Patched f k [.reference ref] [.reference ref] false k :=
  kept rfl (nil f k)

theorem uses (f : Revision (TypeSpec Meta)) (k : Nat) (us : List (Use Meta)) :
    Patched f k (us.map .use) (us.map .use) false k := by
  refine leaves f k fun n hn => ?_
  obtain ⟨u, _, rfl⟩ := List.mem_map.1 hn
  exact ⟨rfl, rfl⟩

end Patched

/-- From the number `low` on, a revision of the outermost types of nodes numbers on, and its faults
satisfy `F`. -/
def Revisable (f : Revision (TypeSpec Meta)) (F : Fault → Prop) (low : Nat)
    (ns : List (Node Meta)) : Prop :=
  ∀ s ∈ ns.flatMap specs, ∀ k, low ≤ k → (f s).Gives k F fun _ _ => True

section Revisable

variable {f : Revision (TypeSpec Meta)} {F : Fault → Prop} {low : Nat} {xs ys : List (Node Meta)}

theorem revisable_append :
    Revisable f F low (xs ++ ys) ↔ Revisable f F low xs ∧ Revisable f F low ys := by
  simp only [Revisable, List.flatMap_append, List.forall_mem_append]

theorem revisable_cons {n : Node Meta} :
    Revisable f F low (n :: xs) ↔ Revisable f F low [n] ∧ Revisable f F low xs :=
  @revisable_append f F low [n] xs

theorem Revisable.below {n : Node Meta} (h : Revisable f F low [n]) (hn : n.spec? = none) :
    Revisable f F low n.children := by
  rwa [Revisable, List.flatMap_singleton, specs_eq hn] at h

theorem Rewritten.le {k k' : Nat} {ns : List (Node Meta)} {news : List (Option (Node Meta))}
    (h : Rewritten f k ns news k') (hf : Revisable f F low ns) (hk : low ≤ k) : k ≤ k' := by
  induction h with
  | nil k => exact Nat.le_refl k
  | @spec _ _ _ s _ _ _ hImage _ ih =>
    obtain ⟨hs, hRest⟩ := revisable_cons.1 hf
    have hLe := ((hs s (by simp [specs_spec]) _ hk).of_run hImage).1
    exact hLe.trans (ih hRest (hk.trans hLe))
  | kept hn _ _ _ ihKids ih =>
    obtain ⟨hn', hRest⟩ := revisable_cons.1 hf
    have hLe := ihKids (hn'.below hn) hk
    exact hLe.trans (ih hRest (hk.trans hLe))
  | rebuilt hn _ _ _ _ _ _ ihKids ih =>
    obtain ⟨hn', hRest⟩ := revisable_cons.1 hf
    have hLe := (ihKids (hn'.below hn) hk).trans (Nat.le_succ _)
    exact hLe.trans (ih hRest (hk.trans hLe))

theorem Patched.one {k k' : Nat} {n n' : Node Meta} {c : Bool} (h : Patched f k [n] [n'] c k')
    (hn : n.spec? = none) (hf : Revisable f F low [n]) (hk : low ≤ k) :
    n' = n ∨ n'.label = n.label ∧ ∃ k₁, k ≤ k₁ ∧ n'.ann = { n.ann with id := k₁ } := by
  obtain ⟨news, hNews, hPatch, -⟩ := h
  cases hNews with
  | spec => cases hn
  | kept _ _ _ hRest =>
    cases hRest
    exact .inl (List.singleton_inj.1 hPatch)
  | rebuilt _ hKids _ hLabel hAnn _ hRest =>
    cases hRest
    obtain rfl := List.singleton_inj.1 hPatch
    exact .inr ⟨hLabel, _, hKids.le (hf.below hn) hk, hAnn⟩

end Revisable

end Node

/-- A revision of things that stand for nodes, as `e` says, rewrites these nodes as the revision `f`
of types does. -/
def Revision.Patches {α : Type} (f : Revision (TypeSpec Meta)) (F : Fault → Prop) (low : Nat)
    (e : α → List (Node Meta)) (g : Revision α) : Prop :=
  ∀ k x, low ≤ k → Node.Revisable f F low (e x) →
    (g x).Gives k F fun new k' => Node.Patched f k (e x) (e (new.getD x)) new.isSome k'

section Revise

open Node

theorem isSome_or {α β : Type} {a : Option α} {b : Option β} (h : a = none → b = none → False) :
    (a.isSome || b.isSome) = true := by
  cases a <;> cases b <;> simp_all

theorem isSome_or_or {α β γ : Type} {a : Option α} {b : Option β} {c : Option γ}
    (h : a = none → b = none → c = none → False) : (a.isSome || b.isSome || c.isSome) = true := by
  cases a <;> cases b <;> cases c <;> simp_all

variable {f : Revision (TypeSpec Meta)} {F : Fault → Prop} {low : Nat}

/-- What is built anew has the next number, and its children are those that were rewritten. -/
theorem Node.Patched.renewed {α : Type} {e : α → Node Meta} {x : α} {build : Meta → α} {m : Meta}
    {k k₁ : Nat} {kids : List (Node Meta)} {c : Bool} (h : Patched f k (e x).children kids c k₁)
    (hx : (e x).spec? = none) (hc : c = true) (hm : (e x).ann = m)
    (hBuild : ∀ m', (e (build m')).children = kids ∧ (e (build m')).label = (e x).label ∧
      (e (build m')).ann = m') :
    (do return some (build (← m.renew)) : Revising (Option α)).Gives k₁ F fun new k' =>
      Patched f k [e x] [e (new.getD x)] new.isSome k' := by
  refine Revising.Gives.bind (.lift (.renew m)) fun m' k' _ ⟨hm', hk⟩ => .pure ?_
  obtain ⟨hKids, hLabel, hAnn⟩ := hBuild m'
  subst hm hm' hk
  exact .rebuilt hx (hKids.symm ▸ h) hc hLabel hAnn

theorem TypeSpec.patches : f.Patches F low (fun s => [.spec s]) f := by
  intro k s hk h
  have hf := h s (by simp [specs_spec]) k hk
  exact hf.exact.mono fun image k' _ hImage => .spec hImage.1

theorem Revision.Patches.all {α : Type} {e : α → Node Meta} {g : Revision α}
    (hg : f.Patches F low (fun x => [e x]) g) :
    f.Patches F low (fun xs => xs.map e) (Revision.all g) := by
  intro k xs hk h
  induction xs generalizing k with
  | nil => exact .pure (.nil f k)
  | cons x rest ih =>
    obtain ⟨hHead, hRest⟩ := revisable_cons.1 h
    rw [Revision.all]
    refine (hg _ _ hk hHead).bind fun newHead k₁ hLe hHead' => ?_
    refine (ih k₁ (hk.trans hLe) hRest).bind fun newRest k₂ _ hRest' => ?_
    have hAll := hHead'.append hRest'
    split
    · exact .pure hAll
    · rename_i hNone
      rw [isSome_or hNone] at hAll
      exact .pure hAll

theorem Param.revise_patches : f.Patches F low (fun p => [.param p]) (Param.revise f) := by
  intro k p hk h
  rw [Param.revise]
  refine (TypeSpec.patches k p.spec hk (h.below rfl)).bind fun new k₁ _ hSpec => ?_
  cases new with
  | none => exact .pure (.kept rfl hSpec)
  | some spec =>
    exact hSpec.renewed rfl rfl rfl fun _ => ⟨rfl, rfl, rfl⟩

mutual

theorem Value.revise_patches {k : Nat} (hk : low ≤ k) : (v : Value Meta) →
    Revisable f F low [.value v] →
    (Value.revise f v).Gives k F fun new k' =>
      Patched f k [.value v] [.value (new.getD v)] new.isSome k'
  | .string .., _ => by
    rw [Value.revise]
    exact .pure (.kept rfl (.nil f k))
  | .number .., _ => by
    rw [Value.revise]
    exact .pure (.kept rfl (.nil f k))
  | .boolean .., _ => by
    rw [Value.revise]
    exact .pure (.kept rfl (.nil f k))
  | .nothing _, _ => by
    rw [Value.revise]
    exact .pure (.kept rfl (.nil f k))
  | .ident _ ref, _ => by
    rw [Value.revise]
    exact .pure (.kept rfl (.reference f k ref))
  | .bind m mode name s v, h => by
    obtain ⟨hs, hv⟩ := revisable_cons.1 (h.below rfl)
    rw [Value.revise]
    refine (TypeSpec.patches k s hk hs).bind fun newSpec k₁ hLe hSpec => ?_
    refine (Value.revise_patches (hk.trans hLe) v hv).bind fun newValue k₂ _ hValue => ?_
    have hKids := hSpec.append hValue
    split
    · exact .pure (.kept rfl hKids)
    · rename_i hNone
      exact hKids.renewed rfl (by simpa using isSome_or hNone) rfl fun _ => ⟨rfl, rfl, rfl⟩
  | .assign m ref v, h => by
    rw [Value.revise]
    refine (Value.revise_patches hk v (revisable_cons.1 (h.below rfl)).2).bind
      fun new k₁ _ hValue => ?_
    have hKids := (Patched.reference f k ref).append hValue
    cases new with
    | none => exact .pure (.kept rfl hKids)
    | some v' =>
      exact hKids.renewed rfl rfl rfl fun _ => ⟨rfl, rfl, rfl⟩
  | .assignMember m receiver ref v, h => by
    obtain ⟨hReceiver, hRest⟩ := revisable_cons.1 (h.below rfl)
    rw [Value.revise]
    refine (Value.revise_patches hk receiver hReceiver).bind fun newReceiver k₁ hLe hReceiver' => ?_
    refine (Value.revise_patches (hk.trans hLe) v (revisable_cons.1 hRest).2).bind
      fun newValue k₂ _ hValue => ?_
    have hKids := hReceiver'.append ((Patched.reference f k₁ ref).append hValue)
    split
    · exact .pure (.kept rfl hKids)
    · rename_i hNone
      exact hKids.renewed rfl (by simpa using isSome_or hNone) rfl fun _ => ⟨rfl, rfl, rfl⟩
  | .call m ref typeArgs args, h => by
    obtain ⟨hHead, hArgs⟩ := revisable_append.1 (h.below rfl)
    rw [Value.revise]
    refine (TypeSpec.patches.all k typeArgs hk (revisable_cons.1 hHead).2).bind
      fun newTypeArgs k₁ hLe hTypes => ?_
    refine (Value.reviseAll_patches (hk.trans hLe) args hArgs).bind fun newArgs k₂ _ hValues => ?_
    have hKids := ((Patched.reference f k ref).append hTypes).append hValues
    split
    · exact .pure (.kept rfl hKids)
    · rename_i hNone
      exact hKids.renewed rfl (by simpa using isSome_or hNone) rfl fun _ => ⟨rfl, rfl, rfl⟩
  | .nested m outer inner, h => by
    obtain ⟨hOuter, hInner⟩ := revisable_cons.1 (h.below rfl)
    rw [Value.revise]
    refine (Value.revise_patches hk outer hOuter).bind fun newOuter k₁ hLe hOuter' => ?_
    refine (Value.revise_patches (hk.trans hLe) inner hInner).bind fun newInner k₂ _ hInner' => ?_
    have hKids := hOuter'.append hInner'
    split
    · exact .pure (.kept rfl hKids)
    · rename_i hNone
      exact hKids.renewed rfl (by simpa using isSome_or hNone) rfl fun _ => ⟨rfl, rfl, rfl⟩
  | .function m typeParams params result body, h => by
    obtain ⟨hHead, hBody⟩ := revisable_append.1 (h.below rfl)
    obtain ⟨hHead, hResult⟩ := revisable_append.1 hHead
    rw [Value.revise]
    refine (Param.revise_patches.all k params hk (revisable_append.1 hHead).2).bind
      fun newParams k₁ hLe₁ hParams' => ?_
    refine (TypeSpec.patches k₁ result (hk.trans hLe₁) hResult).bind
      fun newResult k₂ hLe₂ hResult' => ?_
    refine (Statement.reviseAll_patches (hk.trans (hLe₁.trans hLe₂)) body hBody).bind
      fun newBody k₃ _ hBody' => ?_
    have hKids := (((Patched.typeParams f k typeParams).append hParams').append hResult').append
      hBody'
    split
    · exact .pure (.kept rfl hKids)
    · rename_i hNone
      exact hKids.renewed rfl (by simpa using isSome_or_or hNone) rfl fun _ => ⟨rfl, rfl, rfl⟩

theorem Value.reviseAll_patches {k : Nat} (hk : low ≤ k) : (vs : List (Value Meta)) →
    Revisable f F low (vs.map .value) →
    (Value.reviseAll f vs).Gives k F fun new k' =>
      Patched f k (vs.map .value) ((new.getD vs).map .value) new.isSome k'
  | [], _ => by
    rw [Value.reviseAll]
    exact .pure (.nil f k)
  | v :: rest, h => by
    obtain ⟨hHead, hRest⟩ := revisable_cons.1 h
    rw [Value.reviseAll]
    refine (Value.revise_patches hk v hHead).bind fun newHead k₁ hLe hHead' => ?_
    refine (Value.reviseAll_patches (hk.trans hLe) rest hRest).bind fun newRest k₂ _ hRest' => ?_
    have hAll := hHead'.append hRest'
    split
    · exact .pure hAll
    · rename_i hNone
      rw [isSome_or hNone] at hAll
      exact .pure hAll

theorem Statement.revise_patches {k : Nat} (hk : low ≤ k) : (s : Statement Meta) →
    Revisable f F low [.statement s] →
    (Statement.revise f s).Gives k F fun new k' =>
      Patched f k [.statement s] [.statement (new.getD s)] new.isSome k'
  | ⟨m, v, last⟩, h => by
    rw [Statement.revise]
    refine (Value.revise_patches hk v (h.below rfl)).bind fun new k₁ _ hValue => ?_
    cases new with
    | none => exact .pure (.kept rfl hValue)
    | some v' =>
      exact hValue.renewed rfl rfl rfl fun _ => ⟨rfl, rfl, rfl⟩

theorem Statement.reviseAll_patches {k : Nat} (hk : low ≤ k) : (ss : List (Statement Meta)) →
    Revisable f F low (ss.map .statement) →
    (Statement.reviseAll f ss).Gives k F fun new k' =>
      Patched f k (ss.map .statement) ((new.getD ss).map .statement) new.isSome k'
  | [], _ => by
    rw [Statement.reviseAll]
    exact .pure (.nil f k)
  | s :: rest, h => by
    obtain ⟨hHead, hRest⟩ := revisable_cons.1 h
    rw [Statement.reviseAll]
    refine (Statement.revise_patches hk s hHead).bind fun newHead k₁ hLe hHead' => ?_
    refine (Statement.reviseAll_patches (hk.trans hLe) rest hRest).bind
      fun newRest k₂ _ hRest' => ?_
    have hAll := hHead'.append hRest'
    split
    · exact .pure hAll
    · rename_i hNone
      rw [isSome_or hNone] at hAll
      exact .pure hAll

end

theorem Signature.revise_patches :
    f.Patches F low (fun s => [.signature s]) (Signature.revise f) := by
  intro k s hk h
  obtain ⟨hHead, hResult⟩ := revisable_append.1 (h.below rfl)
  rw [Signature.revise]
  refine (Param.revise_patches.all k s.params hk (revisable_append.1 hHead).2).bind
    fun newParams k₁ hLe hParams => ?_
  refine (TypeSpec.patches k₁ s.result (hk.trans hLe) hResult).bind fun newResult k₂ _ hResult' => ?_
  have hKids := ((Patched.typeParams f k s.typeParams).append hParams).append hResult'
  split
  · exact .pure (.kept rfl hKids)
  · rename_i hNone
    exact hKids.renewed rfl (by simpa using isSome_or hNone) rfl fun _ => ⟨rfl, rfl, rfl⟩

theorem Method.revise_patches : f.Patches F low (fun m => [.method m]) (Method.revise f) := by
  intro k m hk h
  obtain ⟨hSignature, hBody⟩ := revisable_cons.1 (h.below rfl)
  rw [Method.revise]
  refine (Signature.revise_patches k m.signature hk hSignature).bind
    fun newSignature k₁ hLe hSignature' => ?_
  refine (Statement.reviseAll_patches (hk.trans hLe) m.body hBody).bind fun newBody k₂ _ hBody' => ?_
  have hKids := hSignature'.append hBody'
  split
  · exact .pure (.kept rfl hKids)
  · rename_i hNone
    exact hKids.renewed rfl (by simpa using isSome_or hNone) rfl fun _ => ⟨rfl, rfl, rfl⟩

theorem Value.reviseOption_patches :
    f.Patches F low (fun v => v.toList.map .value) (Value.reviseOption f) := by
  intro k v hk h
  cases v with
  | none => exact .pure (.nil f k)
  | some v =>
    rw [Value.reviseOption]
    refine (Value.revise_patches hk v h).bind fun new k₁ _ hValue => .pure ?_
    cases new <;> exact hValue

theorem Attribute.revise_patches :
    f.Patches F low (fun a => [.attribute a]) (Attribute.revise f) := by
  intro k a hk h
  obtain ⟨hSpec, hValue⟩ := revisable_cons.1 (h.below rfl)
  rw [Attribute.revise]
  refine (TypeSpec.patches k a.spec hk hSpec).bind fun newSpec k₁ hLe hSpec' => ?_
  refine (Value.reviseOption_patches k₁ a.value (hk.trans hLe) hValue).bind
    fun newValue k₂ _ hValue' => ?_
  have hKids := hSpec'.append hValue'
  split
  · exact .pure (.kept rfl hKids)
  · rename_i hNone
    exact hKids.renewed rfl (by simpa using isSome_or hNone) rfl fun _ => ⟨rfl, rfl, rfl⟩

theorem TopLevel.revise_patches : f.Patches F low (fun t => [.top t]) (TopLevel.revise f) := by
  intro k t hk h
  cases t with
  | ofType d =>
    obtain ⟨hHead, hMethods⟩ := revisable_append.1 (h.below rfl)
    rw [TopLevel.revise]
    refine (TypeSpec.patches k d.super hk (revisable_append.1 hHead).2).bind
      fun newSuper k₁ hLe hSuper => ?_
    refine (Signature.revise_patches.all k₁ d.methods (hk.trans hLe) hMethods).bind
      fun newMethods k₂ _ hMethods' => ?_
    have hKids := ((Patched.typeParams f k d.typeParams).append hSuper).append hMethods'
    split
    · exact .pure (.kept rfl hKids)
    · rename_i hNone
      exact hKids.renewed rfl (by simpa using isSome_or hNone) rfl fun _ => ⟨rfl, rfl, rfl⟩
  | ofClass d =>
    obtain ⟨hHead, hMethods⟩ := revisable_append.1 (h.below rfl)
    obtain ⟨hHead, hAttributes⟩ := revisable_append.1 hHead
    rw [TopLevel.revise]
    refine (TypeSpec.patches k d.super hk (revisable_append.1 hHead).2).bind
      fun newSuper k₁ hLe₁ hSuper => ?_
    refine (Attribute.revise_patches.all k₁ d.attributes (hk.trans hLe₁) hAttributes).bind
      fun newAttributes k₂ hLe₂ hAttributes' => ?_
    refine (Method.revise_patches.all k₂ d.methods (hk.trans (hLe₁.trans hLe₂)) hMethods).bind
      fun newMethods k₃ _ hMethods' => ?_
    have hKids := (((Patched.typeParams f k d.typeParams).append hSuper).append
      hAttributes').append hMethods'
    split
    · exact .pure (.kept rfl hKids)
    · rename_i hNone
      exact hKids.renewed rfl (by simpa using isSome_or_or hNone) rfl fun _ => ⟨rfl, rfl, rfl⟩

theorem Root.revise_patches : f.Patches F low (fun r => [.root r]) (Root.revise f) := by
  intro k r hk h
  rw [Root.revise]
  refine (TopLevel.revise_patches k r.top hk (revisable_append.1 (h.below rfl)).2).bind
    fun new k₁ _ hTop => ?_
  have hKids := (Patched.uses f k r.uses).append hTop
  cases new with
  | none => exact .pure (.kept rfl hKids)
  | some top =>
    exact hKids.renewed rfl rfl rfl fun _ => ⟨rfl, rfl, rfl⟩

end Revise

end Assay
