import Mathlib
import Assay.Proofs.Alternatives
import Assay.Proofs.Course
import Assay.Proofs.Reported

/-! The end of inference. The types that were found are brought into flat form, and the alternative
that there is no value is taken from those of some attributes. No other alternative is lost, and no
node gets a type or loses one. -/

namespace Assay

open Check (Leads)

/-- From a store to another one, nothing changes but the types of nodes, as `R` says of each number. -/
structure Store.Retypes (R : Nat → Spec → Spec → Prop) (st st' : Store) : Prop where
  table : st'.table = st.table
  tops : st'.tops = st.tops
  links : st'.links = st.links
  refs : st'.refs = st.refs
  next : st.next ≤ st'.next
  types : ∀ i, Option.Rel (R i) (st.typeOf? i) (st'.typeOf? i)

namespace Store.Retypes

variable {R R' R'' : Nat → Spec → Spec → Prop} {st st' st'' : Store}

theorem grow (hRefl : ∀ i t, R i t t) (st : Store) {next : Nat} (h : st.next ≤ next) :
    st.Retypes R { st with next } := by
  refine ⟨rfl, rfl, rfl, rfl, h, fun i => ?_⟩
  change Option.Rel (R i) (st.typeOf? i) (st.typeOf? i)
  cases st.typeOf? i with
  | none => exact .none
  | some t => exact .some (hRefl i t)

theorem trans (h : st.Retypes R st') (h' : st'.Retypes R' st'')
    (hTrans : ∀ i {t t' t''}, R i t t' → R' i t' t'' → R'' i t t'') : st.Retypes R'' st'' := by
  refine ⟨h'.table.trans h.table, h'.tops.trans h.tops, h'.links.trans h.links, h'.refs.trans h.refs,
    h.next.trans h'.next, fun i => ?_⟩
  have hFirst := h.types i
  have hNext := h'.types i
  generalize st.typeOf? i = t, st'.typeOf? i = t', st''.typeOf? i = t'' at hFirst hNext
  cases hFirst with
  | none =>
    cases hNext with
    | none => exact .none
  | some hR =>
    cases hNext with
    | some hR' => exact .some (hTrans i hR hR')

theorem exists_old (h : st.Retypes R st') {i : Nat} {t' : Spec} (hType : st'.typeOf? i = some t') :
    ∃ t, st.typeOf? i = some t ∧ R i t t' := by
  have hi := h.types i
  rw [hType] at hi
  cases hOld : st.typeOf? i with
  | none =>
    rw [hOld] at hi
    exact nomatch hi
  | some t =>
    rw [hOld] at hi
    cases hi with
    | some hR => exact ⟨t, rfl, hR⟩

theorem exists_new (h : st.Retypes R st') {i : Nat} {t : Spec} (hType : st.typeOf? i = some t) :
    ∃ t', st'.typeOf? i = some t' ∧ R i t t' := by
  have hi := h.types i
  rw [hType] at hi
  cases hNew : st'.typeOf? i with
  | none =>
    rw [hNew] at hi
    exact nomatch hi
  | some t' =>
    rw [hNew] at hi
    cases hi with
    | some hR => exact ⟨t', rfl, hR⟩

theorem isSome (h : st.Retypes R st') (i : Nat) :
    (st'.typeOf? i).isSome = (st.typeOf? i).isSome := by
  have hi := h.types i
  generalize st.typeOf? i = t, st'.typeOf? i = t' at hi
  cases hi <;> rfl

end Store.Retypes

namespace TypeSpec

/-- A type has the same alternatives as another one, and is in flat form. -/
def Flattens (t t' : Spec) : Prop := t'.alternatives = t.alternatives ∧ t'.IsFlat

theorem flatten?_flattens (t : Spec) (k : Nat) :
    t.flatten?.Gives k fun new _ => t.Flattens (new.getD t) :=
  ⟨(flatten?_flat t).1, t.alternatives_flatten k, (flatten?_flat t).2.1⟩

theorem alternatives_of_mem {m : Meta} {types : List Spec} {s : Spec}
    (h : IsFlat (.inter m types)) (hs : s ∈ types) : s.alternatives = [s.toText] := by
  obtain ⟨hSpliced, hFlat⟩ := (isFlat_inter m types).1 h
  rw [(hFlat s hs).alternatives_eq, hSpliced.other s hs]
  rfl

end TypeSpec

/-- No alternative is lost but the one that there is no value, and this one is lost if it is to be dropped
and there is another. A type in flat form stays so. -/
def TypeSpec.Leaves (drops : Prop) (t t' : Spec) : Prop :=
  t.IsFlat → t'.IsFlat ∧ ∀ text, text ∈ t'.alternatives ↔ text ∈ t.alternatives ∧
    ¬(drops ∧ text = librarySpace ++ ".None" ∧
      ∃ other ∈ t.alternatives, other ≠ librarySpace ++ ".None")

namespace TypeSpec.Leaves

variable {p q : Prop} {t t' t'' : Spec}

theorem refl (h : ¬p) (t : Spec) : Leaves p t t := fun ht => ⟨ht, fun text => by simp [h]⟩

theorem trans (h : Leaves p t t') (h' : Leaves q t' t'') : Leaves (p ∨ q) t t'' := by
  intro ht
  obtain ⟨ht', hText⟩ := h ht
  obtain ⟨ht'', hText'⟩ := h' ht'
  refine ⟨ht'', fun text => ?_⟩
  have hOther : (∃ other ∈ t'.alternatives, other ≠ librarySpace ++ ".None") ↔
      ∃ other ∈ t.alternatives, other ≠ librarySpace ++ ".None" := by
    refine exists_congr fun other => and_congr_left fun hNe => ?_
    rw [hText other]
    exact and_iff_left fun hDrops => hNe hDrops.2.1
  rw [hText', hText, hOther, and_assoc, ← not_or, ← or_and_right]

theorem congr (h : Leaves p t t') (hp : p ↔ q) : Leaves q t t' := propext hp ▸ h

end TypeSpec.Leaves

theorem ClassDecl.withoutNone?_leaves (t : Spec) (k : Nat) :
    (withoutNone? t).Gives k fun new _ => t.Leaves True (new.getD t) := by
  -- A type is left as it is if all of its alternatives are the same in this respect.
  have hSame (t : Spec) (h : t.IsFlat → (∀ text ∈ t.alternatives, text = librarySpace ++ ".None") ∨
      ∀ text ∈ t.alternatives, text ≠ librarySpace ++ ".None") : t.Leaves True t := by
    refine fun hFlat => ⟨hFlat, fun text => (and_iff_left_of_imp fun hText => ?_).symm⟩
    rintro ⟨-, rfl, other, hOther, hNe⟩
    exact (h hFlat).elim (fun hAll => hNe (hAll other hOther)) fun hAll => hAll _ hText rfl
  have hOne (t : Spec) (h : t.IsFlat → t.alternatives = [t.toText]) : t.Leaves True t := by
    refine hSame t fun hFlat => ?_
    rw [h hFlat]
    simpa using eq_or_ne _ _
  cases t with
  | inter m types =>
    have hText (hFlat : (TypeSpec.inter m types).IsFlat) {s : Spec} (hs : s ∈ types) {text : Text} :
        text ∈ s.alternatives ↔ text = s.toText := by
      rw [TypeSpec.alternatives_of_mem hFlat hs, List.mem_singleton]
    unfold withoutNone?
    simp only
    split
    · rename_i hSkip
      refine .pure (hSame _ fun hFlat => ?_)
      simp only [Bool.or_eq_true, List.isEmpty_iff, List.filter_eq_nil_iff, decide_eq_true_eq,
        List.length_filter_eq_length_iff, not_not] at hSkip
      refine hSkip.imp (fun hAll text hMem => ?_) fun hAll text hMem => ?_ <;>
        (obtain ⟨s, hs, hIn⟩ := TypeSpec.mem_alternatives_inter.1 hMem
         rw [(hText hFlat hs).1 hIn]
         exact hAll s hs)
    · rename_i hSkip
      refine (Fresh.Gives.renew m).bind fun m' k₁ _ _ => ?_
      have hFlatten (s : Spec) : s.flatten.Gives k₁ fun s' _ =>
          s'.IsFlat ∧ s'.alternatives = s.alternatives :=
        ⟨(Infer.flatten_gives s k₁).1, s.flatten_flat k₁, s.alternatives_flatten k₁⟩
      refine (hFlatten _).bind fun s' k₂ _ ⟨hFlat', hKept⟩ => .pure fun hFlat => ⟨hFlat', fun text => ?_⟩
      rw [Bool.or_eq_true, List.isEmpty_iff, not_or] at hSkip
      obtain ⟨other, hOther⟩ := List.exists_mem_of_ne_nil _ hSkip.1
      obtain ⟨hOther, hNe⟩ := List.mem_filter.1 hOther
      have hSome : ∃ text ∈ (TypeSpec.inter m types).alternatives, text ≠ librarySpace ++ ".None" :=
        ⟨_, TypeSpec.mem_alternatives_inter.2 ⟨other, hOther, (hText hFlat hOther).2 rfl⟩, by simpa using hNe⟩
      rw [Option.getD_some, hKept, TypeSpec.mem_alternatives_inter, TypeSpec.mem_alternatives_inter]
      constructor
      · rintro ⟨s, hs, hIn⟩
        obtain ⟨hs, hNone⟩ := List.mem_filter.1 hs
        refine ⟨⟨s, hs, hIn⟩, fun hDrops => ?_⟩
        rw [(hText hFlat hs).1 hIn] at hDrops
        simp [hDrops.2.1] at hNone
      · rintro ⟨⟨s, hs, hIn⟩, hNot⟩
        refine ⟨s, List.mem_filter.2 ⟨hs, ?_⟩, hIn⟩
        rw [← (hText hFlat hs).1 hIn]
        exact decide_eq_true fun hNone => hNot ⟨trivial, hNone, hSome⟩
  | _ => exact .pure (hOne _ fun hFlat => hFlat.alternatives_eq)

/-- The change of the type of a node leaves all other types as they are. -/
theorem Check.retype_retypes {change : Spec → Fresh (Option Spec)} {C : Spec → Spec → Prop}
    (hChange : ∀ t k, (change t).Gives k fun new _ => C t (new.getD t)) (id : Nat) (w : World) :
    Leads (Check.retype change id) w (fun _ _ => False) fun _ w' => w' = { w with store := w'.store } ∧
      w.store.Retypes (fun i t t' => if i = id then C t t' else t' = t) w'.store := by
  have hTypes {st : Store} (hOwn : Option.Rel C (w.store.typeOf? id) (st.typeOf? id))
      (hOther : ∀ i ≠ id, st.typeOf? i = w.store.typeOf? i) (i : Nat) :
      Option.Rel (fun t t' => if i = id then C t t' else t' = t) (w.store.typeOf? i)
        (st.typeOf? i) := by
    by_cases hi : i = id
    · simpa only [hi, if_true] using hOwn
    · rw [hOther i hi]
      cases w.store.typeOf? i with
      | none => exact .none
      | some t => exact .some (by rw [if_neg hi])
  refine .bind (P := fun st w' => st = w.store ∧ w' = w) (.store ⟨rfl, rfl⟩) ?_
  rintro st w ⟨rfl, rfl⟩
  cases hType : w.store.typeOf? id with
  | none =>
    exact .pure ⟨rfl, rfl, rfl, rfl, rfl, Nat.le_refl _, hTypes (by simp [hType]) fun _ _ => rfl⟩
  | some t =>
    obtain ⟨hLe, hC⟩ := hChange t w.store.next
    refine .bind (P := fun new w' => new = (change t w.store.next).1 ∧
      w' = { w with store := { w.store with next := (change t w.store.next).2 } }) (.fresh ⟨rfl, rfl⟩) ?_
    rintro new w' ⟨hNew, rfl⟩
    rw [← hNew] at hC
    cases new with
    | none =>
      have hOwn : Option.Rel C (w.store.typeOf? id) (w.store.typeOf? id) := by
        rw [hType]
        exact .some hC
      exact .pure ⟨rfl, rfl, rfl, rfl, rfl, hLe, @hTypes { w.store with next := _ } hOwn fun _ _ => rfl⟩
    | some t' =>
      refine .modifyStore ⟨rfl, rfl, rfl, rfl, rfl, hLe, hTypes ?_ fun i hi => ?_⟩
      · rw [hType, Store.typeOf?_setType_self]
        exact .some hC
      · exact Store.typeOf?_setType_of_ne _ _ hi

theorem Check.flattenTypes_retypes (ns : List (Node Meta)) (w : World) :
    Leads (Check.flattenTypes ns) w (fun _ _ => False) fun _ w' => w' = { w with store := w'.store } ∧
      w.store.Retypes (fun i t t' => t'.alternatives = t.alternatives ∧
        (i ∈ ns.map (·.ann.id) ∨ t.IsFlat → t'.IsFlat)) w'.store := by
  induction ns generalizing w with
  | nil => exact .pure ⟨rfl, .grow (fun _ _ => ⟨rfl, by simp⟩) _ (Nat.le_refl _)⟩
  | cons n rest ih =>
    rw [Check.flattenTypes]
    refine (Check.retype_retypes TypeSpec.flatten?_flattens n.ann.id w).bind fun _ w₁ ⟨hSame₁, h₁⟩ => ?_
    refine (ih w₁).mono (fun _ _ => id) fun _ w₂ ⟨hSame₂, h₂⟩ =>
      ⟨by rw [hSame₂, hSame₁], h₁.trans h₂ fun i t t' t'' hFirst ⟨hKept, hFlat⟩ => ?_⟩
    by_cases hi : i = n.ann.id
    · rw [if_pos hi] at hFirst
      exact ⟨hKept.trans hFirst.1, fun _ => hFlat (.inr hFirst.2)⟩
    · rw [if_neg hi] at hFirst
      subst hFirst
      exact ⟨hKept, fun h => hFlat (by simpa [hi] using h)⟩

theorem ClassDecl.isAlwaysAssigned_congr {st st' : Store} (hRefs : st'.refs = st.refs)
    (hTops : st'.tops = st.tops) (d : ClassDecl Meta) (a : Attribute Meta) :
    isAlwaysAssigned st' d a = isAlwaysAssigned st d a := by
  have hDecl (symbol : Symbol) : st'.decl? symbol = st.decl? symbol := by
    cases symbol with
    | type name origin => cases origin <;> simp only [Store.decl?, Store.top?, hTops]
    | _ => rfl
  have hAssigns : assigns st' a.ann.id = assigns st a.ann.id := by
    funext s
    simp only [assigns, Store.refsOf?, hRefs, hDecl]
  rw [isAlwaysAssigned, hAssigns, isAlwaysAssigned]

/-- The alternative that there is no value is dropped from the types of just those attributes that each
constructor assigns to. -/
theorem ClassDecl.removeNone_leaves (d : ClassDecl Meta) (attributes : List (Attribute Meta))
    (w : World) :
    Leads (d.removeNone attributes) w (fun _ _ => False) fun _ w' => w' = { w with store := w'.store } ∧
      w.store.Retypes (fun i => TypeSpec.Leaves
        (∃ a ∈ attributes, a.ann.id = i ∧ isAlwaysAssigned w.store d a)) w'.store := by
  induction attributes generalizing w with
  | nil => exact .pure ⟨rfl, .grow (fun _ => .refl (by simp)) _ (Nat.le_refl _)⟩
  | cons a rest ih =>
    have hRest (w₁ : World) (hSame : w₁ = { w with store := w₁.store })
        (h : w.store.Retypes (fun i => TypeSpec.Leaves (a.ann.id = i ∧ isAlwaysAssigned w.store d a))
          w₁.store) :
        Leads (d.removeNone rest) w₁ (fun _ _ => False) fun _ w' =>
          w' = { w with store := w'.store } ∧ w.store.Retypes (fun i => TypeSpec.Leaves
            (∃ a' ∈ a :: rest, a'.ann.id = i ∧ isAlwaysAssigned w.store d a')) w'.store := by
      refine (ih w₁).mono (fun _ _ => id) fun _ w₂ ⟨hSame', h'⟩ =>
        ⟨by rw [hSame', hSame], h.trans h' fun i _ _ _ hL hL' => (hL.trans hL').congr ?_⟩
      simp only [List.exists_mem_cons_iff, isAlwaysAssigned_congr h.refs h.tops]
    rw [removeNone]
    refine .bind (P := fun st w' => st = w.store ∧ w' = w) (.store ⟨rfl, rfl⟩) ?_
    rintro st w ⟨rfl, rfl⟩
    split
    · rename_i hAssigned
      refine (Check.retype_retypes withoutNone?_leaves a.ann.id w).bind fun _ w₁ ⟨hSame, h⟩ =>
        hRest w₁ hSame ?_
      refine h.trans (.grow (R := fun _ t t' => t' = t) (fun _ _ => rfl) _ (Nat.le_refl _)) ?_
      rintro i t t' _ hFirst rfl
      by_cases hi : i = a.ann.id
      · rw [if_pos hi] at hFirst
        exact hFirst.congr (by simp [hi, hAssigned])
      · rw [if_neg hi] at hFirst
        subst hFirst
        exact .refl (fun hDrops => hi hDrops.1.symm) _
    · rename_i hNot
      exact hRest w rfl (.grow (fun i => .refl (by simp [hNot])) _ (Nat.le_refl _))

/-- From the course of inference in a source to its end, nothing changes but the types of nodes, and
those of the nodes of the source become flat. No alternative is lost but the one that there is no value,
from the types of those attributes that each constructor assigns to. -/
def Root.Settles (r : Root Meta) (st st' : Store) : Prop :=
  st.Retypes (fun i t t' => i ∈ (Node.root r).ids → t'.IsFlat ∧
    ∀ text, text ∈ t'.alternatives ↔ text ∈ t.alternatives ∧
      ¬((∃ d, r.top = .ofClass d ∧ ∃ a ∈ d.attributes, a.ann.id = i ∧ d.isAlwaysAssigned st a) ∧
        text = librarySpace ++ ".None" ∧
        ∃ other ∈ t.alternatives, other ≠ librarySpace ++ ".None")) st'

theorem Root.infer_follows (r : Root Meta) (w : World) :
    Leads r.infer w (fun _ _ => True) fun errors w' => w' = { w with store := w'.store } ∧
      ∃ p, Infer.RunsEach r.units (Infer.Stage.begin ⟨.start, w.store⟩ r) p ∧
        errors = p.progress.errors ∧ r.Settles p.store w'.store := by
  refine .traced ((Infer.top_follows r .start w).bind fun x w₁ ⟨hSame₁, hRuns⟩ => ?_)
  refine ((Check.flattenTypes_retypes _ w₁).mono (fun _ _ => False.elim) fun _ _ h => h).bind
    fun _ w₂ ⟨hSame₂, hFlattens⟩ => ?_
  -- What is dropped is told by the store as it is after the types are flattened, which is the same.
  have hTrimmed (w₃ : World) (hSame₃ : w₃ = { w₂ with store := w₃.store }) (hTrims : w₂.store.Retypes
      (fun i => TypeSpec.Leaves (∃ d, r.top = .ofClass d ∧
        ∃ a ∈ d.attributes, a.ann.id = i ∧ d.isAlwaysAssigned w₂.store a)) w₃.store) :
      w₃ = { w with store := w₃.store } ∧
        ∃ p, Infer.RunsEach r.units (Infer.Stage.begin ⟨.start, w.store⟩ r) p ∧
          x.2.errors = p.progress.errors ∧ r.Settles p.store w₃.store := by
    refine ⟨by rw [hSame₃, hSame₂, hSame₁], ⟨x.2, w₁.store⟩, hRuns, rfl, ?_⟩
    refine hFlattens.trans hTrims fun i t t' t'' hFirst hLeaves hi => ?_
    obtain ⟨hFlat, hText⟩ := hLeaves (hFirst.2 (.inl hi))
    simp only [ClassDecl.isAlwaysAssigned_congr hFlattens.refs hFlattens.tops] at hText
    exact ⟨hFlat, fun text => by rw [hText, hFirst.1]⟩
  split
  · rename_i d hTop
    refine ((d.removeNone_leaves d.attributes w₂).mono (fun _ _ => False.elim) fun _ _ h => h).bind
      fun _ w₃ ⟨hSame₃, hTrims⟩ => .pure (hTrimmed w₃ hSame₃ ?_)
    simpa [hTop] using hTrims
  · rename_i hTop
    exact .pure (hTrimmed w₂ rfl (.grow (fun _ => .refl (by simp [hTop])) _ (Nat.le_refl _)))

/-- After the end of inference, the types of attributes have all alternatives that they had before, but
that there is no value. This one is lost just in case there is another one, there is a constructor, and
each constructor assigns to the attribute, whatever it assigns. -/
theorem ClassDecl.none_dropped_iff (d : ClassDecl Meta) (w : World) :
    (Leads (d.removeNone d.attributes) w (fun _ _ => False) fun _ w' =>
      ∀ a ∈ d.attributes, ∀ t, w.store.typeOf? a.ann.id = some t → t.IsFlat →
        ∃ t', w'.store.typeOf? a.ann.id = some t' ∧ t'.IsFlat ∧
          ∀ text, text ∈ t'.alternatives ↔ text ∈ t.alternatives ∧
            ¬(text = librarySpace ++ ".None" ∧
              (∃ other ∈ t.alternatives, other ≠ librarySpace ++ ".None") ∧
              d.constructors ≠ [] ∧
              ∀ m ∈ d.constructors, ∃ s ∈ m.body, assigns w.store a.ann.id s)) ∧
    ∀ r : Root Meta, r.top = .ofClass d → Leads r.infer w (fun _ _ => True) fun _ w' =>
      ∃ p, Infer.RunsEach r.units (Infer.Stage.begin ⟨.start, w.store⟩ r) p ∧
        ∀ a ∈ d.attributes, ∀ t, p.store.typeOf? a.ann.id = some t →
          ∃ t', w'.store.typeOf? a.ann.id = some t' ∧ t'.IsFlat ∧
            ∀ text, text ∈ t'.alternatives ↔ text ∈ t.alternatives ∧
              ¬(text = librarySpace ++ ".None" ∧
                (∃ other ∈ t.alternatives, other ≠ librarySpace ++ ".None") ∧
                d.constructors ≠ [] ∧
                ∀ m ∈ d.constructors, ∃ s ∈ m.body, assigns p.store a.ann.id s) := by
  have hAssigned (st : Store) {a : Attribute Meta} (ha : a ∈ d.attributes) :
      (∃ a' ∈ d.attributes, a'.ann.id = a.ann.id ∧ isAlwaysAssigned st d a') ↔
        d.constructors ≠ [] ∧ ∀ m ∈ d.constructors, ∃ s ∈ m.body, assigns st a.ann.id s := by
    rw [show (d.constructors ≠ [] ∧ ∀ m ∈ d.constructors, ∃ s ∈ m.body, assigns st a.ann.id s) ↔
      isAlwaysAssigned st d a by simp [isAlwaysAssigned]]
    refine ⟨fun ⟨a', _, hId, hAlways⟩ => ?_, fun hAlways => ⟨a, ha, rfl, hAlways⟩⟩
    rwa [isAlwaysAssigned, hId] at hAlways
  refine ⟨(d.removeNone_leaves d.attributes w).mono (fun _ _ => id) ?_, fun r hTop =>
    (r.infer_follows w).mono (fun _ _ => id) ?_⟩
  · rintro _ w' ⟨-, hLeaves⟩ a ha t ht hFlat
    obtain ⟨t', ht', hLeft⟩ := hLeaves.exists_new ht
    obtain ⟨hFlat', hText⟩ := hLeft hFlat
    refine ⟨t', ht', hFlat', fun text => ?_⟩
    rw [hText, hAssigned w.store ha]
    exact and_congr_right fun _ => not_congr (and_comm.trans and_assoc)
  · rintro errors w' ⟨-, p, hRuns, -, hSettles⟩
    refine ⟨p, hRuns, fun a ha t ht => ?_⟩
    obtain ⟨t', ht', hLeft⟩ := hSettles.exists_new ht
    have hClass : .top (.ofClass d) ∈ (Node.root r).nodes :=
      Node.mem_nodes_of_child (Node.self_mem_nodes _) (by simp [Node.children, hTop])
    have hNode : .attribute a ∈ (Node.root r).nodes :=
      Node.mem_nodes_of_child hClass (by simp [Node.children, ha])
    obtain ⟨hFlat', hText⟩ := hLeft (List.mem_map_of_mem hNode)
    refine ⟨t', ht', hFlat', fun text => ?_⟩
    simp only [hTop, TopLevel.ofClass.injEq, exists_eq_left', hAssigned p.store ha] at hText
    rw [hText]
    exact and_congr_right fun _ => not_congr (and_comm.trans and_assoc)

/-- The texts of the types of the attributes that are declared in a store. -/
def Store.attributeTypes (st : Store) : List (Option Text) :=
  (st.tops.flatMap fun d => (Node.top d.top).nodes).filterMap fun
    | .attribute a => some ((st.typeOf? a.ann.id).map (·.toText))
    | _ => none

/-- A constructor assigns that there is no value, and the type of the attribute does not tell. -/
theorem ClassDecl.none_assigned_but_dropped :
    let unit := SourceUnit.ofSource "p.C" "p" "C.th" "class C { var a = 1 C() { a = none } }"
    let result := Check.ending Compilation.compileAll { State.start .default with units := [unit] }
    result.1.toOption.map List.length = some 0 ∧
      result.2.store.attributeTypes = [some ("org.thoriumlang.Number" : Text)] := by
  decide +kernel

end Assay
