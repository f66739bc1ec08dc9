import Mathlib
import Assay.Proofs.Legible
import Assay.Proofs.Members

/-! The canonical names of shapes. A union or an intersection keeps its components in the order of their
names, so its name does not depend on the order in which they were given; and the name can be read in one
way only, so it tells shapes apart but for that order. -/

namespace Assay

namespace Shape

/-- The mark between the components of a union or an intersection, and the components. -/
def parts? : Shape → Option (Text × List Shape)
  | .union types => some (" | ", types)
  | .inter types => some (" & ", types)
  | _ => none

/-- A shape all of whose unions and intersections are made by the operations on shapes. -/
inductive Made : Shape → Prop where
  | ofClass {name : Text} {super : Shape} {own : List Member} (h : Made super) :
    Made (.ofClass name super own)
  | ofType {name : Text} {own : List Member} : Made (.ofType name own)
  | union {types : List Shape} (h : ∀ t ∈ types, Made t) : Made (unionOf types)
  | inter {types : List Shape} (h : ∀ t ∈ types, Made t) : Made (interOf types)
  | empty : Made .empty

/-- A name that is not empty and has none of the marks that names of shapes are put together with. -/
def IsPlain (name : Text) : Prop := name ≠ [] ∧ ∀ c ∈ name, c ∉ ("()[]|& " : Text)

/-- The classes and types in a shape have plain names, and its unions and intersections have at least
two components. -/
inductive Legible : Shape → Prop where
  | ofClass {name : Text} {super : Shape} {own : List Member} (h : IsPlain name) :
    Legible (.ofClass name super own)
  | ofType {name : Text} {own : List Member} (h : IsPlain name) : Legible (.ofType name own)
  | joined {s : Shape} {mark : Text} {types : List Shape} (hParts : s.parts? = some (mark, types))
    (hTwo : 2 ≤ types.length) (h : ∀ t ∈ types, Legible t) : Legible s
  | empty : Legible .empty

/-- Two shapes coincide up to the order of components, at every depth, where what has no components is
compared by `leaf`: the components can be paired off so that those of each pair coincide. -/
inductive Alike (leaf : Shape → Shape → Prop) : Shape → Shape → Prop where
  | leaf {s t : Shape} (h : leaf s t) : Alike leaf s t
  | ofClass {name : Text} {s t : Shape} {own : List Member} (h : Alike leaf s t) :
    Alike leaf (.ofClass name s own) (.ofClass name t own)
  | joined {s t : Shape} {mark : Text} {ss ts : List Shape} {pairs : List (Shape × Shape)}
    (hs : s.parts? = some (mark, ss)) (ht : t.parts? = some (mark, ts))
    (hss : ss.Perm (pairs.map Prod.fst)) (hts : ts.Perm (pairs.map Prod.snd))
    (h : ∀ p ∈ pairs, Alike leaf p.1 p.2) : Alike leaf s t

def label? : Shape → Option Text
  | .ofClass name .. => some name
  | .ofType name _ => some name
  | _ => none

/-- Two classes or types with the same name, or two shapes of which nothing is known. -/
def Namesakes (s t : Shape) : Prop := s.parts? = none ∧ t.parts? = none ∧ s.label? = t.label?

theorem names_eq (types : List Shape) : names types = types.map name := by
  induction types with
  | nil => rfl
  | cons s rest ih => rw [names, ih, List.map_cons]

section

variable {s t : Shape} {mark mark' : Text} {ss ts : List Shape} {leaf : Shape → Shape → Prop}

theorem name_of_parts (h : s.parts? = some (mark, ss)) :
    s.name = 40 :: (Text.join mark (ss.map name) ++ [41]) := by
  cases s with
  | union | inter =>
    obtain ⟨rfl, rfl⟩ := Prod.mk.inj (Option.some.inj h)
    rw [name, names_eq, List.append_assoc]
    rfl
  | _ => cases h

theorem mark_of_parts (h : s.parts? = some (mark, ss)) : mark = " | " ∨ mark = " & " := by
  cases s with
  | union => exact .inl (Prod.mk.inj (Option.some.inj h)).1.symm
  | inter => exact .inr (Prod.mk.inj (Option.some.inj h)).1.symm
  | _ => cases h

theorem Made.parts (h : s.Made) (hs : s.parts? = some (mark, ss)) :
    (ss.map name).Pairwise (· ≤ ·) ∧ ∀ t ∈ ss, t.Made := by
  cases h with
  | union h | inter h =>
    obtain ⟨-, rfl⟩ := Prod.mk.inj (Option.some.inj hs)
    exact ⟨List.pairwise_map.2 (Text.pairwise_mergeSort name _), fun t ht => h t (List.mem_mergeSort.1 ht)⟩
  | _ => cases hs

theorem Alike.name_eq (hLeaf : ∀ {s t}, leaf s t → s.name = t.name) (h : Alike leaf s t) (hs : s.Made)
    (ht : t.Made) : s.name = t.name := by
  induction h with
  | leaf h => exact hLeaf h
  | ofClass => rfl
  | @joined s t mark ss ts pairs hss hts hsPerm htPerm _ ih =>
    obtain ⟨hsSorted, hsMade⟩ := hs.parts hss
    obtain ⟨htSorted, htMade⟩ := ht.parts hts
    have hNames : (ss.map name).Perm (ts.map name) := by
      have hPairs : (pairs.map Prod.fst).map name = (pairs.map Prod.snd).map name := by
        rw [List.map_map, List.map_map]
        refine List.map_congr_left fun p hp => ih p hp ?_ ?_
        · exact hsMade _ (hsPerm.mem_iff.2 (List.mem_map_of_mem hp))
        · exact htMade _ (htPerm.mem_iff.2 (List.mem_map_of_mem hp))
      exact (hsPerm.map name).trans (hPairs ▸ (htPerm.map name).symm)
    rw [name_of_parts hss, name_of_parts hts,
      hNames.eq_of_pairwise (fun _ _ _ _ => List.le_antisymm) hsSorted htSorted]

theorem mem_signatures_of_parts (h : s.parts? = some (mark, ss)) (sig : Text) :
    mark = " | " ∧ (sig ∈ signatures s.methods ↔ ∃ t ∈ ss, sig ∈ signatures t.methods) ∨
    mark = " & " ∧ (sig ∈ signatures s.methods ↔ ss ≠ [] ∧ ∀ t ∈ ss, sig ∈ signatures t.methods) := by
  cases s with
  | union =>
    obtain ⟨rfl, rfl⟩ := Prod.mk.inj (Option.some.inj h)
    exact .inl ⟨rfl, mem_union⟩
  | inter =>
    obtain ⟨rfl, rfl⟩ := Prod.mk.inj (Option.some.inj h)
    exact .inr ⟨rfl, mem_inter⟩
  | _ => cases h

theorem Alike.mem_signatures (h : Alike Eq s t) (sig : Text) :
    sig ∈ signatures s.methods ↔ sig ∈ signatures t.methods := by
  induction h with
  | leaf h => rw [h]
  | ofClass _ ih =>
    rw [methods, methods, mem_merge, mem_merge]
    simp [ih]
  | @joined s t mark ss ts pairs hss hts hsPerm htPerm _ ih =>
    -- A component on one side has the methods of the one that it is paired with.
    have hPaired : ∀ p ∈ pairs, p.1 ∈ ss ∧ p.2 ∈ ts := fun p hp =>
      ⟨hsPerm.mem_iff.2 (List.mem_map_of_mem hp), htPerm.mem_iff.2 (List.mem_map_of_mem hp)⟩
    have hLeft : ∀ x ∈ ss, ∃ p ∈ pairs, p.1 = x := fun x hx => List.mem_map.1 (hsPerm.mem_iff.1 hx)
    have hRight : ∀ y ∈ ts, ∃ p ∈ pairs, p.2 = y := fun y hy => List.mem_map.1 (htPerm.mem_iff.1 hy)
    rcases mem_signatures_of_parts hss sig with ⟨rfl, hMem⟩ | ⟨rfl, hMem⟩ <;>
      rcases mem_signatures_of_parts hts sig with ⟨hMark, hMem'⟩ | ⟨hMark, hMem'⟩
    · rw [hMem, hMem']
      constructor
      · rintro ⟨x, hx, hSig⟩
        obtain ⟨p, hp, rfl⟩ := hLeft x hx
        exact ⟨p.2, (hPaired p hp).2, (ih p hp).1 hSig⟩
      · rintro ⟨y, hy, hSig⟩
        obtain ⟨p, hp, rfl⟩ := hRight y hy
        exact ⟨p.1, (hPaired p hp).1, (ih p hp).2 hSig⟩
    · exact absurd hMark (by decide)
    · exact absurd hMark (by decide)
    · have hNil : ss = [] ↔ ts = [] := by
        rw [← List.length_eq_zero_iff, ← List.length_eq_zero_iff, hsPerm.length_eq, htPerm.length_eq,
          List.length_map, List.length_map]
      rw [hMem, hMem', ne_eq, ne_eq, hNil]
      refine and_congr_right fun _ => ⟨fun h y hy => ?_, fun h x hx => ?_⟩
      · obtain ⟨p, hp, rfl⟩ := hRight y hy
        exact (ih p hp).1 (h _ (hPaired p hp).1)
      · obtain ⟨p, hp, rfl⟩ := hLeft x hx
        exact (ih p hp).2 (h _ (hPaired p hp).2)

/-- What can follow the name of a shape: nothing, or a space or a closing parenthesis. -/
def Ends (t : Text) : Prop := ∀ c ∈ t.head?, c = 32 ∨ c = 41

def IsBound (c : UInt8) : Prop := c = 32 ∨ c = 40 ∨ c = 41

theorem Ends.isBound {a : Text} (h : Ends a) : ∀ c ∈ a.head?, IsBound c := by
  intro c hc
  rcases h c hc with rfl | rfl <;> simp [IsBound]

theorem name_of_leaf (h : s.parts? = none) : s.name = s.label?.getD "[empty]" := by
  cases s with
  | union | inter => cases h
  | _ =>
    rw [name]
    rfl

theorem Legible.isPlain (h : s.Legible) : ∀ name ∈ s.label?, IsPlain name := by
  cases h with
  | ofClass h | ofType h =>
    rintro _ ⟨⟩
    exact h
  | @joined s _ _ hParts =>
    cases s with
    | union | inter => simp [label?]
    | _ => cases hParts
  | empty => simp [label?]

theorem Legible.name_word (h : s.Legible) (hLeaf : s.parts? = none) :
    s.name ≠ [] ∧ ∀ c ∈ s.name, ¬IsBound c := by
  rw [name_of_leaf hLeaf]
  cases hLabel : s.label? with
  | none => exact ⟨by decide, by simp only [IsBound]; decide +kernel⟩
  | some name =>
    obtain ⟨hName, hBytes⟩ := h.isPlain name hLabel
    refine ⟨hName, fun c hc => ?_⟩
    rintro (rfl | rfl | rfl) <;> exact hBytes _ hc (by decide)

theorem Legible.namesakes (hs : s.Legible) (ht : t.Legible) (hsLeaf : s.parts? = none)
    (htLeaf : t.parts? = none) (h : s.name = t.name) : Namesakes s t := by
  have hEmpty {name : Text} (hPlain : IsPlain name) : name ≠ "[empty]" := by
    rintro rfl
    exact hPlain.2 91 (by decide) (by decide)
  rw [name_of_leaf hsLeaf, name_of_leaf htLeaf] at h
  refine ⟨hsLeaf, htLeaf, ?_⟩
  cases hLabel : s.label? <;> cases hLabel' : t.label? <;> rw [hLabel, hLabel'] at h
  · exact absurd h.symm (hEmpty (ht.isPlain _ hLabel'))
  · exact absurd h (hEmpty (hs.isPlain _ hLabel))
  · exact congrArg some h

/-- A legible shape starts a text in one way only: what else starts it coincides with the shape up to
order, and ends where it ends. -/
def Reads (s : Shape) : Prop :=
  ∀ ⦃t : Shape⦄ ⦃a b : Text⦄, t.Legible → Ends a → Ends b → s.name ++ a = t.name ++ b →
    Alike Namesakes s t ∧ a = b

theorem not_word_of_parts {a b : Text} (hs : s.parts? = some (mark, ss))
    (hWord : t.name ≠ [] ∧ ∀ c ∈ t.name, ¬IsBound c) (h : s.name ++ a = t.name ++ b) : False := by
  rw [name_of_parts hs] at h
  cases hName : t.name with
  | nil => exact hWord.1 hName
  | cons c rest =>
    rw [hName] at h
    obtain rfl : 40 = c := by simpa using congrArg List.head? h
    exact hWord.2 40 (by simp [hName]) (by simp [IsBound])

theorem Legible.reads_of_leaf (hs : s.Legible) (hLeaf : s.parts? = none) : s.Reads := by
  intro t a b ht ha hb h
  cases hParts : t.parts? with
  | none =>
    obtain ⟨hName, hEnd⟩ := Text.append_inj_of_head (hs.name_word hLeaf).2 (ht.name_word hParts).2
      ha.isBound hb.isBound h
    exact ⟨.leaf (hs.namesakes ht hLeaf hParts hName), hEnd⟩
  | some parts => exact (not_word_of_parts hParts (hs.name_word hLeaf) h.symm).elim

theorem ends_tail {mark : Text} (hMark : mark = " | " ∨ mark = " & ") (names : List Text) (t : Text) :
    Ends (names.flatMap (mark ++ ·) ++ 41 :: t) := by
  cases names with
  | nil => simp [Ends]
  | cons =>
    intro c hc
    rcases hMark with rfl | rfl <;> exact .inl (Option.some.inj hc).symm

theorem reads_tail {a b : Text} (hMark : mark = " | " ∨ mark = " & ")
    (hMark' : mark' = " | " ∨ mark' = " & ") (hss : ∀ x ∈ ss, x.Reads) (hts : ∀ y ∈ ts, y.Legible)
    (h : (ss.map name).flatMap (mark ++ ·) ++ 41 :: a = (ts.map name).flatMap (mark' ++ ·) ++ 41 :: b) :
    List.Forall₂ (Alike Namesakes) ss ts ∧ a = b ∧ (ss ≠ [] → mark = mark') := by
  have hFirst {mark : Text} (hMark : mark = " | " ∨ mark = " & ") {x c : Text} :
      41 :: x ≠ mark ++ c := by
    intro h
    have hHead : (41 : UInt8) = 32 := by
      rcases hMark with rfl | rfl <;> exact Option.some.inj (congrArg List.head? h)
    exact absurd hHead (by decide)
  induction ss generalizing ts with
  | nil =>
    cases ts with
    | nil => exact ⟨.nil, List.tail_eq_of_cons_eq h, fun h => absurd rfl h⟩
    | cons y ts =>
      rw [List.map_cons, List.flatMap_cons, List.append_assoc, List.append_assoc] at h
      exact (hFirst hMark' h).elim
  | cons x ss ih =>
    cases ts with
    | nil =>
      rw [List.map_cons, List.flatMap_cons, List.append_assoc, List.append_assoc] at h
      exact (hFirst hMark h.symm).elim
    | cons y ts =>
      rw [List.forall_mem_cons] at hss hts
      simp only [List.map_cons, List.flatMap_cons, List.append_assoc] at h
      have hSame : mark = mark' := by
        refine Text.separators_eq ?_ ?_ _ _ h
        · rcases hMark with rfl | rfl <;> decide
        · rcases hMark' with rfl | rfl <;> decide
      subst hSame
      obtain ⟨hAlike, hRest⟩ := hss.1 hts.1 (ends_tail hMark _ _) (ends_tail hMark _ _)
        (List.append_cancel_left h)
      obtain ⟨hMore, hEnd, -⟩ := ih hss.2 hts.2 hRest
      exact ⟨.cons hAlike hMore, hEnd, fun _ => rfl⟩

theorem reads_of_parts (hParts : s.parts? = some (mark, ss)) (hTwo : 2 ≤ ss.length)
    (hss : ∀ x ∈ ss, x.Reads) : s.Reads := by
  intro t a b ht ha hb h
  have hMark := mark_of_parts hParts
  cases ht with
  | @joined _ mark' ts hParts' hTwo' hts =>
    have hMark' := mark_of_parts hParts'
    rw [name_of_parts hParts, name_of_parts hParts', List.cons_append, List.cons_append,
      List.append_assoc, List.append_assoc] at h
    replace h := List.tail_eq_of_cons_eq h
    obtain ⟨x, xs, rfl⟩ := List.exists_cons_of_length_pos (Nat.lt_of_lt_of_le Nat.zero_lt_two hTwo)
    obtain ⟨y, ys, rfl⟩ := List.exists_cons_of_length_pos (Nat.lt_of_lt_of_le Nat.zero_lt_two hTwo')
    rw [List.forall_mem_cons] at hss hts
    simp only [List.map_cons, Text.join_cons, List.append_assoc] at h
    obtain ⟨hFirst, hRest⟩ := hss.1 hts.1 (ends_tail hMark _ _) (ends_tail hMark' _ _) h
    obtain ⟨hMore, hEnd, hSame⟩ := reads_tail hMark hMark' hss.2 hts.2 hRest
    have hxs : xs ≠ [] := by
      rintro rfl
      simp at hTwo
    obtain rfl := hSame hxs
    obtain ⟨hLength, hZip⟩ := List.forall₂_iff_zip.1 (.cons hFirst hMore)
    refine ⟨@Alike.joined _ _ _ _ _ _ ((x :: xs).zip (y :: ys)) hParts hParts' ?_ ?_
      fun p hp => hZip hp, hEnd⟩
    · rw [List.map_fst_zip hLength.le]
    · rw [List.map_snd_zip hLength.ge]
  | ofClass hPlain =>
    exact (not_word_of_parts hParts ((Legible.ofClass hPlain).name_word rfl) h).elim
  | ofType hPlain =>
    exact (not_word_of_parts hParts ((Legible.ofType hPlain).name_word rfl) h).elim
  | empty => exact (not_word_of_parts hParts (Legible.empty.name_word rfl) h).elim

theorem Legible.reads (h : s.Legible) : s.Reads := by
  induction h with
  | ofClass h => exact (Legible.ofClass h).reads_of_leaf rfl
  | ofType h => exact (Legible.ofType h).reads_of_leaf rfl
  | joined hParts hTwo _ ih => exact reads_of_parts hParts hTwo ih
  | empty => exact Legible.empty.reads_of_leaf rfl

theorem Namesakes.name_eq (h : Namesakes s t) : s.name = t.name := by
  rw [name_of_leaf h.1, name_of_leaf h.2.1, h.2.2]

theorem Alike.signatures_eq (h : Alike Eq s t) : signatures s.methods = signatures t.methods := by
  refine (List.perm_of_nodup_nodup_toFinset_eq (increasing_methods s).nodup
    (increasing_methods t).nodup ?_).eq_of_pairwise ?_ (increasing_methods s) (increasing_methods t)
  · ext sig
    simpa using h.mem_signatures sig
  · exact fun a b _ _ hab hba => (List.lt_asymm hab hba).elim

end

/-- Two legible shapes have the same canonical name exactly when they coincide up to the order of the
components of unions and intersections, at every depth, with classes and types compared by their names.
The name and the signatures of a union or an intersection do not depend on the order of the components
that it is made of, nor on those within them. -/
theorem same_iff_alike_and_order_irrelevant :
    (∀ s t : Shape, s.Made → t.Made → s.Legible → t.Legible → (s.same t = true ↔ Alike Namesakes s t)) ∧
    ∀ build ∈ [unionOf, interOf], ∀ (ss ts : List Shape) (pairs : List (Shape × Shape)),
      (∀ s ∈ ss, s.Made) → (∀ t ∈ ts, t.Made) → ss.Perm (pairs.map Prod.fst) →
      ts.Perm (pairs.map Prod.snd) → (∀ p ∈ pairs, Alike Eq p.1 p.2) →
      (build ss).name = (build ts).name ∧
        signatures (build ss).methods = signatures (build ts).methods := by
  refine ⟨fun s t hs ht hsLegible htLegible => ⟨fun h => ?_, fun h => ?_⟩, ?_⟩
  · have hName : s.name ++ [] = t.name ++ [] := by simpa [same] using h
    exact (hsLegible.reads htLegible (by simp [Ends]) (by simp [Ends]) hName).1
  · exact decide_eq_true (h.name_eq Namesakes.name_eq hs ht)
  · intro build hBuild ss ts pairs hss hts hsPerm htPerm hPairs
    have hSorted (types : List Shape) : (sorted types).Perm types := List.mergeSort_perm types _
    have hAlike : Alike Eq (build ss) (build ts) ∧ (build ss).Made ∧ (build ts).Made := by
      simp only [List.mem_cons, List.not_mem_nil, or_false] at hBuild
      rcases hBuild with rfl | rfl
      · exact ⟨.joined rfl rfl ((hSorted ss).trans hsPerm) ((hSorted ts).trans htPerm) hPairs,
          .union hss, .union hts⟩
      · exact ⟨.joined rfl rfl ((hSorted ss).trans hsPerm) ((hSorted ts).trans htPerm) hPairs,
          .inter hss, .inter hts⟩
    exact ⟨hAlike.1.name_eq (congrArg name) hAlike.2.1 hAlike.2.2, hAlike.1.signatures_eq⟩

/-- A type beside an intersection of another one and an unknown shape, in a certain order of each. -/
def twoWays (swap : Bool) : Shape :=
  if swap then unionOf [interOf [.empty, .ofType "b" []], .ofType "a" []]
  else unionOf [.ofType "a" [], interOf [.ofType "b" [], .empty]]

theorem same_twoWays : ((twoWays false).Made ∧ (twoWays false).Legible) ∧
    ((twoWays true).Made ∧ (twoWays true).Legible) ∧ (twoWays false).same (twoWays true) = true := by
  have hType {name : Text} (h : IsPlain name) : (ofType name []).Made ∧ (ofType name []).Legible :=
    ⟨.ofType, .ofType h⟩
  have hTwo {s t : Shape} (hs : s.Made ∧ s.Legible) (ht : t.Made ∧ t.Legible) :
      ((unionOf [s, t]).Made ∧ (unionOf [s, t]).Legible) ∧
        ((interOf [s, t]).Made ∧ (interOf [s, t]).Legible) := by
    have hMade : ∀ x ∈ [s, t], x.Made := by simp [hs.1, ht.1]
    have hLegible : ∀ x ∈ sorted [s, t], x.Legible := by simp [sorted, hs.2, ht.2]
    exact ⟨⟨.union hMade, .joined rfl (by simp [sorted]) hLegible⟩,
      ⟨.inter hMade, .joined rfl (by simp [sorted]) hLegible⟩⟩
  have ha := @hType "a" ⟨by decide, by decide +kernel⟩
  have hb := @hType "b" ⟨by decide, by decide +kernel⟩
  have hEmpty : Shape.empty.Made ∧ Shape.empty.Legible := ⟨.empty, .empty⟩
  have hs := (hTwo ha (hTwo hb hEmpty).2).1
  have ht := (hTwo (hTwo hEmpty hb).2 ha).1
  refine ⟨hs, ht, (same_iff_alike_and_order_irrelevant.1 _ _ hs.1 ht.1 hs.2 ht.2).2 ?_⟩
  have hSorted (types : List Shape) : (sorted types).Perm types := List.mergeSort_perm types _
  have hInter : Alike Namesakes (interOf [.ofType "b" [], .empty]) (interOf [.empty, .ofType "b" []]) :=
    @Alike.joined _ _ _ _ _ _ [(.ofType "b" [], .ofType "b" []), (.empty, .empty)] rfl rfl
      (hSorted _) ((hSorted _).trans (.swap ..)) (by
        simp only [List.forall_mem_cons, List.not_mem_nil, false_imp_iff, implies_true, and_true]
        exact ⟨.leaf ⟨rfl, rfl, rfl⟩, .leaf ⟨rfl, rfl, rfl⟩⟩)
  exact @Alike.joined _ _ _ _ _ _ [(.ofType "a" [], .ofType "a" []), (_, _)] rfl rfl
    (hSorted _) ((hSorted _).trans (.swap ..)) (by
      simp only [List.forall_mem_cons, List.not_mem_nil, false_imp_iff, implies_true, and_true]
      exact ⟨.leaf ⟨rfl, rfl, rfl⟩, hInter⟩)

end Shape

end Assay
