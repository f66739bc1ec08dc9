import Mathlib
import Assay.Proofs.Flat

/-! The alternatives of a type: the texts of the components of its flat form, if that is an
intersection, or else its own text. Flattening keeps them, and those of an intersection are the ones of
its components. -/

namespace Assay

namespace TypeSpec

def shape (s : TypeSpec Meta) : TypeSpec Unit := s.map fun _ => ()

mutual

theorem toText_map {α β : Type} (f : α → β) : (s : TypeSpec α) → (s.map f).toText = s.toText
  | .simple _ _ args => by
    rw [map, toText, toText, texts_mapList f args, mapList_eq]
    simp
  | .union _ types => by rw [map, toText, toText, texts_mapList f types]
  | .inter _ types => by rw [map, toText, toText, texts_mapList f types]
  | .func _ params result => by
    rw [map, toText, toText, texts_mapList f params, toText_map f result]
  | .inferred _ => rfl

theorem texts_mapList {α β : Type} (f : α → β) : (ss : List (TypeSpec α)) →
    texts (mapList f ss) = texts ss
  | [] => rfl
  | s :: rest => by rw [mapList, texts, texts, toText_map f s, texts_mapList f rest]

end

theorem toText_shape (s : TypeSpec Meta) : s.shape.toText = s.toText := toText_map _ s

def unionParts : TypeSpec Unit → List (TypeSpec Unit)
  | .union _ types => types
  | s => [s]

/-- The components of an intersection, or else the type itself. -/
def interParts : TypeSpec Unit → List (TypeSpec Unit)
  | .inter _ types => types
  | s => [s]

/-- A union or an intersection of the different ones among several types, or the one that there is. -/
def collapse (build : List (TypeSpec Unit) → TypeSpec Unit) (parts : List (TypeSpec Unit)) :
    TypeSpec Unit :=
  match Text.dedupBy toText parts with
  | [one] => one
  | distinct => build distinct

mutual

def flat : TypeSpec Unit → TypeSpec Unit
  | .simple _ name args => .simple () name (flats args)
  | .union _ types => collapse (.union ()) ((flats types).flatMap unionParts)
  | .inter _ types => collapse (.inter ()) ((flats types).flatMap interParts)
  | .func _ params result => .func () (flats params) result.flat
  | .inferred _ => .inferred ()

def flats : List (TypeSpec Unit) → List (TypeSpec Unit)
  | [] => []
  | s :: rest => s.flat :: flats rest

end

theorem shape_withAnn (s : TypeSpec Meta) (m : Meta) : (s.withAnn m).shape = s.shape := by
  cases s <;> rfl

theorem shape_union (m : Meta) (types : List (TypeSpec Meta)) :
    shape (.union m types) = .union () (types.map shape) := by
  rw [shape, map, mapList_eq]
  rfl

theorem shape_inter (m : Meta) (types : List (TypeSpec Meta)) :
    shape (.inter m types) = .inter () (types.map shape) := by
  rw [shape, map, mapList_eq]
  rfl

theorem rebuild_shape {build : Meta → List (TypeSpec Meta) → TypeSpec Meta}
    {build' : List (TypeSpec Unit) → TypeSpec Unit}
    (hBuild : ∀ m types, (build m types).shape = build' (types.map shape)) (m : Meta)
    {types parts : List (TypeSpec Meta)} {changed : Bool} {k : Nat}
    (hKept : changed = false → parts = types) :
    (rebuild build m parts changed).Gives k fun new _ =>
      (new.getD (build m types)).shape = collapse build' (parts.map shape) := by
  have hDistinct := Text.map_dedupBy shape toText_shape parts
  unfold rebuild collapse
  rw [← hDistinct]
  simp only
  split
  · rename_i one hOne
    have hMoved : (one.moveTo m).Gives k fun s _ => s.shape = one.shape :=
      (Fresh.Gives.renew one.ann).bind fun _ _ _ _ => .pure (shape_withAnn _ _)
    refine hMoved.bind fun s k' _ hs => .pure ?_
    rw [hOne]
    exact hs
  · rename_i hSeveral
    have hMap {one : TypeSpec Unit} : (Text.dedupBy toText parts).map shape ≠ [one] := fun hOne => by
      obtain ⟨s, hs, -⟩ := List.map_eq_singleton_iff.1 hOne
      exact hSeveral s hs
    split
    · refine (Fresh.Gives.renew m).bind fun m' k' _ _ => .pure ?_
      rw [Option.getD_some, hBuild]
      split
      · exact absurd ‹_› hMap
      · rfl
    · rename_i hOld
      simp only [Bool.or_eq_true, not_or, Bool.not_eq_true, bne_eq_false_iff_eq] at hOld
      refine .pure ?_
      rw [Option.getD_none, hBuild, ← hKept hOld.1,
        (Text.dedupBy_sublist toText parts).eq_of_length hOld.2]
      rw [(Text.dedupBy_sublist toText parts).eq_of_length hOld.2] at hMap
      split
      · exact absurd ‹_› hMap
      · rfl

theorem unionParts_shape (s : TypeSpec Meta) :
    unionParts s.shape = ((unionParts? s).getD [s]).map shape := by
  cases s with
  | union m types => rw [shape_union]; rfl
  | _ => rfl

theorem interParts_shape (s : TypeSpec Meta) :
    interParts s.shape = ((interParts? s).getD [s]).map shape := by
  cases s with
  | inter m types => rw [shape_inter]; rfl
  | _ => rfl

mutual

theorem flatten?_shape {k : Nat} : (s : TypeSpec Meta) →
    (flatten? s).Gives k fun new _ => (new.getD s).shape = s.shape.flat
  | .simple m name args => by
    have hFlat : (shape (.simple m name args)).flat = .simple () name (flats (args.map shape)) := by
      rw [shape, map, mapList_eq, flat]
      rfl
    have hShape (m : Meta) (args : List (TypeSpec Meta)) :
        shape (.simple m name args) = .simple () name (args.map shape) := by
      rw [shape, map, mapList_eq]
      rfl
    rw [flatten?, hFlat]
    refine (flattenAll?_shape args).bind fun new k' _ hArgs => ?_
    cases new with
    | none =>
      refine .pure ?_
      rw [Option.getD_none, hShape, ← hArgs, Option.getD_none]
    | some args' =>
      refine (Fresh.Gives.renew m).bind fun m' k'' _ _ => .pure ?_
      rw [Option.getD_some, hShape, ← hArgs, Option.getD_some]
  | .union m types => by
    rw [flatten?, shape_union, flat]
    refine ((flattenParts_shape unionParts? unionParts unionParts_shape types)).bind
      fun ⟨parts, changed⟩ k' _ ⟨hParts, hKept⟩ => ?_
    rw [← hParts]
    exact rebuild_shape shape_union m hKept
  | .inter m types => by
    rw [flatten?, shape_inter, flat]
    refine ((flattenParts_shape interParts? interParts interParts_shape types)).bind
      fun ⟨parts, changed⟩ k' _ ⟨hParts, hKept⟩ => ?_
    rw [← hParts]
    exact rebuild_shape shape_inter m hKept
  | .func m params result => by
    have hShape (m : Meta) (params : List (TypeSpec Meta)) (result : TypeSpec Meta) :
        shape (.func m params result) = .func () (params.map shape) result.shape := by
      rw [shape, map, mapList_eq]
      rfl
    rw [flatten?, hShape, flat]
    refine (flattenAll?_shape params).bind fun newParams k₁ _ hParams => ?_
    refine (flatten?_shape result).bind fun newResult k₂ _ hResult => ?_
    rw [← hParams, ← hResult]
    split
    · exact .pure (hShape _ _ _)
    · exact (Fresh.Gives.renew m).bind fun m' k' _ _ => .pure (hShape _ _ _)
  | .inferred m => by
    rw [flatten?]
    exact .pure rfl

theorem flattenAll?_shape {k : Nat} : (ss : List (TypeSpec Meta)) →
    (flattenAll? ss).Gives k fun new _ => (new.getD ss).map shape = flats (ss.map shape)
  | [] => by
    rw [flattenAll?]
    exact .pure rfl
  | s :: rest => by
    rw [flattenAll?, List.map_cons, flats]
    refine (flatten?_shape s).bind fun newHead k₁ _ hHead => ?_
    refine (flattenAll?_shape rest).bind fun newRest k₂ _ hRest => ?_
    rw [← hHead, ← hRest]
    split <;> exact .pure rfl

theorem flattenParts_shape {k : Nat} (parts? : TypeSpec Meta → Option (List (TypeSpec Meta)))
    (parts : TypeSpec Unit → List (TypeSpec Unit))
    (hParts : ∀ s, parts s.shape = ((parts? s).getD [s]).map shape) : (ss : List (TypeSpec Meta)) →
    (flattenParts parts? ss).Gives k fun r _ =>
      r.1.map shape = (flats (ss.map shape)).flatMap parts ∧ (r.2 = false → r.1 = ss)
  | [] => by
    rw [flattenParts]
    exact .pure ⟨rfl, fun _ => rfl⟩
  | s :: rest => by
    rw [flattenParts, List.map_cons, flats, List.flatMap_cons]
    refine (flatten?_shape s).bind fun new k₁ _ hHead => ?_
    refine (flattenParts_shape parts? parts hParts rest).bind
      fun ⟨more, changed⟩ k₂ _ ⟨hMore, hKept⟩ => ?_
    rw [← hMore, ← hHead, hParts]
    simp only
    split
    · rename_i inner hInner
      refine .pure ⟨?_, by simp⟩
      rw [List.map_append, hInner, Option.getD_some]
    · rename_i hNone
      refine .pure ⟨?_, fun h => ?_⟩
      · rw [List.map_cons, hNone]
        rfl
      · rw [Bool.or_eq_false_iff, Option.isSome_eq_false_iff, Option.isNone_iff_eq_none] at h
        have hMoreKept : more = rest := hKept h.1
        rw [h.2, Option.getD_none, hMoreKept]

end

theorem shape_flatten (s : TypeSpec Meta) (k : Nat) : ((flatten s) k).1.shape = s.shape.flat :=
  (flatten?_shape (k := k) s).2

theorem IsFlat.flat_shape {s : TypeSpec Meta} (h : s.IsFlat) : s.shape.flat = s.shape := by
  have hNone : (flatten? s 0).1 = none := (flatten?_flat (k := 0) s).2.2.2 h
  have hShape : ((flatten? s 0).1.getD s).shape = s.shape.flat := (flatten?_shape (k := 0) s).2
  rw [← hShape, hNone, Option.getD_none]

def alternatives (s : TypeSpec Meta) : List Text := (interParts s.shape.flat).map toText

theorem IsFlat.alternatives_eq {s : TypeSpec Meta} (h : s.IsFlat) :
    s.alternatives = ((interParts? s).getD [s]).map toText := by
  rw [alternatives, h.flat_shape, interParts_shape, List.map_map]
  exact List.map_congr_left fun t _ => toText_shape t

theorem alternatives_flatten (s : TypeSpec Meta) (k : Nat) :
    ((flatten s) k).1.alternatives = s.alternatives := by
  rw [alternatives, (flatten_flat s k).flat_shape, shape_flatten, alternatives]

theorem interParts_of_mem {s : TypeSpec Meta} {x : TypeSpec Unit}
    (h : x ∈ interParts s.shape.flat) : interParts x = [x] := by
  rw [← shape_flatten s 0, interParts_shape] at h
  obtain ⟨t, ht, rfl⟩ := List.mem_map.1 h
  have hOther : interParts? t = none := by
    cases hInner : interParts? ((flatten s) 0).1 with
    | some inner =>
      rw [hInner, Option.getD_some] at ht
      exact (interParts?_flat hInner (flatten_flat s 0) t ht).2
    | none =>
      rw [hInner, Option.getD_none, List.mem_singleton] at ht
      rwa [ht]
  rw [interParts_shape, hOther]
  rfl

theorem flats_eq (ss : List (TypeSpec Unit)) : flats ss = ss.map flat := by
  induction ss with
  | nil => rfl
  | cons s rest ih => rw [flats, ih, List.map_cons]

theorem mem_alternatives_inter {m : Meta} {types : List (TypeSpec Meta)} {text : Text} :
    text ∈ alternatives (.inter m types) ↔ ∃ s ∈ types, text ∈ s.alternatives := by
  have hParts : interParts (shape (.inter m types)).flat =
      Text.dedupBy toText ((flats (types.map shape)).flatMap interParts) := by
    rw [shape_inter, flat, collapse]
    split
    · rename_i one hOne
      have hMem : one ∈ (flats (types.map shape)).flatMap interParts := by
        have hOnly : one ∈ Text.dedupBy toText ((flats (types.map shape)).flatMap interParts) := by
          rw [hOne]
          exact List.mem_singleton_self _
        exact Text.mem_of_mem_dedupBy hOnly
      rw [flats_eq, List.map_map] at hMem
      obtain ⟨x, hx, hIn⟩ := List.mem_flatMap.1 hMem
      obtain ⟨s, _, rfl⟩ := List.mem_map.1 hx
      rw [hOne]
      exact interParts_of_mem hIn
    · rfl
  rw [alternatives, hParts, Text.mem_keys_dedupBy, List.map_flatMap, flats_eq, List.map_map,
    List.flatMap_map]
  exact List.mem_flatMap

end TypeSpec

end Assay
