import Mathlib
import Assay.Shape
import Assay.Proofs.Flat
import Assay.Proofs.Sorted

/-! The methods of shapes. They are told apart by their signatures: a shape has each of them once, in
increasing order, and which ones it has follows from what it is made of. -/

namespace Assay

variable {types : List Shape}

namespace Shape

def signatures (ms : List Member) : List Text := ms.map Member.signature

/-- Methods in the order of their signatures, each of which is there once. -/
def Increasing (ms : List Member) : Prop := (signatures ms).Pairwise (· < ·)

variable {ms ns : List Member} {sig : Text}

theorem Increasing.nodup (h : Increasing ms) : (signatures ms).Nodup := by
  refine List.Pairwise.imp ?_ h
  rintro a b hLt rfl
  exact List.lt_irrefl _ hLt

theorem increasing_mergeSort (h : (signatures ms).Nodup) :
    Increasing (ms.mergeSort fun a b => Text.le a.signature b.signature) := by
  have hLe := Text.pairwise_mergeSort Member.signature ms
  have hPerm := List.mergeSort_perm ms fun a b : Member => Text.le a.signature b.signature
  have hNodup := (hPerm.map Member.signature).nodup_iff.2 h
  refine List.pairwise_map.2 ((hLe.and (List.pairwise_map.1 hNodup)).imp ?_)
  rintro a b ⟨hab, hne⟩
  by_contra hNot
  exact hne (List.le_antisymm hab (List.not_lt.1 hNot))

theorem mem_signatures_mergeSort {le : Member → Member → Bool} :
    sig ∈ signatures (ms.mergeSort le) ↔ sig ∈ signatures ms := by
  simp [signatures]

theorem increasing_merge (lists : List (List Member)) : Increasing (merge lists) :=
  increasing_mergeSort (Text.nodup_dedupBy _)

theorem mem_merge {lists : List (List Member)} :
    sig ∈ signatures (merge lists) ↔ ∃ ms ∈ lists, sig ∈ signatures ms := by
  rw [merge, mem_signatures_mergeSort, signatures, Text.mem_keys_dedupBy]
  simp only [List.mem_map, List.mem_flatten, signatures]
  grind

theorem increasing_common (h : Increasing ms) (ns : List Member) : Increasing (common ms ns) :=
  increasing_mergeSort (h.nodup.sublist (List.filter_sublist.map _))

theorem mem_common : sig ∈ signatures (common ms ns) ↔ sig ∈ signatures ms ∧ sig ∈ signatures ns := by
  rw [common, mem_signatures_mergeSort]
  simp only [signatures, List.mem_map, List.mem_filter, List.any_eq_true, decide_eq_true_eq]
  grind

theorem increasing_foldl (h : Increasing ms) (lists : List (List Member)) :
    Increasing (lists.foldl common ms) := by
  induction lists generalizing ms with
  | nil => exact h
  | cons ns rest ih => exact ih (increasing_common h ns)

theorem mem_foldl {lists : List (List Member)} : sig ∈ signatures (lists.foldl common ms) ↔
    sig ∈ signatures ms ∧ ∀ ns ∈ lists, sig ∈ signatures ns := by
  induction lists generalizing ms with
  | nil => simp
  | cons ns rest ih => rw [List.foldl_cons, ih, mem_common, List.forall_mem_cons, and_assoc]

theorem methodLists_eq (types : List Shape) : methodLists types = types.map methods := by
  induction types with
  | nil => rfl
  | cons t rest ih => rw [methodLists, ih, List.map_cons]

mutual

theorem increasing_methods : (s : Shape) → Increasing s.methods
  | .ofClass _ super own => by
    rw [methods]
    exact increasing_merge _
  | .ofType _ own => by
    rw [methods]
    exact increasing_merge _
  | .union types => by
    rw [methods]
    exact increasing_merge _
  | .inter types => by
    have hTypes := increasing_methodLists types
    rw [methods]
    split
    · exact .nil
    · rename_i first rest hLists
      exact increasing_foldl (hTypes first (by simp [hLists])) rest
  | .empty => by
    rw [methods]
    exact .nil

theorem increasing_methodLists : (types : List Shape) → ∀ ms ∈ methodLists types, Increasing ms
  | [] => by simp [methodLists]
  | s :: rest => by
    rw [methodLists]
    exact List.forall_mem_cons.2 ⟨increasing_methods s, increasing_methodLists rest⟩

end

theorem mem_union :
    sig ∈ signatures (union types).methods ↔ ∃ t ∈ types, sig ∈ signatures t.methods := by
  rw [methods, mem_merge, methodLists_eq]
  simp

theorem mem_inter : sig ∈ signatures (inter types).methods ↔
    types ≠ [] ∧ ∀ t ∈ types, sig ∈ signatures t.methods := by
  rw [methods, methodLists_eq]
  cases types with
  | nil => simp [signatures]
  | cons t rest => simp [mem_foldl]

theorem mem_unionOf :
    sig ∈ signatures (unionOf types).methods ↔ ∃ t ∈ types, sig ∈ signatures t.methods := by
  simp [unionOf, sorted, mem_union]

theorem mem_interOf : sig ∈ signatures (interOf types).methods ↔
    types ≠ [] ∧ ∀ t ∈ types, sig ∈ signatures t.methods := by
  have hNil : sorted types = [] ↔ types = [] := by
    rw [← List.length_eq_zero_iff, sorted, List.length_mergeSort, List.length_eq_zero_iff]
  rw [interOf, mem_inter, ne_eq, hNil]
  simp [sorted]

/-- What is found under a name are the methods with that name, in their order. -/
def FindsByName (s : Shape) : Prop :=
  ∀ name, (s.find name).Sublist s.methods ∧ ∀ m, m ∈ s.find name ↔ m ∈ s.methods ∧ m.name = name

/-- The methods of a shape stand in strictly increasing order of signatures. A class has those that it
declares and those of its supertype, a type those that it declares, a union those of any component, an
intersection those of all of its components, if it has any, and the empty shape has none. A class or a
type finds its methods by their names. -/
theorem methods_algebra :
    (∀ s : Shape, Increasing s.methods) ∧
    (∀ name super own sig, sig ∈ signatures (ofClass name super own).methods ↔
      sig ∈ signatures own ∨ sig ∈ signatures super.methods) ∧
    (∀ name own sig, sig ∈ signatures (ofType name own).methods ↔ sig ∈ signatures own) ∧
    (∀ types sig, sig ∈ signatures (unionOf types).methods ↔
      ∃ t ∈ types, sig ∈ signatures t.methods) ∧
    (∀ types sig, sig ∈ signatures (interOf types).methods ↔
      types ≠ [] ∧ ∀ t ∈ types, sig ∈ signatures t.methods) ∧
    (∀ sig, sig ∉ signatures empty.methods) ∧
    (∀ name super own, (ofClass name super own).FindsByName) ∧
    ∀ name own, (ofType name own).FindsByName := by
  have hFinds {s : Shape} (h : ∀ name, s.find name = s.methods.filter (·.name = name)) :
      s.FindsByName := by
    intro name
    rw [h]
    exact ⟨List.filter_sublist, by simp⟩
  refine ⟨increasing_methods, fun name super own sig => ?_, fun name own sig => ?_,
    fun _ _ => mem_unionOf, fun _ _ => mem_interOf, fun sig => ?_,
    fun _ _ _ => hFinds fun _ => rfl, fun _ _ => hFinds fun _ => rfl⟩
  · rw [methods, mem_merge]
    simp
  · rw [methods, mem_merge]
    simp
  · rw [methods]
    exact List.not_mem_nil

end Shape

end Assay
