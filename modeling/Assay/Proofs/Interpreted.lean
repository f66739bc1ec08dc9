import Mathlib
import Assay.Proofs.Legible
import Assay.Proofs.Members

/-! What types mean. A type is read in a domain where unions and intersections put the meanings of
their components together. The flat form of a type means what the type means: to splice components into
their parent groups them in another way, and a component that reads like an earlier one is the same
type, so that nothing is lost with it. The methods of shapes are such a reading. -/

namespace Assay

/-- Names are made of the runes of words and of dots, and unions and intersections have components. -/
def Node.Filled {α : Type} : Node α → Prop
  | .spec (.simple _ name _) => Text.isNamelike name
  | .spec (.union _ types) => types ≠ []
  | .spec (.inter _ types) => types ≠ []
  | _ => True

/-- How types are read in a domain: what puts the components of unions and of intersections together,
and what the other types mean. -/
structure Interpretation (L : Type*) where
  join : L → L → L
  meet : L → L → L
  simple : Text → List L → L
  func : List L → L → L
  inferred : L

/-- Elements put together, and `none` if there are no elements. -/
def together {L : Type*} (op : L → L → L) (none : L) : List L → L
  | [] => none
  | x :: rest => rest.foldl op x

/-- An operation for which it does not matter how elements are grouped, and which takes no notice of
an element that it has had before. -/
structure Absorbs {L : Type*} (op : L → L → L) : Prop where
  assoc : ∀ x y z, op (op x y) z = op x (op y z)
  idem : ∀ x, op x x = x
  again : ∀ x y, op (op x y) x = op x y

namespace Absorbs

variable {L : Type*} {op : L → L → L} {none : L}

theorem sup [SemilatticeSup L] : Absorbs fun x y : L => x ⊔ y :=
  ⟨sup_assoc, fun _ => sup_idem _, fun _ _ => sup_eq_left.2 le_sup_left⟩

theorem inf [SemilatticeInf L] : Absorbs fun x y : L => x ⊓ y :=
  ⟨inf_assoc, fun _ => inf_idem _, fun _ _ => inf_eq_left.2 inf_le_left⟩

theorem foldl_eq (h : Absorbs op) (x : L) {xs : List L} (hxs : xs ≠ []) :
    xs.foldl op x = op x (together op none xs) := by
  have : Std.Associative op := ⟨h.assoc⟩
  cases xs with
  | nil => exact absurd rfl hxs
  | cons y rest => exact List.foldl_assoc

theorem together_flatMap {α : Type*} (h : Absorbs op) (none : L) (parts : α → List L)
    (xs : List α) (hParts : ∀ x ∈ xs, parts x ≠ []) :
    together op none (xs.map fun x => together op none (parts x)) =
      together op none (xs.flatMap parts) := by
  have hFold (a : L) (ys : List α) (hys : ∀ y ∈ ys, parts y ≠ []) :
      (ys.map fun y => together op none (parts y)).foldl op a = (ys.flatMap parts).foldl op a := by
    induction ys generalizing a with
    | nil => rfl
    | cons y rest ih =>
      obtain ⟨hy, hRest⟩ := List.forall_mem_cons.1 hys
      rw [List.map_cons, List.foldl_cons, List.flatMap_cons, List.foldl_append,
        h.foldl_eq a hy, ih _ hRest]
  cases xs with
  | nil => rfl
  | cons x rest =>
    obtain ⟨hx, hRest⟩ := List.forall_mem_cons.1 hParts
    obtain ⟨y, more, hy⟩ := List.exists_cons_of_ne_nil hx
    rw [List.map_cons, together, hFold _ rest hRest, List.flatMap_cons, hy, List.cons_append,
      together, together, List.foldl_append]

theorem together_dedupBy {α : Type} (h : Absorbs op) {key : α → Text} {value : α → L} {xs : List α}
    (hKey : ∀ x ∈ xs, ∀ y ∈ xs, key x = key y → value x = value y) :
    together op none ((Text.dedupBy key xs).map value) = together op none (xs.map value) := by
  -- What has been put together so far takes no notice of elements whose keys were seen.
  have hGo (ys : List α) (hys : ∀ y ∈ ys, y ∈ xs) (seen : List Text) (a : L)
      (hSeen : ∀ x ∈ xs, key x ∈ seen → op a (value x) = a) :
      ((Text.dedupBy.go key seen ys).map value).foldl op a = (ys.map value).foldl op a := by
    induction ys generalizing seen a with
    | nil => rfl
    | cons y rest ih =>
      obtain ⟨hy, hRest⟩ := List.forall_mem_cons.1 hys
      rw [Text.dedupBy.go, List.map_cons, List.foldl_cons]
      split
      · rename_i hOld
        rw [hSeen y hy hOld]
        exact ih hRest seen a hSeen
      · refine ih hRest (key y :: seen) (op a (value y)) fun x hx hKeyed => ?_
        obtain hSame | hOld := List.mem_cons.1 hKeyed
        · rw [hKey x hx y hy hSame, h.assoc, h.idem]
        · have hAbsorbed := hSeen x hx hOld
          calc op (op a (value y)) (value x)
              = op (op (op a (value x)) (value y)) (value x) := by rw [hAbsorbed]
            _ = op a (op (op (value x) (value y)) (value x)) := by rw [h.assoc, h.assoc, h.assoc]
            _ = op (op a (value x)) (value y) := by rw [h.again, h.assoc]
            _ = op a (value y) := by rw [hAbsorbed]
  cases xs with
  | nil => rfl
  | cons x rest =>
    rw [Text.dedupBy, Text.dedupBy.go, if_neg List.not_mem_nil]
    refine hGo rest (fun y hy => List.mem_cons_of_mem _ hy) [key x] (value x) fun y hy hSame => ?_
    rw [hKey y hy x List.mem_cons_self (List.mem_singleton.1 hSame), h.idem]

end Absorbs

namespace Interpretation

variable {L : Type*} {α β : Type} (i : Interpretation L)

mutual

def denote : TypeSpec α → L
  | .simple _ name args => i.simple name (denoteAll args)
  | .union _ types => together i.join i.inferred (denoteAll types)
  | .inter _ types => together i.meet i.inferred (denoteAll types)
  | .func _ params result => i.func (denoteAll params) (denote result)
  | .inferred _ => i.inferred

def denoteAll : List (TypeSpec α) → List L
  | [] => []
  | s :: rest => denote s :: denoteAll rest

end

theorem denoteAll_eq (ss : List (TypeSpec α)) : i.denoteAll ss = ss.map i.denote := by
  induction ss with
  | nil => rfl
  | cons s rest ih => rw [denoteAll, ih, List.map_cons]

mutual

theorem denote_map (f : α → β) : (s : TypeSpec α) → i.denote (s.map f) = i.denote s
  | .simple _ _ args => by rw [TypeSpec.map, denote, denote, denoteAll_map f args]
  | .union _ types => by rw [TypeSpec.map, denote, denote, denoteAll_map f types]
  | .inter _ types => by rw [TypeSpec.map, denote, denote, denoteAll_map f types]
  | .func _ params result => by
    rw [TypeSpec.map, denote, denote, denoteAll_map f params, denote_map f result]
  | .inferred _ => rfl

theorem denoteAll_map (f : α → β) : (ss : List (TypeSpec α)) →
    i.denoteAll (TypeSpec.mapList f ss) = i.denoteAll ss
  | [] => rfl
  | s :: rest => by rw [TypeSpec.mapList, denoteAll, denoteAll, denote_map f s, denoteAll_map f rest]

end

theorem denote_eq_of_toText {s t : TypeSpec Unit} (hs : (Node.spec s).All Node.Legible)
    (ht : (Node.spec t).All Node.Legible) (h : s.toText = t.toText) : i.denote s = i.denote t := by
  have hSame := (s.tells t hs ht .nil .nil (by rw [h])).1
  rw [← i.denote_map (fun _ => ()) s, hSame, i.denote_map]

/-- A type that can be read back, and means what `t` means. -/
def Means (s t : TypeSpec Unit) : Prop := (Node.spec s).All Node.Legible ∧ i.denote s = i.denote t

theorem collapse_means {op : L → L → L} (hOp : Absorbs op)
    {build : List (TypeSpec Unit) → TypeSpec Unit}
    (hBuild : ∀ types, i.denote (build types) = together op i.inferred (i.denoteAll types))
    (hLegible : ∀ types, 2 ≤ types.length → (∀ t ∈ types, (Node.spec t).All Node.Legible) →
      (Node.spec (build types)).All Node.Legible)
    {parts : List (TypeSpec Unit)} (hSome : parts ≠ [])
    (hParts : ∀ t ∈ parts, (Node.spec t).All Node.Legible) :
    (Node.spec (TypeSpec.collapse build parts)).All Node.Legible ∧
      i.denote (TypeSpec.collapse build parts) = together op i.inferred (i.denoteAll parts) := by
  have hDistinct (t : TypeSpec Unit) (ht : t ∈ Text.dedupBy TypeSpec.toText parts) :=
    hParts t (Text.mem_of_mem_dedupBy ht)
  have hMeant : together op i.inferred (i.denoteAll (Text.dedupBy TypeSpec.toText parts)) =
      together op i.inferred (i.denoteAll parts) := by
    rw [denoteAll_eq, denoteAll_eq]
    exact hOp.together_dedupBy fun s hs t ht => i.denote_eq_of_toText (hParts s hs) (hParts t ht)
  rw [TypeSpec.collapse, ← hMeant]
  split
  · rename_i one hOne
    rw [hOne]
    exact ⟨hDistinct one (by simp [hOne]), rfl⟩
  · rename_i hSeveral
    refine ⟨hLegible _ ?_ hDistinct, hBuild _⟩
    rcases hCount : Text.dedupBy TypeSpec.toText parts with _ | ⟨one, _ | ⟨other, rest⟩⟩
    · obtain ⟨t, rest, rfl⟩ := List.exists_cons_of_ne_nil hSome
      have hKept := Text.mem_keys_dedupBy.2 (List.mem_map_of_mem (f := TypeSpec.toText)
        (List.mem_cons_self (a := t) (l := rest)))
      simp [hCount] at hKept
    · exact absurd hCount (hSeveral one)
    · simp

theorem flat_means {op : L → L → L} (hOp : Absorbs op)
    {build : List (TypeSpec Unit) → TypeSpec Unit} {parts : TypeSpec Unit → List (TypeSpec Unit)}
    (hBuild : ∀ types, i.denote (build types) = together op i.inferred (i.denoteAll types))
    (hLegible : ∀ types, 2 ≤ types.length → (∀ t ∈ types, (Node.spec t).All Node.Legible) →
      (Node.spec (build types)).All Node.Legible)
    (hParts : ∀ t, (Node.spec t).All Node.Legible → parts t ≠ [] ∧
      (∀ x ∈ parts t, (Node.spec x).All Node.Legible) ∧
      i.denote t = together op i.inferred (i.denoteAll (parts t)))
    {types : List (TypeSpec Unit)} (hSome : types ≠ []) (hTypes : ∀ t ∈ types, i.Means t.flat t) :
    i.Means (TypeSpec.collapse build ((TypeSpec.flats types).flatMap parts)) (build types) := by
  rw [TypeSpec.flats_eq]
  have hFlat : ∀ x ∈ types.map TypeSpec.flat, (Node.spec x).All Node.Legible :=
    List.forall_mem_map.2 fun t ht => (hTypes t ht).1
  have hNonempty : (types.map TypeSpec.flat).flatMap parts ≠ [] := by
    obtain ⟨t, rest, rfl⟩ := List.exists_cons_of_ne_nil hSome
    rw [List.map_cons, List.flatMap_cons]
    exact List.append_ne_nil_of_left_ne_nil (hParts _ (hFlat _ List.mem_cons_self)).1 _
  have hAll : ∀ x ∈ (types.map TypeSpec.flat).flatMap parts, (Node.spec x).All Node.Legible := by
    intro x hx
    obtain ⟨t, ht, hx⟩ := List.mem_flatMap.1 hx
    exact (hParts t (hFlat t ht)).2.1 x hx
  obtain ⟨hRead, hMeant⟩ := i.collapse_means hOp hBuild hLegible hNonempty hAll
  refine ⟨hRead, hMeant.trans ?_⟩
  have hGrouped := hOp.together_flatMap i.inferred (fun t => i.denoteAll (parts t))
    (types.map TypeSpec.flat) fun t ht => by
      rw [denoteAll_eq, ne_eq, List.map_eq_nil_iff]
      exact (hParts t (hFlat t ht)).1
  calc together op i.inferred (i.denoteAll ((types.map TypeSpec.flat).flatMap parts))
      = together op i.inferred ((types.map TypeSpec.flat).flatMap fun t => i.denoteAll (parts t)) := by
        simp only [denoteAll_eq, List.map_flatMap]
    _ = together op i.inferred ((types.map TypeSpec.flat).map i.denote) := by
        rw [← hGrouped]
        exact congrArg _ (List.map_congr_left fun t ht => (hParts t (hFlat t ht)).2.2.symm)
    _ = together op i.inferred (i.denoteAll types) := by
        rw [denoteAll_eq, List.map_map]
        exact congrArg _ (List.map_congr_left fun t ht => (hTypes t ht).2)
    _ = i.denote (build types) := (hBuild types).symm

theorem unionParts_means {t : TypeSpec Unit} (h : (Node.spec t).All Node.Legible) :
    t.unionParts ≠ [] ∧ (∀ x ∈ t.unionParts, (Node.spec x).All Node.Legible) ∧
      i.denote t = together i.join i.inferred (i.denoteAll t.unionParts) := by
  cases t with
  | union m types =>
    refine ⟨?_, fun x hx => h.child (List.mem_map_of_mem hx), by rw [denote]; rfl⟩
    rintro rfl
    exact absurd h.self (by simp [Node.Legible])
  | _ => exact ⟨by simp [TypeSpec.unionParts], by simpa [TypeSpec.unionParts] using h, rfl⟩

theorem interParts_means {t : TypeSpec Unit} (h : (Node.spec t).All Node.Legible) :
    t.interParts ≠ [] ∧ (∀ x ∈ t.interParts, (Node.spec x).All Node.Legible) ∧
      i.denote t = together i.meet i.inferred (i.denoteAll t.interParts) := by
  cases t with
  | inter m types =>
    refine ⟨?_, fun x hx => h.child (List.mem_map_of_mem hx), by rw [denote]; rfl⟩
    rintro rfl
    exact absurd h.self (by simp [Node.Legible])
  | _ => exact ⟨by simp [TypeSpec.interParts], by simpa [TypeSpec.interParts] using h, rfl⟩

theorem denoteAll_flats {ss : List (TypeSpec Unit)} (h : ∀ s ∈ ss, i.Means s.flat s) :
    i.denoteAll (TypeSpec.flats ss) = i.denoteAll ss := by
  rw [TypeSpec.flats_eq, denoteAll_eq, denoteAll_eq, List.map_map]
  exact List.map_congr_left fun s hs => (h s hs).2

mutual

theorem denote_flat (hJoin : Absorbs i.join) (hMeet : Absorbs i.meet) : (s : TypeSpec Unit) →
    (Node.spec s).All Node.Filled → i.Means s.flat s
  | .simple m name args, h => by
    have hArgs := denote_flats hJoin hMeet args fun s hs => h.child (List.mem_map_of_mem hs)
    rw [TypeSpec.flat]
    refine ⟨Node.all_iff.2 ⟨h.self, ?_⟩, by rw [denote, denote, i.denoteAll_flats hArgs]⟩
    rw [TypeSpec.flats_eq]
    exact List.forall_mem_map.2 (List.forall_mem_map.2 fun s hs => (hArgs s hs).1)
  | .union m types, h => by
    rw [TypeSpec.flat]
    refine i.flat_means hJoin (fun _ => by rw [denote]) (fun types hTwo hAll => ?_)
      (fun _ => i.unionParts_means) h.self
      (denote_flats hJoin hMeet types fun s hs => h.child (List.mem_map_of_mem hs))
    exact Node.all_iff.2 ⟨hTwo, List.forall_mem_map.2 hAll⟩
  | .inter m types, h => by
    rw [TypeSpec.flat]
    refine i.flat_means hMeet (fun _ => by rw [denote]) (fun types hTwo hAll => ?_)
      (fun _ => i.interParts_means) h.self
      (denote_flats hJoin hMeet types fun s hs => h.child (List.mem_map_of_mem hs))
    exact Node.all_iff.2 ⟨hTwo, List.forall_mem_map.2 hAll⟩
  | .func m params result, h => by
    have hParams := denote_flats hJoin hMeet params fun s hs =>
      h.child (List.mem_append_left _ (List.mem_map_of_mem hs))
    have hResult := denote_flat hJoin hMeet result (h.child (List.mem_append_right _ List.mem_cons_self))
    rw [TypeSpec.flat]
    refine ⟨Node.all_iff.2 ⟨trivial, ?_⟩, ?_⟩
    · rw [TypeSpec.flats_eq]
      exact List.forall_mem_append.2 ⟨List.forall_mem_map.2 (List.forall_mem_map.2 fun s hs =>
        (hParams s hs).1), List.forall_mem_singleton.2 hResult.1⟩
    · rw [denote, denote, i.denoteAll_flats hParams, hResult.2]
  | .inferred m, h => by
    rw [TypeSpec.flat]
    exact ⟨Node.all_iff.2 ⟨trivial, by simp [Node.children]⟩, rfl⟩

theorem denote_flats (hJoin : Absorbs i.join) (hMeet : Absorbs i.meet) : (ss : List (TypeSpec Unit)) →
    (∀ s ∈ ss, (Node.spec s).All Node.Filled) → ∀ s ∈ ss, i.Means s.flat s
  | [], _ => by simp
  | s :: rest, h => by
    obtain ⟨hs, hRest⟩ := List.forall_mem_cons.1 h
    exact List.forall_mem_cons.2 ⟨denote_flat hJoin hMeet s hs, denote_flats hJoin hMeet rest hRest⟩

end

theorem denote_flatten (hJoin : Absorbs i.join) (hMeet : Absorbs i.meet) {s : TypeSpec Meta}
    (h : (Node.spec s).All Node.Filled) (k : Nat) :
    i.denote (s.flatten k).1 = i.denote s := by
  have hShape : (Node.spec s.shape).All Node.Filled := by
    refine (Node.all_map (f := fun _ => ()) (n := .spec s)).2 (h.mono fun n hn => ?_)
    cases n with
    | spec s =>
      cases s <;> simp_all [Node.map, TypeSpec.map, Node.Filled, TypeSpec.mapList_eq]
    | _ => trivial
  rw [← i.denote_map (fun _ => ()) (s.flatten k).1, ← i.denote_map (fun _ => ()) s]
  have hFlat := s.shape_flatten k
  rw [TypeSpec.shape] at hFlat
  rw [hFlat]
  exact (i.denote_flat hJoin hMeet s.shape hShape).2

end Interpretation

/-- An operation on results that may be faults: the first fault counts. -/
def lifted {ε L : Type*} (op : L → L → L) (x y : Except ε L) : Except ε L := do
  return op (← x) (← y)

theorem Absorbs.lifted {ε L : Type*} {op : L → L → L} (h : Absorbs op) :
    Absorbs (Assay.lifted (ε := ε) op) where
  assoc x y z := by
    cases x <;> cases y <;> cases z <;> first | rfl | exact congrArg Except.ok (h.assoc _ _ _)
  idem x := by
    cases x with
    | error e => rfl
    | ok a => exact congrArg Except.ok (h.idem a)
  again x y := by
    cases x <;> cases y <;> first | rfl | exact congrArg Except.ok (h.again _ _)

theorem together_lifted {ε L : Type*} (op : L → L → L) (none : L) (xs : List (Except ε L)) :
    together (lifted op) (.ok none) xs = (xs.mapM id).map (together op none) := by
  have hFold (x : Except ε L) (rest : List (Except ε L)) :
      rest.foldl (lifted op) x = x >>= fun a => (rest.mapM id).map (·.foldl op a) := by
    induction rest generalizing x with
    | nil => cases x <;> rfl
    | cons y rest ih =>
      rw [List.foldl_cons, ih, List.mapM_cons]
      cases x <;> cases y <;> cases rest.mapM id <;> rfl
  cases xs with
  | nil => rfl
  | cons x rest =>
    rw [together, hFold, List.mapM_cons]
    cases x <;> cases rest.mapM id <;> rfl

namespace Shape

def promised (s : Shape) : Set Text := {sig | sig ∈ signatures s.methods}

theorem promised_unionOf (types : List Shape) :
    (unionOf types).promised = together (· ∪ ·) ∅ (types.map promised) := by
  have hFold (x : Set Text) (xs : List (Set Text)) :
      xs.foldl (· ∪ ·) x = {sig | sig ∈ x ∨ ∃ y ∈ xs, sig ∈ y} := by
    induction xs generalizing x with
    | nil => simp
    | cons y rest ih =>
      ext sig
      simp [ih, or_assoc]
  ext sig
  refine mem_unionOf.trans ?_
  cases types with
  | nil => simp [together]
  | cons s rest => simp [together, hFold, promised]

theorem promised_interOf (types : List Shape) :
    (interOf types).promised = together (· ∩ ·) ∅ (types.map promised) := by
  have hFold (x : Set Text) (xs : List (Set Text)) :
      xs.foldl (· ∩ ·) x = {sig | sig ∈ x ∧ ∀ y ∈ xs, sig ∈ y} := by
    induction xs generalizing x with
    | nil => simp
    | cons y rest ih =>
      ext sig
      simp [ih, and_assoc]
  ext sig
  refine mem_interOf.trans ?_
  cases types with
  | nil => simp [together]
  | cons s rest => simp [together, hFold, promised]

theorem signatures_eq_of_promised {s t : Shape} (h : s.promised = t.promised) :
    signatures s.methods = signatures t.methods := by
  have hs : (signatures s.methods).Pairwise (· < ·) := increasing_methods s
  have ht : (signatures t.methods).Pairwise (· < ·) := increasing_methods t
  refine List.Perm.eq_of_pairwise (fun a b _ _ hab hba => ?_) hs ht ?_
  · exact absurd (List.lt_trans hab hba) (List.lt_irrefl a)
  · exact (List.perm_ext_iff_of_nodup (increasing_methods s).nodup
    (increasing_methods t).nodup).2 fun sig => Set.ext_iff.1 h sig

theorem promised_empty : empty.promised = ∅ := by
  simp [promised, methods, signatures]

/-- The signatures of the shape of a type, as what the type means, where names have the shapes that
`named` gives. -/
def surface (named : Text → Except Fault Shape) : Interpretation (Except Fault (Set Text)) where
  join := lifted (· ∪ ·)
  meet := lifted (· ∩ ·)
  simple name _ := (named name).map promised
  func _ _ := .ok ∅
  inferred := .ok ∅

mutual

theorem ofSpecBy_surface (named : Path → Text → Except Fault Shape) (path : Path) :
    (s : TypeSpec Meta) → (ofSpecBy named path s).map promised = (surface (named path)).denote s
  | .simple _ name args => by
    rw [ofSpecBy, Interpretation.denote]
    rfl
  | .union _ types => by
    have hTypes := ofSpecsBy_surface named path types
    rw [ofSpecBy, Interpretation.denote]
    refine Eq.trans ?_ (together_lifted (· ∪ ·) ∅ _).symm
    rw [← hTypes]
    cases ofSpecsBy named path types with
    | error f => rfl
    | ok shapes => exact congrArg Except.ok (promised_unionOf shapes)
  | .inter _ types => by
    have hTypes := ofSpecsBy_surface named path types
    rw [ofSpecBy, Interpretation.denote]
    refine Eq.trans ?_ (together_lifted (· ∩ ·) ∅ _).symm
    rw [← hTypes]
    cases ofSpecsBy named path types with
    | error f => rfl
    | ok shapes => exact congrArg Except.ok (promised_interOf shapes)
  | .func .. => by
    rw [ofSpecBy, Interpretation.denote]
    exact congrArg Except.ok promised_empty
  | .inferred _ => by
    rw [ofSpecBy, Interpretation.denote]
    exact congrArg Except.ok promised_empty

theorem ofSpecsBy_surface (named : Path → Text → Except Fault Shape) (path : Path) :
    (ss : List (TypeSpec Meta)) → (ofSpecsBy named path ss).map (List.map promised) =
      ((surface (named path)).denoteAll ss).mapM id
  | [] => rfl
  | s :: rest => by
    rw [ofSpecsBy, Interpretation.denoteAll, List.mapM_cons, ← ofSpecsBy_surface named path rest, id,
      ← ofSpecBy_surface named path s]
    cases ofSpecBy named path s with
    | error f => rfl
    | ok shape => cases ofSpecsBy named path rest <;> rfl

end

end Shape

namespace TypeSpec

/-- To flatten a type keeps its meaning in every lattice in which unions are joins and intersections
are meets, whatever the other types mean, and in every scope the methods of its shape. -/
theorem flattening_keeps_meaning {s : TypeSpec Meta} (h : (Node.spec s).All Node.Filled) (k : Nat) :
    (∀ (L : Type*) [Lattice L] (simple : Text → List L → L) (func : List L → L → L) (inferred : L),
      let i : Interpretation L := ⟨(· ⊔ ·), (· ⊓ ·), simple, func, inferred⟩
      i.denote (flatten s k).1 = i.denote s) ∧
    ∀ (st : Store) (path : Path),
      (Shape.ofSpec st path (flatten s k).1).map (fun t => t.methods.map Member.signature) =
        (Shape.ofSpec st path s).map fun t => t.methods.map Member.signature := by
  refine ⟨?_, fun st path => ?_⟩
  · intro L _ simple func inferred i
    exact i.denote_flatten .sup .inf h k
  have hSame : (Shape.ofSpec st path (flatten s k).1).map Shape.promised =
      (Shape.ofSpec st path s).map Shape.promised := by
    rw [Shape.ofSpec, Shape.ofSpec, Shape.ofSpecBy_surface, Shape.ofSpecBy_surface]
    exact Interpretation.denote_flatten _ (Absorbs.lifted .sup) (Absorbs.lifted .inf) h k
  cases hNew : Shape.ofSpec st path (flatten s k).1 <;> cases hOld : Shape.ofSpec st path s <;>
    rw [hNew, hOld] at hSame
  · exact congrArg Except.error (Except.error.inj hSame)
  · cases hSame
  · cases hSame
  · exact congrArg Except.ok (Shape.signatures_eq_of_promised (Except.ok.inj hSame))

def doubled : TypeSpec Meta :=
  let m : Meta := ⟨0, none, none⟩
  let a : TypeSpec Meta := .simple m "p.A" []
  .union m [.inter m [a, a], .union m [.simple m "p.B" [], .simple m "p.A" [.union m [a, a]]]]

def namesIn : Interpretation (Set Text) :=
  ⟨fun x y => x ⊔ y, fun x y => x ⊓ y, fun name args => args.foldl (· ∪ ·) {name}, fun _ x => x, ∅⟩

theorem flattening_keeps_meaning_of_doubled :
    (flatten doubled 1).1.toText = "(p.A | p.B | p.A[p.A])" ∧
    namesIn.denote (flatten doubled 1).1 = namesIn.denote doubled ∧
    (Shape.ofSpec .empty [] (flatten doubled 1).1).map (fun t => t.methods.map Member.signature) =
      (Shape.ofSpec .empty [] doubled).map fun t => t.methods.map Member.signature := by
  have hFilled : (Node.spec doubled).All Node.Filled := by
    simp only [doubled, Node.All, Node.nodes_eq, Node.children, List.forall_mem_cons,
      List.flatMap_cons, List.flatMap_nil, List.map_cons, List.map_nil, List.cons_append,
      List.nil_append, List.append_nil, List.not_mem_nil, false_implies, implies_true, and_true,
      Node.Filled]
    decide +kernel
  obtain ⟨hLattice, hMethods⟩ := flattening_keeps_meaning hFilled 1
  exact ⟨by decide +kernel, hLattice _ _ _ _, hMethods .empty []⟩

end TypeSpec

end Assay
