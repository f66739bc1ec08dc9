import Mathlib
import Assay.Proofs.Alternatives
import Assay.Proofs.Overloaded

/-! The texts of types can be read in one way only. What is joined stands in parentheses or brackets,
so a separator outside of all of these belongs to what is around the type, and the result of a function
type, which stands in none, ends where the function type does. -/

namespace Assay

variable {sep : Text} {α : Type}

/-- Names are made of the runes of words and of dots, and what is joined by a mark of its own has at
least two parts. -/
def Node.Legible {α : Type} : Node α → Prop
  | .spec (.simple _ name _) => Text.isNamelike name
  | .spec (.union _ types) => 2 ≤ types.length
  | .spec (.inter _ types) => 2 ≤ types.length
  | _ => True

namespace Text

variable {m n a b : Text}

theorem append_inj_of_head {P : UInt8 → Prop} (hm : ∀ c ∈ m, ¬P c) (hn : ∀ c ∈ n, ¬P c)
    (ha : ∀ c ∈ a.head?, P c) (hb : ∀ c ∈ b.head?, P c) (h : m ++ a = n ++ b) : m = n ∧ a = b := by
  rcases List.append_eq_append_iff.1 h with ⟨more, rfl, rfl⟩ | ⟨more, rfl, rfl⟩
  · cases more with
    | nil => simp
    | cons c more => exact absurd (ha c (by simp)) (hn c (by simp))
  · cases more with
    | nil => simp
    | cons c more => exact absurd (hb c (by simp)) (hm c (by simp))

/-- What can follow the text of a type: nothing, or a space, a comma or a closing mark. -/
def Follows (t : Text) : Prop := ∀ c ∈ t.head?, c = 32 ∨ c = 41 ∨ c = 44 ∨ c = 93

/-- The bytes around names: a space, a comma, and the parentheses and brackets. -/
def IsMark (c : UInt8) : Prop := c = 32 ∨ c = 40 ∨ c = 41 ∨ c = 44 ∨ c = 91 ∨ c = 93

theorem Follows.nil : Follows [] := by simp [Follows]

theorem Follows.close {close : UInt8} (h : close = 41 ∨ close = 93) (t : Text) :
    Follows (close :: t) := by
  intro c hc
  obtain rfl : close = c := by simpa using hc
  rcases h with rfl | rfl <;> simp

theorem Follows.isMark (h : Follows a) : ∀ c ∈ a.head?, IsMark c := by
  intro c hc
  rcases h c hc with rfl | rfl | rfl | rfl <;> simp [IsMark]

theorem not_isMark_of_isNamelike (h : isNamelike m) : ∀ c ∈ m, ¬IsMark c := by
  rintro c hc (rfl | rfl | rfl | rfl | rfl | rfl) <;>
    exact not_mem_of_isNamelike h (by decide) (by decide +kernel) (by decide) hc

/-- What stands between types: it starts with a space or a comma. -/
def Separates (sep : Text) : Prop := ∃ first rest, sep = first :: rest ∧ (first = 32 ∨ first = 44)

/-- What stands between the types of a list: of arguments or parameters, of a union, of an
intersection. -/
def separators : List Text := [", ", " | ", " & "]

theorem separates_of_mem (h : sep ∈ separators) : sep.Separates := by
  simp only [separators, List.mem_cons, List.not_mem_nil, or_false] at h
  rcases h with rfl | rfl | rfl
  · exact ⟨44, _, rfl, .inr rfl⟩
  · exact ⟨32, _, rfl, .inl rfl⟩
  · exact ⟨32, _, rfl, .inl rfl⟩

theorem separators_eq {sep' : Text} (h : sep ∈ separators) (h' : sep' ∈ separators) (x y : Text)
    (hEq : sep ++ x = sep' ++ y) : sep = sep' := by
  have hTwo : sep.take 2 = sep'.take 2 := by
    have hTake : ∀ s ∈ separators, ∀ z, (s ++ z).take 2 = s.take 2 := by
      intro s hs z
      simp only [separators, List.mem_cons, List.not_mem_nil, or_false] at hs
      rcases hs with rfl | rfl | rfl <;> rfl
    rw [← hTake sep h x, hEq, hTake sep' h' y]
  have hAll : ∀ s ∈ separators, ∀ s' ∈ separators, s.take 2 = s'.take 2 → s = s' := by decide
  exact hAll sep h sep' h' hTwo

theorem Separates.follows_tail (h : sep.Separates) {close : UInt8}
    (hClose : close = 41 ∨ close = 93) (ts : List Text) (t : Text) :
    Follows (ts.flatMap (sep ++ ·) ++ close :: t) := by
  cases ts with
  | nil => exact .close hClose t
  | cons next more =>
    obtain ⟨first, rest, rfl, hFirst⟩ := h
    intro c hc
    obtain rfl : first = c := by simpa using hc
    rcases hFirst with rfl | rfl <;> simp

end Text

namespace TypeSpec

variable {α β : Type}

theorem toText_head {s : TypeSpec α} (h : (Node.spec s).All Node.Legible) :
    ∃ first rest, s.toText = first :: rest ∧ first ≠ 41 ∧ first ≠ 93 := by
  cases s with
  | simple ann name args =>
    have hName : Text.isNamelike name := h.self
    cases name with
    | nil => exact absurd hName (by decide)
    | cons first rest =>
      have hFirst := Text.not_isMark_of_isNamelike hName first (by simp)
      simp only [Text.IsMark, not_or] at hFirst
      rw [toText]
      split
      · exact ⟨first, rest, rfl, hFirst.2.2.1, hFirst.2.2.2.2.2⟩
      · exact ⟨first, _, by rw [List.cons_append, List.cons_append, List.cons_append], hFirst.2.2.1,
          hFirst.2.2.2.2.2⟩
  | union | inter | func => exact ⟨40, _, by rw [toText]; rfl, by decide, by decide⟩
  | inferred => exact ⟨91, _, rfl, by decide, by decide⟩

theorem toText_simple (ann : α) (name : Text) (args : List (TypeSpec α)) (a : Text) :
    toText (.simple ann name args) ++ a =
      name ++ if args = [] then a else 91 :: (Text.join ", " (texts args) ++ 93 :: a) := by
  rw [toText]
  cases args with
  | nil => simp
  | cons =>
    rw [if_neg (by simp), if_neg (by simp)]
    simp only [List.append_assoc]
    rfl

/-- What a type in parentheses joins, and by what, and the result if it is a function type. -/
def group? : TypeSpec α → Option (Text × List (TypeSpec α) × Option (TypeSpec α))
  | .union _ types => some (" | ", types, none)
  | .inter _ types => some (" & ", types, none)
  | .func _ params result => some (", ", params, some result)
  | _ => none

/-- What stands behind the parentheses of a type. -/
def behind (a : Text) : Option (TypeSpec α) → Text
  | some result => 58 :: 32 :: (result.toText ++ a)
  | none => a

section Group

variable {s : TypeSpec α} {sep : Text} {parts : List (TypeSpec α)} {result : Option (TypeSpec α)}

theorem toText_group (h : s.group? = some (sep, parts, result)) (a : Text) :
    s.toText ++ a = 40 :: (Text.join sep (texts parts) ++ 41 :: behind a result) := by
  cases s <;> cases h <;> simp only [toText, List.append_assoc] <;> rfl

theorem mem_children_of_group (h : s.group? = some (sep, parts, result)) :
    ∀ k ∈ parts ++ result.toList, .spec k ∈ (Node.spec s).children := by
  cases s <;> cases h <;> simp [Node.children]

/-- A union or an intersection has two parts, so that its separator is seen. -/
theorem two_le_of_group (h : s.group? = some (sep, parts, result)) (hs : (Node.spec s).Legible) :
    sep ∈ Text.separators ∧ (2 ≤ parts.length ∨ sep = ", ") := by
  cases s <;> cases h
  · exact ⟨by decide, .inl hs⟩
  · exact ⟨by decide, .inl hs⟩
  · exact ⟨by decide, .inr rfl⟩

end Group

theorem toText_simple_ne {ann : α} {name : Text} {args : List (TypeSpec α)}
    (hName : Text.isNamelike name) {c : UInt8} (hc : c = 40 ∨ c = 91) (a rest : Text) :
    toText (.simple ann name args) ++ a ≠ c :: rest := by
  intro h
  rw [toText_simple] at h
  cases name with
  | nil => exact absurd hName (by decide)
  | cons first more =>
    have hFirst := Text.not_isMark_of_isNamelike hName first (by simp)
    obtain rfl : first = c := by simpa using congrArg List.head? h
    rcases hc with rfl | rfl <;> exact hFirst (by simp [Text.IsMark])

theorem head_of_group?_eq_none {s : TypeSpec α} (h : s.group? = none) (hs : (Node.spec s).Legible)
    (a rest : Text) : s.toText ++ a ≠ 40 :: rest := by
  cases s with
  | simple => exact toText_simple_ne hs (.inl rfl) _ _
  | inferred =>
    intro hEq
    have hFirst : (91 : UInt8) = 40 := Option.some.inj (congrArg List.head? hEq)
    exact absurd hFirst (by decide)
  | _ => exact nomatch h

/-- The text of a type tells it from other types, and ends where the type does. -/
def Tells (β : Type) (s : TypeSpec α) : Prop :=
  ∀ t : TypeSpec β, (Node.spec s).All Node.Legible → (Node.spec t).All Node.Legible → ∀ {a b : Text},
    a.Follows → b.Follows → s.toText ++ a = t.toText ++ b →
      s.map (fun _ => ()) = t.map (fun _ => ()) ∧ a = b

section Lists

variable {ss : List (TypeSpec α)} {ts : List (TypeSpec β)} {sep sep' a b : Text} {close : UInt8}

theorem tail_append_inj (ih : ∀ s ∈ ss, s.Tells β) (hs : ∀ s ∈ ss, (Node.spec s).All Node.Legible)
    (ht : ∀ t ∈ ts, (Node.spec t).All Node.Legible) (hSep : sep.Separates) (hSep' : sep'.Separates)
    (hSame : ∀ x y, sep ++ x = sep' ++ y → sep = sep') (hClose : close = 41 ∨ close = 93)
    (h : (texts ss).flatMap (sep ++ ·) ++ close :: a = (texts ts).flatMap (sep' ++ ·) ++ close :: b) :
    mapList (fun _ => ()) ss = mapList (fun _ => ()) ts ∧ a = b ∧ (ss ≠ [] → sep = sep') := by
  -- What separates types does not start as what closes a list.
  have hNe {sep : Text} (hSep : sep.Separates) {x y : Text} : close :: x ≠ sep ++ y := by
    obtain ⟨first, rest, rfl, hFirst⟩ := hSep
    intro hEq
    have hEq : close = first := (List.cons.inj hEq).1
    rcases hClose with rfl | rfl <;> rcases hFirst with rfl | rfl <;> exact absurd hEq (by decide)
  induction ss generalizing ts with
  | nil =>
    cases ts with
    | nil => exact ⟨rfl, by simpa [texts] using h, fun h => absurd rfl h⟩
    | cons t ts => exact absurd (by simpa [texts] using h) (hNe hSep')
  | cons s ss more =>
    cases ts with
    | nil => exact absurd (by simpa [texts] using h.symm) (hNe hSep)
    | cons t ts =>
      rw [List.forall_mem_cons] at ih hs ht
      simp only [texts, List.flatMap_cons, List.append_assoc] at h
      obtain rfl := hSame _ _ h
      obtain ⟨hFirst, hTail⟩ := ih.1 t hs.1 ht.1 (hSep.follows_tail hClose _ _)
        (hSep'.follows_tail hClose _ _) (List.append_cancel_left h)
      obtain ⟨hMore, hEnd, -⟩ := more ih.2 hs.2 ht.2 hTail
      exact ⟨by rw [mapList, mapList, hFirst, hMore], hEnd, fun _ => rfl⟩

theorem join_append_inj (ih : ∀ s ∈ ss, s.Tells β) (hs : ∀ s ∈ ss, (Node.spec s).All Node.Legible)
    (ht : ∀ t ∈ ts, (Node.spec t).All Node.Legible) (hSep : sep.Separates) (hSep' : sep'.Separates)
    (hSame : ∀ x y, sep ++ x = sep' ++ y → sep = sep') (hClose : close = 41 ∨ close = 93)
    (h : Text.join sep (texts ss) ++ close :: a = Text.join sep' (texts ts) ++ close :: b) :
    mapList (fun _ => ()) ss = mapList (fun _ => ()) ts ∧ a = b ∧ (2 ≤ ss.length → sep = sep') := by
  have hNe {γ : Type} {s : TypeSpec γ} (hs : (Node.spec s).All Node.Legible) {x y : Text} :
      close :: x ≠ s.toText ++ y := by
    obtain ⟨first, rest, hText, hParen, hBracket⟩ := toText_head hs
    rw [hText]
    intro hEq
    have hEq : close = first := (List.cons.inj hEq).1
    rcases hClose with rfl | rfl
    · exact hParen hEq.symm
    · exact hBracket hEq.symm
  cases ss with
  | nil =>
    cases ts with
    | nil => exact ⟨rfl, by simpa [texts, Text.join] using h, by simp⟩
    | cons t ts =>
      rw [texts, texts, Text.join, Text.join_cons, List.append_assoc] at h
      exact absurd h (hNe (ht t List.mem_cons_self))
  | cons s ss =>
    cases ts with
    | nil =>
      rw [texts, texts, Text.join, Text.join_cons, List.append_assoc] at h
      exact absurd h.symm (hNe (hs s List.mem_cons_self))
    | cons t ts =>
      rw [List.forall_mem_cons] at ih hs ht
      rw [texts, texts, Text.join_cons, Text.join_cons, List.append_assoc, List.append_assoc] at h
      obtain ⟨hFirst, hTail⟩ := ih.1 t hs.1 ht.1 (hSep.follows_tail hClose _ _)
        (hSep'.follows_tail hClose _ _) h
      obtain ⟨hMore, hEnd, hSeps⟩ := tail_append_inj ih.2 hs.2 ht.2 hSep hSep' hSame hClose hTail
      refine ⟨by rw [mapList, mapList, hFirst, hMore], hEnd, fun hTwo => hSeps ?_⟩
      rintro rfl
      simp at hTwo

end Lists

theorem tells_simple {ann : α} {name : Text} {args : List (TypeSpec α)}
    (ih : ∀ s ∈ args, s.Tells β) : (TypeSpec.simple ann name args).Tells β := by
  intro t hs ht a b ha hb h
  cases t with
  | simple ann' name' args' =>
    rw [toText_simple, toText_simple] at h
    -- What follows the name is an opening bracket or follows the type.
    have hMark {xs : List Text} {c : Text} (hc : c.Follows) {p : Prop} [Decidable p] :
        ∀ x ∈ (if p then c else 91 :: (Text.join ", " xs ++ 93 :: c)).head?, Text.IsMark x := by
      intro x hx
      split at hx
      · exact hc.isMark x hx
      · obtain rfl : 91 = x := by simpa using hx
        simp [Text.IsMark]
    obtain ⟨rfl, hRest⟩ := Text.append_inj_of_head (Text.not_isMark_of_isNamelike hs.self)
      (Text.not_isMark_of_isNamelike ht.self) (hMark ha) (hMark hb) h
    have hNot {xs : List Text} {c d : Text} (hc : c.Follows) :
        c ≠ 91 :: (Text.join ", " xs ++ 93 :: d) := by
      rintro rfl
      simpa using hc 91 (by simp)
    split at hRest <;> split at hRest
    · rename_i hNil hNil'
      exact ⟨by rw [map, map, hNil, hNil', mapList, mapList], hRest⟩
    · exact absurd hRest (hNot ha)
    · exact absurd hRest.symm (hNot hb)
    · obtain ⟨hMap, hEnd, -⟩ := join_append_inj ih (fun s hs' => hs.child (List.mem_map_of_mem hs'))
        (fun t ht' => ht.child (List.mem_map_of_mem ht')) (Text.separates_of_mem (by decide))
        (Text.separates_of_mem (by decide)) (fun _ _ _ => rfl) (.inr rfl)
        (List.tail_eq_of_cons_eq hRest)
      exact ⟨by rw [map, map, hMap], hEnd⟩
  | inferred => exact absurd h (toText_simple_ne hs.self (.inr rfl) _ _)
  | _ => exact absurd (h.trans (toText_group rfl b)) (head_of_group?_eq_none rfl hs.self _ _)

theorem tells_group {s : TypeSpec α} {parts : List (TypeSpec α)} {result : Option (TypeSpec α)}
    (hGroup : s.group? = some (sep, parts, result)) (ih : ∀ k ∈ parts ++ result.toList, k.Tells β) :
    s.Tells β := by
  intro t hs ht a b ha hb h
  rw [toText_group hGroup] at h
  cases hGroup' : t.group? with
  | none => exact absurd h.symm (head_of_group?_eq_none hGroup' ht.self _ _)
  | some g =>
    obtain ⟨sep', parts', result'⟩ := g
    have hAll : ∀ k ∈ parts ++ result.toList, (Node.spec k).All Node.Legible :=
      fun k hk => hs.child (mem_children_of_group hGroup k hk)
    have hAll' : ∀ k ∈ parts' ++ result'.toList, (Node.spec k).All Node.Legible :=
      fun k hk => ht.child (mem_children_of_group hGroup' k hk)
    rw [List.forall_mem_append] at ih hAll hAll'
    obtain ⟨hSep, hTwo⟩ := two_le_of_group hGroup hs.self
    obtain ⟨hSep', hTwo'⟩ := two_le_of_group hGroup' ht.self
    rw [toText_group hGroup'] at h
    obtain ⟨hMap, hEnd, hSeps⟩ := join_append_inj ih.1 hAll.1 hAll'.1 (Text.separates_of_mem hSep)
      (Text.separates_of_mem hSep') (Text.separators_eq hSep hSep') (.inl rfl)
      (List.tail_eq_of_cons_eq h)
    have hLength : parts.length = parts'.length := by
      simpa [mapList_eq] using congrArg List.length hMap
    obtain rfl : sep = sep' := by
      obtain hTwo | rfl := hTwo
      · exact hSeps hTwo
      · obtain hTwo' | rfl := hTwo'
        · exact hSeps (hLength ▸ hTwo')
        · rfl
    cases s <;> cases hGroup <;> cases t <;> cases hGroup'
    · exact ⟨by rw [map, map, hMap], hEnd⟩
    · exact ⟨by rw [map, map, hMap], hEnd⟩
    · simp only [behind, List.cons.injEq, true_and] at hEnd
      obtain ⟨hResult, hRest⟩ := ih.2 _ (by simp) _ (hAll.2 _ (by simp)) (hAll'.2 _ (by simp)) ha hb
        hEnd
      exact ⟨by rw [map, map, hMap, hResult], hRest⟩

theorem tells (s : TypeSpec α) : s.Tells β := by
  have hNode (n : Node α) : ∀ s, n = .spec s → s.Tells β := by
    induction n using Node.induct with
    | _ n ih =>
      rintro s rfl
      cases hGroup : s.group? with
      | some g => exact tells_group hGroup fun k hk => ih _ (mem_children_of_group hGroup k hk) k rfl
      | none =>
        cases s with
        | simple ann name args => exact tells_simple fun k hk => ih _ (List.mem_map_of_mem hk) k rfl
        | inferred ann =>
          intro t hs ht a b ha hb h
          cases t with
          | simple => exact absurd h.symm (toText_simple_ne ht.self (.inr rfl) _ _)
          | inferred ann' => exact ⟨rfl, List.append_cancel_left h⟩
          | _ => exact absurd (h.trans (toText_group rfl b)) (head_of_group?_eq_none rfl hs.self _ _)
        | _ => exact nomatch hGroup
  exact hNode _ s rfl

end TypeSpec

theorem TypeSpec.texts_eq (ss : List (TypeSpec α)) : texts ss = ss.map toText := by
  induction ss with
  | nil => rfl
  | cons s rest ih => rw [texts, ih, List.map_cons]

theorem Signature.symbolName_eq (f : Signature α) :
    f.symbolName =
      f.name ++ 40 :: (Text.join "," (TypeSpec.texts (f.params.map (·.spec))) ++ 41 :: []) := by
  rw [TypeSpec.texts_eq, List.map_map]
  simp only [symbolName, List.append_assoc]
  rfl

theorem Signature.symbolName_inj {β : Type} {f : Signature α} {g : Signature β}
    (hf : Text.isWord f.name) (hg : Text.isWord g.name)
    (hfs : ∀ p ∈ f.params, (Node.spec p.spec).All Node.Legible)
    (hgs : ∀ p ∈ g.params, (Node.spec p.spec).All Node.Legible) (h : f.symbolName = g.symbolName) :
    f.name = g.name ∧
      f.params.map (·.spec.map fun _ => ()) = g.params.map (·.spec.map fun _ => ()) := by
  have hComma : Text.Separates "," := ⟨44, _, rfl, .inr rfl⟩
  have hParen {name : Text} (hName : Text.isWord name) : ∀ c ∈ name, ¬c = 40 := by
    rintro c hc rfl
    exact (Name.not_mem_of_isWord hName).1 hc
  rw [symbolName_eq, symbolName_eq] at h
  obtain ⟨hName, hRest⟩ := Text.append_inj_of_head (hParen hf) (hParen hg) (by simp) (by simp) h
  obtain ⟨hMap, -, -⟩ := TypeSpec.join_append_inj (fun s _ => s.tells) (List.forall_mem_map.2 hfs)
    (List.forall_mem_map.2 hgs) hComma hComma (fun _ _ _ => rfl) (.inl rfl)
    (List.tail_eq_of_cons_eq hRest)
  rw [TypeSpec.mapList_eq, TypeSpec.mapList_eq, List.map_map, List.map_map] at hMap
  exact ⟨hName, hMap⟩

/-- The texts of types that can be told apart are equal exactly if the types are, but for the annotations
of their nodes; and methods are declared under one name exactly if they have the same name and the same
parameter types. -/
theorem texts_tell_types_apart {α β : Type} :
    (∀ (s : TypeSpec α) (t : TypeSpec β), (Node.spec s).All Node.Legible →
      (Node.spec t).All Node.Legible →
      (s.toText = t.toText ↔ s.map (fun _ => ()) = t.map fun _ => ())) ∧
    ∀ (f : Signature α) (g : Signature β), Text.isWord f.name → Text.isWord g.name →
      (∀ p ∈ f.params, (Node.spec p.spec).All Node.Legible) →
      (∀ p ∈ g.params, (Node.spec p.spec).All Node.Legible) →
      (f.symbolName = g.symbolName ↔ f.name = g.name ∧
        f.params.map (·.spec.map fun _ => ()) = g.params.map (·.spec.map fun _ => ())) := by
  refine ⟨fun s t hs ht => ⟨fun h => ?_, fun h => ?_⟩, fun f g hf hg hfs hgs =>
    ⟨Signature.symbolName_inj hf hg hfs hgs, ?_⟩⟩
  · have hSame : s.toText ++ [] = t.toText ++ [] := by rw [h]
    exact (s.tells t hs ht .nil .nil hSame).1
  · rw [← TypeSpec.toText_map (fun _ => ()) s, h, TypeSpec.toText_map]
  · rintro ⟨hName, hParams⟩
    have hTexts : f.params.map (·.spec.toText) = g.params.map (·.spec.toText) := by
      have h := congrArg (List.map TypeSpec.toText) hParams
      simpa [Function.comp_def, TypeSpec.toText_map] using h
    rw [Signature.symbolName, Signature.symbolName, hName, hTexts]

/-- The type `((): A | B)`: a function that gives an `A`, or a `B`. -/
def functionOrType : TypeSpec Nat :=
  .union 0 [.func 1 [] (.simple 2 "A" []), .simple 3 "B" []]

/-- The type `(): (A | B)`: a function that gives an `A` or a `B`. -/
def functionToEither : TypeSpec Unit :=
  .func () [] (.union () [.simple () "A" [], .simple () "B" []])

theorem texts_tell_function_types_apart :
    functionOrType.toText ≠ functionToEither.toText ∧
      (⟨0, .hidden, "f", [], [⟨4, "x", functionOrType⟩], .inferred 5⟩ : Signature Nat).symbolName ≠
        (⟨(), .hidden, "f", [], [⟨(), "x", functionToEither⟩], .inferred ()⟩ :
          Signature Unit).symbolName := by
  have hOr : (Node.spec functionOrType).All Node.Legible := by
    simp only [functionOrType, Node.All, Node.nodes_eq, Node.children, List.forall_mem_cons,
      List.flatMap_cons, List.flatMap_nil, List.map_cons, List.map_nil, List.cons_append,
      List.nil_append, List.append_nil, List.not_mem_nil, false_implies, implies_true, true_and,
      and_true, Node.Legible]
    decide +kernel
  have hTo : (Node.spec functionToEither).All Node.Legible := by
    simp only [functionToEither, Node.All, Node.nodes_eq, Node.children, List.forall_mem_cons,
      List.flatMap_cons, List.flatMap_nil, List.map_cons, List.map_nil, List.cons_append,
      List.nil_append, List.append_nil, List.not_mem_nil, false_implies, implies_true, true_and,
      and_true, Node.Legible]
    decide +kernel
  have hNe : functionOrType.map (fun _ => ()) ≠ functionToEither.map fun _ => () := by
    intro h
    cases h
  obtain ⟨hTypes, hNames⟩ := texts_tell_types_apart (α := Nat) (β := Unit)
  refine ⟨fun h => hNe ((hTypes _ _ hOr hTo).1 h), fun h => hNe ?_⟩
  have hParams := ((hNames _ _ (by decide +kernel) (by decide +kernel)
    (by simpa using hOr) (by simpa using hTo)).1 h).2
  exact (List.cons.inj hParams).1

end Assay
