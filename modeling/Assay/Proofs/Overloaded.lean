import Mathlib
import Assay.Proofs.Keys

/-! Overload sets. A method is declared under its name and the texts of its parameter types, and
called under its name and one placeholder per argument. Both names have the same normal form exactly
if a call with this name and this number of arguments can mean the method, and normal forms are
left as they are by normalizing. -/

namespace Assay

namespace Text

/-- Whether a text has at least one rune and only runes of words and dots: `A`, `a.B`, but also `1`
and `..`. -/
def isNamelike (t : Text) : Bool :=
  !t.isEmpty && (Rune.ofText t).all fun r => r.isWord || r = 46

theorem not_mem_of_isNamelike {t : Text} (h : isNamelike t) {c : UInt8} (hc : c < 0x80)
    (hMark : Rune.isWord c.toNat = false) (hDot : c.toNat ≠ 46) : c ∉ t := by
  intro hMem
  rw [isNamelike, Bool.and_eq_true, List.all_eq_true] at h
  have hRune := h.2 c.toNat (Rune.mem_ofText_of_byte hc hMem)
  rw [hMark, Bool.false_or, decide_eq_true_eq] at hRune
  exact hDot hRune

theorem isSpace_eq_false_of_isWord {r : Rune} (h : r.isWord) : r.isSpace = false := by
  have hSpaces : ∀ r ∈ Rune.spaces, Rune.isWord r = false := by decide +kernel
  by_contra hs
  rw [Bool.not_eq_false] at hs
  rw [hSpaces r (Rune.mem_spaces hs)] at h
  exact absurd h Bool.false_ne_true

theorem ofText_append_of_ne {b : UInt8} {t : Text} (h : (Rune.decode b t).1 ≠ Rune.replacement)
    (s : Text) : ∃ rest, Rune.ofText (b :: t ++ s) = (Rune.decode b t).1 :: rest := by
  have he : Rune.encoded? b t = some (Rune.decode b t) := by
    unfold Rune.decode at h ⊢
    cases he : Rune.encoded? b t with
    | none =>
      rw [he] at h
      exact absurd rfl h
    | some rw => rfl
  have hText : b :: t ++ s =
      b :: (t.take ((Rune.decode b t).2 - 1) ++ (t.drop ((Rune.decode b t).2 - 1) ++ s)) := by
    rw [← List.append_assoc, List.take_append_drop, List.cons_append]
  rw [hText, Rune.ofText_encoded (r := (Rune.decode b t).1) (w := (Rune.decode b t).2) he]
  exact ⟨_, rfl⟩

theorem isBlank_append_of_isNamelike {t : Text} (h : isNamelike t) (s : Text) :
    isBlank (t ++ s) = false := by
  rw [isNamelike, Bool.and_eq_true, List.all_eq_true] at h
  cases t with
  | nil => simp at h
  | cons b t =>
    have hFirst := h.2 (Rune.decode b t).1 (by rw [Rune.ofText]; exact List.mem_cons_self)
    have hSpace : Rune.isSpace (Rune.decode b t).1 = false := by
      rw [Bool.or_eq_true, decide_eq_true_eq] at hFirst
      obtain hWord | hDot := hFirst
      · exact isSpace_eq_false_of_isWord hWord
      · rw [hDot]
        decide +kernel
    have hNe : (Rune.decode b t).1 ≠ Rune.replacement := by
      intro hEq
      rw [hEq] at hFirst
      exact absurd hFirst (by decide +kernel)
    obtain ⟨rest, hRest⟩ := ofText_append_of_ne hNe s
    rw [isBlank, hRest, List.all_cons, hSpace, Bool.false_and]

theorem Single.namelike {t : Text} (h : isNamelike t) : Single t where
  skip := by
    intro depth rest _
    apply go_plain
    intro b hb
    refine ⟨?_, ?_, ?_, ?_, ?_⟩ <;> rintro rfl <;>
      exact not_mem_of_isNamelike h (by decide) (by decide +kernel) (by decide) hb
  solid := isBlank_append_of_isNamelike h

end Text

/-- The name of a type is made of the runes of words and of dots. -/
def Node.Namelike {α : Type} : Node α → Prop
  | .spec (.simple _ name _) => Text.isNamelike name
  | _ => True

theorem Node.Namelike.single {α : Type} {n : Node α} (h : n.Namelike) : n.Single := by
  cases n with
  | spec s =>
    cases s with
    | simple _ name _ => exact .namelike h
    | _ => trivial
  | _ => trivial

namespace Name

theorem not_mem_base (t : Text) :
    40 ∉ (ofText t).simple.takeWhile (· != 40) ∧ 46 ∉ (ofText t).simple.takeWhile (· != 40) := by
  have hLast : (Text.splitOn 46 (t.takeWhile (· != 40))).getLastD [] ∈
      Text.splitOn 46 (t.takeWhile (· != 40)) := by
    rw [List.getLastD_eq_getLast?, List.getLast?_eq_some_getLast (Text.splitOn_ne_nil _ _)]
    exact List.getLast_mem _
  have hParen : 40 ∉ t.takeWhile (· != 40) := by
    intro h
    simpa using List.mem_takeWhile_imp h
  have hAll : ∀ b ∈ (Text.splitOn 46 (t.takeWhile (· != 40))).getLastD [], (b != 40) = true := by
    intro b hb
    rw [bne_iff_ne]
    rintro rfl
    exact not_mem_getLastD_splitOn hParen hb
  -- The rest of the text is empty or starts with the parenthesis.
  have hRest : (t.dropWhile (· != 40)).takeWhile (· != 40) = [] := by
    cases h : t.dropWhile (· != 40) with
    | nil => rfl
    | cons b rest =>
      have hHead := List.head_dropWhile_not (· != 40) (l := t) (by simp [h])
      simp only [h, List.head_cons] at hHead
      rw [List.takeWhile_cons, hHead]
      rfl
  have hBase : (ofText t).simple.takeWhile (· != 40) =
      (Text.splitOn 46 (t.takeWhile (· != 40))).getLastD [] := by
    rw [ofText, List.takeWhile_append_of_pos hAll, hRest, List.append_nil]
  rw [hBase]
  exact ⟨not_mem_getLastD_splitOn hParen, Text.not_mem_of_mem_splitOn hLast⟩

theorem normalized_eq_callName {name : Name} {k : Text} (hMethod : name.isMethod)
    (h : name.normalized = .ok k) : ∃ n, k = callName (name.simple.takeWhile (· != 40)) n := by
  rw [normalized, if_pos hMethod] at h
  split at h
  · rename_i last rest hSimple
    simp only at h
    split at h
    · refine ⟨0, ?_⟩
      rw [callName_zero]
      exact (Except.ok.inj h).symm
    · refine ⟨arity (last :: rest).dropLast - 1 + 1, ?_⟩
      rw [callName_succ]
      exact (Except.ok.inj h).symm
  · simp at h

end Name

/-- The name that a method is declared under has no part but itself, it is the name of a method, and
it has the normal form of a call, as the name of the call has, exactly if the call is one of this
method's name with as many arguments as the method has parameters. The normal form of the name of a
method, where there is one, is its own normal form. -/
theorem normalized_symbolName_eq_callName_iff {α β : Type} (sig : Signature α)
    (hName : Text.isWord sig.name)
    (hTypes : ∀ p ∈ sig.params, (Node.spec p.spec).All Node.Namelike) :
    (Name.ofText sig.symbolName).isQualified = false ∧
    (Name.ofText sig.symbolName).isMethod = true ∧
    (∀ (ref : Reference β) (args : List (Value β)),
      (Name.ofText sig.symbolName).normalized =
          (Name.ofText (callName ref.name args.length)).normalized ∧
        (Name.ofText (callName ref.name args.length)).normalized =
          .ok (callName ref.name args.length) ↔
      sig.name = ref.name ∧ sig.params.length = args.length) ∧
    ∀ t k, (Name.ofText t).isMethod → (Name.ofText t).normalized = .ok k →
      (Name.ofText k).normalized = .ok k := by
  obtain ⟨hParen, hDot⟩ := Name.not_mem_of_isWord hName
  have hSingle := Signature.single_params fun p hp =>
    (hTypes p hp).mono fun _ => Node.Namelike.single
  obtain ⟨hOf, hMethod, hNormal⟩ := Name.normalized_of_single hParen hDot _ hSingle
  change Name.ofText sig.symbolName = _ at hOf
  change (Name.ofText sig.symbolName).isMethod = true at hMethod
  change (Name.ofText sig.symbolName).normalized = _ at hNormal
  rw [List.length_map] at hNormal
  refine ⟨by rw [hOf]; rfl, hMethod, fun ref args => ?_, fun t k ht hk => ?_⟩
  · constructor
    · rintro ⟨hSame, hCall⟩
      rw [hCall, hNormal, Except.ok.injEq] at hSame
      exact (Name.callName_inj hParen).1 hSame
    · rintro ⟨hRef, hLength⟩
      rw [← hRef, ← hLength, hNormal]
      exact ⟨(Name.normalized_callName hParen hDot _).symm, Name.normalized_callName hParen hDot _⟩
  · obtain ⟨n, rfl⟩ := Name.normalized_eq_callName ht hk
    obtain ⟨hParen, hDot⟩ := Name.not_mem_base t
    exact Name.normalized_callName hParen hDot n

/-- A method with two parameters, `f(g: (a.B[C, ..] & 1, [inferred]): (D | E), h: ())`. -/
def twoTyped : Signature Unit :=
  ⟨(), .everywhere, "f", [],
    [⟨(), "g", .func () [.inter () [.simple () "a.B" [.simple () "C" [], .simple () ".." []],
        .simple () "1" []], .inferred ()] (.union () [.simple () "D" [], .simple () "E" []])⟩,
      ⟨(), "h", .union () []⟩], .inferred ()⟩

theorem twoTyped_callName :
    (Name.ofText twoTyped.symbolName).normalized = .ok (Text.ofString "f(_,_)") := by
  have hTypes : ∀ p ∈ twoTyped.params, (Node.spec p.spec).All Node.Namelike := by
    simp only [twoTyped, Node.All, Node.nodes_eq, Node.children, List.forall_mem_cons,
      List.flatMap_cons, List.flatMap_nil, List.map_cons, List.map_nil, List.cons_append,
      List.nil_append, List.append_nil, List.not_mem_nil, false_implies, implies_true, true_and,
      and_true, Node.Namelike]
    decide +kernel
  have h := (normalized_symbolName_eq_callName_iff (β := Unit) twoTyped (by decide +kernel)
    hTypes).2.2.1 ⟨(), "f", true⟩ [.nothing (), .nothing ()]
  obtain ⟨hSame, hCall⟩ := h.2 ⟨rfl, rfl⟩
  rw [hSame, hCall]
  rfl

end Assay
