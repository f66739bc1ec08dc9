import Mathlib
import Assay.Proofs.Derived
import Assay.Proofs.Legible
import Assay.Proofs.Lexed

/-! The text of a type is read back as that type. Every type is written as one atom: a name, or a
list in parentheses, and what stands inside of these ends where they do. Only the result of a
function type is not enclosed, so it would take in what follows it in a union or an intersection. -/

namespace Assay

open Grammar (forget)

variable {α : Type}

variable {ls rest : List Lexeme} {c : Cursor} {m : Mark} {Q : TypeSpec Extent → Prop} {name : Text}

def TypeSpec.isFunc : TypeSpec α → Bool
  | .func .. => true
  | _ => false

/-- Nothing is left out, names are words between dots, none of them a keyword, and what is joined by
a mark has two parts or more, a function type only as the last of them. -/
def Node.Writable : Node α → Prop
  | .spec (.simple _ name _) =>
    ∀ part ∈ Text.splitOn 46 name, Text.isWord part ∧ Keyword.ofText? part = none
  | .spec (.union _ types) => 2 ≤ types.length ∧ ∀ s ∈ types.dropLast, s.isFunc = false
  | .spec (.inter _ types) => 2 ≤ types.length ∧ ∀ s ∈ types.dropLast, s.isFunc = false
  | .spec (.inferred _) => False
  | _ => True

/-- The lexemes of a name in front of which a dot is written. -/
def dotLexemes (parts : List Text) : List Lexeme :=
  parts.flatMap fun part => [.mark .dot, .ident part]

namespace TypeSpec

mutual

def lexemes : TypeSpec α → List Lexeme
  | .simple _ name args =>
    (dotLexemes (Text.splitOn 46 name)).tail ++ if args.isEmpty then [] else
      .mark .openBracket :: ((tailLexemes .comma args).tail ++ [.mark .closeBracket])
  | .union _ types => .mark .openParen :: ((tailLexemes .bar types).tail ++ [.mark .closeParen])
  | .inter _ types =>
    .mark .openParen :: ((tailLexemes .ampersand types).tail ++ [.mark .closeParen])
  | .func _ params result =>
    .mark .openParen :: ((tailLexemes .comma params).tail ++
      .mark .closeParen :: .mark .colon :: result.lexemes)
  | .inferred _ => []

def tailLexemes (m : Mark) : List (TypeSpec α) → List Lexeme
  | [] => []
  | s :: rest => .mark m :: (s.lexemes ++ tailLexemes m rest)

end

end TypeSpec

namespace Text

/-- A separator is lexed as a mark, and a word may stand in front of it. -/
def Separated (sep : Text) (m : Mark) : Prop :=
  ∀ t ls, Lexes t ls → Bounds (sep ++ t) ∧ Lexes (sep ++ t) (.mark m :: ls)

theorem separated_comma : Separated ", " .comma := by
  intro t ls h
  exact ⟨.mark (m := .comma) (by decide) _, .mark (m := .comma) (by decide) h.space⟩

theorem separated_bar : Separated " | " .bar := by
  intro t ls h
  exact ⟨.space _, .space (.mark (m := .bar) (by decide) h.space)⟩

theorem separated_ampersand : Separated " & " .ampersand := by
  intro t ls h
  exact ⟨.space _, .space (.mark (m := .ampersand) (by decide) h.space)⟩

theorem lexes_words {parts : List Text} {t : Text}
    (hp : ∀ part ∈ parts, isWord part ∧ Keyword.ofText? part = none) (ht : t.Bounds)
    (h : Lexes t ls) :
    Bounds (parts.flatMap (46 :: ·) ++ t) ∧
      Lexes (parts.flatMap (46 :: ·) ++ t) (dotLexemes parts ++ ls) := by
  induction parts with
  | nil => exact ⟨ht, h⟩
  | cons part parts ih =>
    obtain ⟨⟨hWord, hNone⟩, hRest⟩ := List.forall_mem_cons.1 hp
    obtain ⟨hBounds, hLexes⟩ := ih hRest
    have hPart := hLexes.word hWord hBounds
    rw [Lexeme.ofWord, hNone] at hPart
    rw [List.flatMap_cons, List.append_assoc]
    exact ⟨.mark (m := .dot) (by decide) _, .mark (m := .dot) (by decide) hPart⟩

theorem lexes_name {t : Text}
    (hn : ∀ part ∈ splitOn 46 name, isWord part ∧ Keyword.ofText? part = none) (ht : t.Bounds)
    (h : Lexes t ls) : Lexes (name ++ t) ((dotLexemes (splitOn 46 name)).tail ++ ls) := by
  have hJoin := join_splitOn 46 name
  cases hs : splitOn 46 name with
  | nil => exact absurd hs (splitOn_ne_nil _ _)
  | cons part parts =>
    rw [hs] at hn hJoin
    obtain ⟨⟨hWord, hNone⟩, hRest⟩ := List.forall_mem_cons.1 hn
    obtain ⟨hBounds, hLexes⟩ := lexes_words hRest ht h
    have hPart := hLexes.word hWord hBounds
    rw [Lexeme.ofWord, hNone] at hPart
    rw [← hJoin, join_cons, List.append_assoc]
    exact hPart

end Text

namespace TypeSpec

mutual

theorem lexes_toText (s : TypeSpec α) (hs : (Node.spec s).All Node.Writable) {t : Text}
    {ls : List Lexeme} (ht : t.Bounds) (h : t.Lexes ls) :
    Text.Lexes (s.toText ++ t) (s.lexemes ++ ls) := by
  cases s with
  | simple ann name args =>
    have hArgs : ∀ k ∈ args, (Node.spec k).All Node.Writable :=
      fun k hk => hs.child (List.mem_map_of_mem hk)
    rw [toText_simple, lexemes, List.append_assoc]
    cases args with
    | nil => exact Text.lexes_name hs.self ht h
    | cons first more =>
      have hClose := h.mark (m := .closeBracket) (by decide)
      have hList := lexes_join Text.separated_comma (first :: more) hArgs
        (.mark (m := .closeBracket) (by decide) t) hClose
      refine Text.lexes_name hs.self (.mark (m := .openBracket) (by decide) _) ?_
      rw [if_neg (by simp), if_neg (by simp), List.cons_append, List.append_assoc]
      exact hList.mark (m := .openBracket) (by decide)
  | union ann types =>
    have hList := lexes_join Text.separated_bar types
      (fun k hk => hs.child (List.mem_map_of_mem hk)) (.mark (m := .closeParen) (by decide) t)
      (h.mark (m := .closeParen) (by decide))
    rw [toText_group (s := .union ann types) rfl, lexemes, List.cons_append, List.append_assoc]
    exact hList.mark (m := .openParen) (by decide)
  | inter ann types =>
    have hList := lexes_join Text.separated_ampersand types
      (fun k hk => hs.child (List.mem_map_of_mem hk)) (.mark (m := .closeParen) (by decide) t)
      (h.mark (m := .closeParen) (by decide))
    rw [toText_group (s := .inter ann types) rfl, lexemes, List.cons_append, List.append_assoc]
    exact hList.mark (m := .openParen) (by decide)
  | func ann params result =>
    have hResult := lexes_toText result (hs.child (by simp [Node.children])) ht h
    have hColon := hResult.space.mark (m := .colon) (by decide)
    have hList := lexes_join Text.separated_comma params
      (fun k hk => hs.child (by simp [Node.children, hk])) (.mark (m := .closeParen) (by decide) _)
      (hColon.mark (m := .closeParen) (by decide))
    rw [toText_group (s := .func ann params result) rfl, lexemes, List.cons_append, List.append_assoc]
    exact hList.mark (m := .openParen) (by decide)
  | inferred ann => exact absurd hs.self id

theorem lexes_join {sep : Text} {m : Mark} (hSep : Text.Separated sep m) (ss : List (TypeSpec α))
    (hs : ∀ s ∈ ss, (Node.spec s).All Node.Writable) {t : Text} {ls : List Lexeme} (ht : t.Bounds)
    (h : t.Lexes ls) :
    Text.Lexes (Text.join sep (texts ss) ++ t) ((tailLexemes m ss).tail ++ ls) := by
  cases ss with
  | nil => exact h
  | cons s ss =>
    obtain ⟨hFirst, hRest⟩ := List.forall_mem_cons.1 hs
    obtain ⟨hBounds, hLexes⟩ := lexes_tail hSep ss hRest ht h
    rw [texts, Text.join_cons, List.append_assoc, tailLexemes, List.tail_cons, List.append_assoc]
    exact lexes_toText s hFirst hBounds hLexes

theorem lexes_tail {sep : Text} {m : Mark} (hSep : Text.Separated sep m) (ss : List (TypeSpec α))
    (hs : ∀ s ∈ ss, (Node.spec s).All Node.Writable) {t : Text} {ls : List Lexeme} (ht : t.Bounds)
    (h : t.Lexes ls) : Text.Bounds ((texts ss).flatMap (sep ++ ·) ++ t) ∧
      Text.Lexes ((texts ss).flatMap (sep ++ ·) ++ t) (tailLexemes m ss ++ ls) := by
  cases ss with
  | nil => exact ⟨ht, h⟩
  | cons s ss =>
    obtain ⟨hFirst, hRest⟩ := List.forall_mem_cons.1 hs
    obtain ⟨hBounds, hLexes⟩ := lexes_tail hSep ss hRest ht h
    rw [texts, List.flatMap_cons, List.append_assoc, List.append_assoc, tailLexemes,
      List.cons_append, List.append_assoc]
    exact hSep _ _ (lexes_toText s hFirst hBounds hLexes)

end

end TypeSpec

namespace Cursor

/-- A reader ends without an error, in front of the given lexemes. -/
def Gives {β : Type} {n : Nat} (p : Parse β n) (Q : β → Prop) (rest : List Lexeme) : Prop :=
  ∃ r, p = .ok r ∧ Q r.value ∧ r.rest.lexemes = rest

namespace Gives

variable {β γ : Type} {n k : Nat} {p : Parse β n} {P : β → Prop} {Q : γ → Prop}
  {rest ls : List Lexeme}

theorem ok {r : Reply n γ} (hQ : Q r.value) (h : r.rest.lexemes = ls) : Gives (.ok r) Q ls :=
  ⟨r, rfl, hQ, h⟩

theorem bind {f : Reply n β → Parse γ k} (hp : Gives p P rest)
    (hf : ∀ x c h, P x → c.lexemes = rest → Gives (f ⟨x, c, h⟩) Q ls) : Gives (p >>= f) Q ls := by
  obtain ⟨⟨x, c, h⟩, rfl, hP, hRest⟩ := hp
  exact hf x c h hP hRest

end Gives

theorem mark?_of_lexemes (h : c.lexemes = .mark m :: ls) :
    ∃ t c' h, c.mark? m = some ⟨t, c', h⟩ ∧ c'.lexemes = ls := by
  cases hMark : c.mark? m with
  | some r => exact ⟨_, _, r.lt, rfl, (List.cons.inj ((mark?_eq_some hMark).2.symm.trans h)).2⟩
  | none => exact absurd (by rw [h]; rfl) (take?_eq_none hMark)

theorem mark?_of_head (h : c.lexemes.head? ≠ some (.mark m)) : c.mark? m = none := by
  cases hMark : c.mark? m with
  | some r => exact absurd (by rw [(mark?_eq_some hMark).2]; rfl) h
  | none => rfl

theorem mark_gives (h : c.lexemes = .mark m :: ls) : Gives (c.mark m) (fun _ => True) ls := by
  obtain ⟨t, c', hlt, hMark, hRest⟩ := mark?_of_lexemes h
  exact ⟨⟨t, c', hlt⟩, by rw [mark, hMark], trivial, hRest⟩

theorem ident_gives (h : c.lexemes = .ident name :: ls) : Gives c.ident (·.1 = name) ls := by
  unfold ident
  cases hPop : c.pop? with
  | none =>
    rw [pop?_eq_none hPop] at h
    cases h
  | some r =>
    obtain ⟨t, c₁, hlt⟩ := r
    obtain ⟨hLexeme, hRest⟩ := List.cons.inj ((pop?_eq_some hPop).2.symm.trans h)
    have hLexeme : t.lexeme = .ident name := hLexeme
    simp only [hLexeme]
    exact .ok rfl hRest

theorem moreName_gives {parts : List Text} (name : Text) (t : Token) (c : Cursor)
    (h : c.lexemes = dotLexemes parts ++ rest) (hRest : rest.head? ≠ some (.mark .dot)) :
    (moreName name t c).value.1 = name ++ parts.flatMap (46 :: ·) ∧
      (moreName name t c).rest.lexemes = rest := by
  induction parts generalizing name t c with
  | nil =>
    have hNone : c.dotIdent? = none := by
      rw [dotIdent?, mark?_of_head (by rw [h]; exact hRest)]
    rw [moreName]
    simp only [hNone]
    exact ⟨(List.append_nil _).symm, h⟩
  | cons part parts ih =>
    obtain ⟨_, c₁, hlt₁, hDot, hLeft₁⟩ := mark?_of_lexemes h
    obtain ⟨⟨⟨_, t'⟩, c₂, hlt₂⟩, hIdent, hPart, hLeft₂⟩ := ident_gives hLeft₁
    have hSome : c.dotIdent? = some ⟨(part, t'), c₂, by omega⟩ := by
      rw [dotIdent?, hDot]
      simp only [hIdent]
      simpa using hPart
    obtain ⟨hName, hLeft⟩ := ih (name ++ "." ++ part) t' c₂ hLeft₂
    rw [moreName]
    simp only [hSome]
    refine ⟨hName.trans ?_, hLeft⟩
    simp only [List.flatMap_cons, List.append_assoc]
    rfl

/-- Wherever it meets the first list, the reader takes it up to the second one, and what it gives
satisfies `Q`. -/
def Obtains {β : Type} {k : Cursor → Nat} (p : (c : Cursor) → Parse β (k c)) (Q : β → Prop)
    (ls rest : List Lexeme) : Prop :=
  ∀ c, c.lexemes = ls → Gives (p c) Q rest

section Obtains

variable {ls' : List Lexeme} {N : Text × Token → Prop} {P : TypeSpec Extent → Prop}
  {L L' : List (TypeSpec Extent) → Prop}

theorem qualifiedName_obtains (first : Text) (parts : List Text) (h : rest.head? ≠ some (.mark .dot)) :
    Obtains qualifiedName (·.1 = first ++ parts.flatMap (46 :: ·))
      (.ident first :: (dotLexemes parts ++ rest)) rest := by
  intro c hc
  unfold qualifiedName
  refine (ident_gives hc).bind ?_
  rintro ⟨name, t⟩ c₁ hlt₁ rfl hLeft
  obtain ⟨hName, hEnd⟩ := moreName_gives name t c₁ hLeft h
  exact .ok hName hEnd

theorem qualifiedName_obtains_parts (name : Text) (h : rest.head? ≠ some (.mark .dot)) :
    Obtains qualifiedName (·.1 = name) ((dotLexemes (Text.splitOn 46 name)).tail ++ rest) rest := by
  have hJoin := Text.join_splitOn 46 name
  cases hs : Text.splitOn 46 name with
  | nil => exact absurd hs (Text.splitOn_ne_nil _ _)
  | cons part parts =>
    rw [hs, Text.join_cons] at hJoin
    exact hJoin ▸ qualifiedName_obtains part parts h

theorem head_of_qualifiedName {r : Reply c.left (Text × Token)} (h : c.qualifiedName = .ok r) :
    ∃ name, c.lexemes.head? = some (.ident name) := by
  have hReads := ident_reads c
  unfold qualifiedName at h
  cases hi : c.ident with
  | error e =>
    rw [hi] at h
    cases h
  | ok r =>
    rw [hi] at hReads
    exact ⟨r.value.1, by rw [hReads.2.lexemes]; rfl⟩

theorem mark?_of_qualifiedName {r : Reply c.left (Text × Token)} (h : c.qualifiedName = .ok r) :
    c.mark? .openParen = none := by
  obtain ⟨name, hName⟩ := head_of_qualifiedName h
  exact mark?_of_head (by rw [hName]; simp)

theorem typeAtom_of_name (hName : Obtains qualifiedName N ls rest)
    (hRest : rest.head? ≠ some (.mark .openBracket))
    (hQ : ∀ m x, N x → Q (.simple m x.1 []) := by simp) : Obtains typeAtom Q ls rest := by
  intro c hc
  obtain ⟨r, hr, -, -⟩ := hName c hc
  rw [typeAtom]
  simp only [mark?_of_qualifiedName hr]
  refine (hName c hc).bind ?_
  rintro ⟨name, t⟩ c₁ hlt₁ hN hLeft
  simp only [mark?_of_head (show c₁.lexemes.head? ≠ some (.mark .openBracket) by rwa [hLeft])]
  exact .ok (hQ _ _ hN) hLeft

theorem typeAtom_of_args (hName : Obtains qualifiedName N ls (.mark .openBracket :: ls'))
    (hArgs : Obtains typeArgs L ls' (.mark .closeBracket :: rest))
    (hQ : ∀ m x args, N x → L args → Q (.simple m x.1 args) := by simp) :
    Obtains typeAtom Q ls rest := by
  intro c hc
  obtain ⟨r, hr, -, -⟩ := hName c hc
  rw [typeAtom]
  simp only [mark?_of_qualifiedName hr]
  refine (hName c hc).bind ?_
  rintro ⟨name, t⟩ c₁ hlt₁ hN hLeft
  obtain ⟨_, c₂, hlt₂, hBracket, hc₂⟩ := mark?_of_lexemes hLeft
  simp only [hBracket]
  refine (hArgs c₂ hc₂).bind fun args c₃ hlt₃ hL hLeft => ?_
  exact (mark_gives hLeft).bind fun _ c₄ hlt₄ _ hLeft => .ok (hQ _ _ _ hN hL) hLeft

theorem typeAtom_of_group (hList : Obtains typeList L ls (.mark .closeParen :: rest))
    (hRest : rest.head? ≠ some (.mark .colon))
    (hQ : ∀ types, L types → ∃ s, types = [s] ∧ Q s := by simp [List.length_eq_one_iff]) :
    Obtains typeAtom Q (.mark .openParen :: ls) rest := by
  intro c hc
  obtain ⟨_, c₁, hlt₁, hOpen, hc₁⟩ := mark?_of_lexemes hc
  rw [typeAtom]
  simp only [hOpen]
  refine (hList c₁ hc₁).bind fun types c₂ hlt₂ hL hLeft => ?_
  obtain ⟨one, rfl, hOne⟩ := hQ types hL
  refine (mark_gives hLeft).bind fun _ c₃ hlt₃ _ hLeft => ?_
  simp only [mark?_of_head (show c₃.lexemes.head? ≠ some (.mark .colon) by rwa [hLeft])]
  exact .ok hOne hLeft

theorem typeAtom_of_func
    (hList : Obtains typeList L ls (.mark .closeParen :: .mark .colon :: ls'))
    (hResult : Obtains typeSpec P ls' rest)
    (hQ : ∀ m types s, L types → P s → Q (.func m types s) := by simp) :
    Obtains typeAtom Q (.mark .openParen :: ls) rest := by
  intro c hc
  obtain ⟨_, c₁, hlt₁, hOpen, hc₁⟩ := mark?_of_lexemes hc
  rw [typeAtom]
  simp only [hOpen]
  refine (hList c₁ hc₁).bind fun types c₂ hlt₂ hL hLeft => ?_
  refine (mark_gives hLeft).bind fun _ c₃ hlt₃ _ hLeft => ?_
  obtain ⟨_, c₄, hlt₄, hColon, hc₄⟩ := mark?_of_lexemes hLeft
  simp only [hColon]
  exact (hResult c₄ hc₄).bind fun result c₅ hlt₅ hP hLeft => .ok (hQ _ _ _ hL hP) hLeft

theorem moreInter_of_head (h : c.lexemes.head? ≠ some (.mark .ampersand)) :
    c.moreInter = .ok ⟨[], c, Nat.lt_succ_self _⟩ := by
  rw [moreInter]
  simp only [mark?_of_head h]
  rfl

theorem moreUnion_of_head (h : c.lexemes.head? ≠ some (.mark .bar)) :
    c.moreUnion = .ok ⟨[], c, Nat.lt_succ_self _⟩ := by
  rw [moreUnion]
  simp only [mark?_of_head h]
  rfl

theorem moreInter_none (h : rest.head? ≠ some (.mark .ampersand)) (hL : L [] := by simp) :
    Obtains moreInter L rest rest := by
  intro c hc
  exact ⟨_, moreInter_of_head (by rwa [hc]), hL, hc⟩

theorem moreUnion_none (h : rest.head? ≠ some (.mark .bar)) (hL : L [] := by simp) :
    Obtains moreUnion L rest rest := by
  intro c hc
  exact ⟨_, moreUnion_of_head (by rwa [hc]), hL, hc⟩

theorem moreInter_more (hFirst : Obtains typeAtom P ls ls') (hMore : Obtains moreInter L ls' rest)
    (hL' : ∀ s ss, P s → L ss → L' (s :: ss) := by simp) :
    Obtains moreInter L' (.mark .ampersand :: ls) rest := by
  intro c hc
  obtain ⟨_, c₁, hlt₁, hMark, hc₁⟩ := mark?_of_lexemes hc
  rw [moreInter]
  simp only [hMark]
  refine (hFirst c₁ hc₁).bind fun first c₂ hlt₂ hP hLeft => ?_
  exact (hMore c₂ hLeft).bind fun more c₃ hlt₃ hL hLeft => .ok (hL' _ _ hP hL) hLeft

theorem moreUnion_more (hFirst : Obtains intersection P ls ls') (hMore : Obtains moreUnion L ls' rest)
    (hL' : ∀ s ss, P s → L ss → L' (s :: ss) := by simp) :
    Obtains moreUnion L' (.mark .bar :: ls) rest := by
  intro c hc
  obtain ⟨_, c₁, hlt₁, hMark, hc₁⟩ := mark?_of_lexemes hc
  rw [moreUnion]
  simp only [hMark]
  refine (hFirst c₁ hc₁).bind fun first c₂ hlt₂ hP hLeft => ?_
  exact (hMore c₂ hLeft).bind fun more c₃ hlt₃ hL hLeft => .ok (hL' _ _ hP hL) hLeft

theorem intersection_obtains (hFirst : Obtains typeAtom P ls ls') (hMore : Obtains moreInter L ls' rest)
    (hOne : ∀ s, P s → L [] → Q s := by simp)
    (hMany : ∀ m s ss, P s → L ss → Q (.inter m (s :: ss)) := by simp) :
    Obtains intersection Q ls rest := by
  intro c hc
  rw [intersection]
  refine (hFirst c hc).bind fun first c₁ hlt₁ hP hLeft => ?_
  dsimp only
  by_cases hAt : c₁.isAt .ampersand
  · rw [if_pos hAt]
    exact (hMore c₁ hLeft).bind fun more c₂ hlt₂ hL hLeft => .ok (hMany _ _ _ hP hL) hLeft
  · rw [if_neg hAt]
    obtain ⟨r, hr, hL, hEnd⟩ := hMore c₁ hLeft
    rw [moreInter_of_head fun h => hAt (isAt_iff.2 h)] at hr
    cases hr
    exact .ok (hOne _ hP hL) hEnd

theorem typeSpec_obtains (hFirst : Obtains intersection P ls ls') (hMore : Obtains moreUnion L ls' rest)
    (hOne : ∀ s, P s → L [] → Q s := by simp)
    (hMany : ∀ m s ss, P s → L ss → Q (.union m (s :: ss)) := by simp) :
    Obtains typeSpec Q ls rest := by
  intro c hc
  rw [typeSpec]
  refine (hFirst c hc).bind fun first c₁ hlt₁ hP hLeft => ?_
  dsimp only
  by_cases hAt : c₁.isAt .bar
  · rw [if_pos hAt]
    exact (hMore c₁ hLeft).bind fun more c₂ hlt₂ hL hLeft => .ok (hMany _ _ _ hP hL) hLeft
  · rw [if_neg hAt]
    obtain ⟨r, hr, hL, hEnd⟩ := hMore c₁ hLeft
    rw [moreUnion_of_head fun h => hAt (isAt_iff.2 h)] at hr
    cases hr
    exact .ok (hOne _ hP hL) hEnd

theorem typeSpec_head (hm : m ≠ .openParen) {r : Reply c.left (TypeSpec Extent)}
    (h : c.typeSpec = .ok r) : ¬c.isAt m := by
  intro hAt
  rw [isAt_iff] at hAt
  have hOpen : c.mark? .openParen = none := mark?_of_head (by
    rw [hAt]
    rintro ⟨⟩
    exact hm rfl)
  have hAtom : ∃ e, c.typeAtom = .error e := by
    rw [typeAtom]
    simp only [hOpen]
    cases hName : c.qualifiedName with
    | error e => exact ⟨e, rfl⟩
    | ok r =>
      obtain ⟨name, hHead⟩ := head_of_qualifiedName hName
      rw [hHead] at hAt
      cases hAt
  obtain ⟨e, he⟩ := hAtom
  rw [typeSpec, intersection, he] at h
  cases h

theorem lists_none (rest : List Lexeme) (hL : L [] := by simp) :
    Obtains typeList L (.mark .closeParen :: rest) (.mark .closeParen :: rest) := by
  intro c hc
  rw [typeList, if_pos (by rw [isAt_iff, hc]; rfl)]
  exact .ok hL hc

theorem lists_one (hFirst : Obtains typeSpec P ls rest) (hRest : rest.head? ≠ some (.mark .comma))
    (hL : ∀ s, P s → L [s] := by simp) : Obtains typeList L ls rest := by
  intro c hc
  obtain ⟨r, hr, -, -⟩ := hFirst c hc
  rw [typeList, if_neg (typeSpec_head (by decide) hr)]
  refine (hFirst c hc).bind fun first c₁ hlt₁ hP hLeft => ?_
  simp only [mark?_of_head (show c₁.lexemes.head? ≠ some (.mark .comma) by rwa [hLeft])]
  exact .ok (hL _ hP) hLeft

theorem lists_more (hFirst : Obtains typeSpec P ls (.mark .comma :: ls'))
    (hMore : Obtains typeList L ls' rest) (hL' : ∀ s ss, P s → L ss → L' (s :: ss) := by simp) :
    Obtains typeList L' ls rest := by
  intro c hc
  obtain ⟨r, hr, -, -⟩ := hFirst c hc
  rw [typeList, if_neg (typeSpec_head (by decide) hr)]
  refine (hFirst c hc).bind fun first c₁ hlt₁ hP hLeft => ?_
  obtain ⟨_, c₂, hlt₂, hComma, hc₂⟩ := mark?_of_lexemes hLeft
  simp only [hComma]
  exact (hMore c₂ hc₂).bind fun more c₃ hlt₃ hL hLeft => .ok (hL' _ _ hP hL) hLeft

theorem typeArgs_one (hFirst : Obtains typeSpec P ls rest)
    (hRest : rest.head? ≠ some (.mark .comma)) (hL : ∀ s, P s → L [s] := by simp) :
    Obtains typeArgs L ls rest := by
  intro c hc
  rw [typeArgs]
  refine (hFirst c hc).bind fun first c₁ hlt₁ hP hLeft => ?_
  simp only [mark?_of_head (show c₁.lexemes.head? ≠ some (.mark .comma) by rwa [hLeft])]
  exact .ok (hL _ hP) hLeft

theorem typeArgs_more (hFirst : Obtains typeSpec P ls (.mark .comma :: ls'))
    (hMore : Obtains typeArgs L ls' rest) (hL' : ∀ s ss, P s → L ss → L' (s :: ss) := by simp) :
    Obtains typeArgs L' ls rest := by
  intro c hc
  rw [typeArgs]
  refine (hFirst c hc).bind fun first c₁ hlt₁ hP hLeft => ?_
  obtain ⟨_, c₂, hlt₂, hComma, hc₂⟩ := mark?_of_lexemes hLeft
  simp only [hComma]
  exact (hMore c₂ hc₂).bind fun more c₃ hlt₃ hL hLeft => .ok (hL' _ _ hP hL) hLeft

end Obtains

/-- What ends a type: a closing mark, a comma, or the end of the text. -/
def Ends (rest : List Lexeme) : Prop :=
  ∀ l ∈ rest.head?, l = .mark .closeParen ∨ l = .mark .closeBracket ∨ l = .mark .comma

/-- What can follow a type: what ends a type, and a bar or an ampersand if it is no function
type. -/
def Follows (s : TypeSpec α) (rest : List Lexeme) : Prop :=
  Ends rest ∨ s.isFunc = false ∧
    (rest.head? = some (.mark .bar) ∨ rest.head? = some (.mark .ampersand))

theorem Ends.head_ne (h : Ends rest) (hm : m ∉ [Mark.closeParen, .closeBracket, .comma]) :
    rest.head? ≠ some (.mark m) := by
  intro hHead
  rcases h _ hHead with h | h | h <;> cases h <;> simp at hm

theorem Follows.head_ne {s : TypeSpec α} (h : Follows s rest)
    (hm : m ∉ [Mark.closeParen, .closeBracket, .comma, .bar, .ampersand]) :
    rest.head? ≠ some (.mark m) := by
  simp only [List.mem_cons, List.not_mem_nil, or_false, not_or] at hm
  rcases h with h | ⟨-, h | h⟩
  · exact h.head_ne (by simp [hm])
  · rw [h]
    rintro ⟨⟩
    simp at hm
  · rw [h]
    rintro ⟨⟩
    simp at hm

theorem Ends.cons (hm : m ∈ [Mark.closeParen, .closeBracket, .comma]) (ls : List Lexeme) :
    Ends (.mark m :: ls) := by
  rintro _ ⟨⟩
  simpa using hm

theorem follows_tail (hm : m = .bar ∨ m = .ampersand) {s : TypeSpec α} {ss : List (TypeSpec α)}
    (hs : ∀ k ∈ (s :: ss).dropLast, k.isFunc = false) (hr : Ends rest) :
    Follows s (TypeSpec.tailLexemes m ss ++ rest) := by
  cases ss with
  | nil => exact .inl hr
  | cons next more =>
    refine .inr ⟨hs s (by simp), ?_⟩
    rw [TypeSpec.tailLexemes]
    rcases hm with rfl | rfl <;> simp

theorem later {P : TypeSpec α → Prop} {s : TypeSpec α} {ss : List (TypeSpec α)}
    (h : ∀ k ∈ (s :: ss).dropLast, P k) : ∀ k ∈ ss.dropLast, P k := by
  cases ss with
  | nil => simp
  | cons next more => exact fun k hk => h k (List.mem_cons_of_mem _ hk)

theorem intersection_of_atom (h : Obtains typeAtom Q ls rest)
    (hRest : rest.head? ≠ some (.mark .ampersand)) : Obtains intersection Q ls rest := by
  intro c hc
  rw [intersection]
  refine (h c hc).bind fun first c₁ hlt hFirst hLeft => ?_
  dsimp only
  rw [if_neg (by rw [isAt_iff, hLeft]; exact hRest)]
  exact .ok hFirst hLeft

theorem typeSpec_of_intersection (h : Obtains intersection Q ls rest)
    (hRest : rest.head? ≠ some (.mark .bar)) : Obtains typeSpec Q ls rest := by
  intro c hc
  rw [typeSpec]
  refine (h c hc).bind fun first c₁ hlt hFirst hLeft => ?_
  dsimp only
  rw [if_neg (by rw [isAt_iff, hLeft]; exact hRest)]
  exact .ok hFirst hLeft

theorem typeSpec_of_atom (h : Obtains typeAtom Q ls rest) (hRest : Ends rest) :
    Obtains typeSpec Q ls rest :=
  typeSpec_of_intersection (intersection_of_atom h (hRest.head_ne (by decide)))
    (hRest.head_ne (by decide))

theorem head_tail_ne {k : Mark} (ss : List (TypeSpec α)) (hk : m ≠ k)
    (hRest : rest.head? ≠ some (.mark k)) :
    (TypeSpec.tailLexemes m ss ++ rest).head? ≠ some (.mark k) := by
  cases ss with
  | nil => exact hRest
  | cons s ss => simpa [TypeSpec.tailLexemes] using hk

theorem ends_commas (hm : m ∈ [Mark.closeParen, .closeBracket, .comma]) (ss : List (TypeSpec α))
    (rest : List Lexeme) : Ends (TypeSpec.tailLexemes .comma ss ++ .mark m :: rest) := by
  cases ss with
  | nil => exact .cons hm rest
  | cons s ss => exact .cons (by decide) _

theorem mapList_cons {s : TypeSpec α} {ss : List (TypeSpec α)} {t : TypeSpec Extent}
    {ts : List (TypeSpec Extent)} (h : t.map forget = s.map forget)
    (hs : TypeSpec.mapList forget ts = TypeSpec.mapList forget ss) :
    TypeSpec.mapList forget (t :: ts) = TypeSpec.mapList forget (s :: ss) := by
  rw [TypeSpec.mapList, TypeSpec.mapList, h, hs]

theorem mapList_nil_ne {s : TypeSpec α} {ss : List (TypeSpec α)}
    (h : TypeSpec.mapList forget ([] : List (TypeSpec Extent)) = TypeSpec.mapList forget (s :: ss)) :
    False := by
  simp [TypeSpec.mapList] at h

mutual

theorem typeAtom_obtains (s : TypeSpec α) (hs : (Node.spec s).All Node.Writable)
    {rest : List Lexeme} (hr : Follows s rest) :
    Obtains typeAtom (·.map forget = s.map forget) (s.lexemes ++ rest) rest := by
  cases s with
  | simple ann name args =>
    rw [TypeSpec.lexemes, List.append_assoc]
    cases args with
    | nil =>
      exact typeAtom_of_name (qualifiedName_obtains_parts name (hr.head_ne (by decide)))
        (hr.head_ne (by decide)) fun _ _ hName => congrArg (TypeSpec.simple () · []) hName
    | cons first more =>
      rw [if_neg (by simp), List.cons_append, List.append_assoc]
      exact typeAtom_of_args (qualifiedName_obtains_parts name (by simp)) (typeArgs_obtains
        (first :: more) (fun k hk => hs.child (List.mem_map_of_mem hk)) (by simp))
        fun _ _ _ hName hArgs => congrArg₂ (TypeSpec.simple ()) hName hArgs
  | union ann types =>
    obtain ⟨hLength, hFunc⟩ := hs.self
    have hTypes : ∀ k ∈ types, (Node.spec k).All Node.Writable :=
      fun k hk => hs.child (List.mem_map_of_mem hk)
    rcases types with _ | ⟨first, _ | ⟨second, more⟩⟩
    · simp at hLength
    · simp at hLength
    obtain ⟨hFirst, hMore⟩ := List.forall_mem_cons.1 hTypes
    have hEnds : Ends (.mark .closeParen :: rest) := .cons (by decide) rest
    rw [TypeSpec.lexemes, TypeSpec.tailLexemes, List.tail_cons, List.cons_append, List.append_assoc,
      List.append_assoc]
    have hAtom := typeAtom_obtains first hFirst (follows_tail (.inl rfl) hFunc hEnds)
    have hInter := intersection_of_atom hAtom
      (head_tail_ne (second :: more) (by decide) (hEnds.head_ne (by decide)))
    have hUnion := typeSpec_obtains (Q := (·.map forget = (TypeSpec.union ann _).map forget)) hInter
      (moreUnion_obtains (second :: more) hMore (later hFunc) hEnds) (fun _ _ hNil => (mapList_nil_ne hNil).elim)
      fun _ _ _ h hMap => congrArg (TypeSpec.union ()) (mapList_cons h hMap)
    exact typeAtom_of_group (lists_one hUnion (by simp) fun s h => ⟨s, rfl, h⟩)
      (hr.head_ne (by decide)) fun _ h => h
  | inter ann types =>
    obtain ⟨hLength, hFunc⟩ := hs.self
    have hTypes : ∀ k ∈ types, (Node.spec k).All Node.Writable :=
      fun k hk => hs.child (List.mem_map_of_mem hk)
    rcases types with _ | ⟨first, _ | ⟨second, more⟩⟩
    · simp at hLength
    · simp at hLength
    obtain ⟨hFirst, hMore⟩ := List.forall_mem_cons.1 hTypes
    have hEnds : Ends (.mark .closeParen :: rest) := .cons (by decide) rest
    rw [TypeSpec.lexemes, TypeSpec.tailLexemes, List.tail_cons, List.cons_append, List.append_assoc,
      List.append_assoc]
    have hAtom := typeAtom_obtains first hFirst (follows_tail (.inr rfl) hFunc hEnds)
    have hInter := intersection_obtains (Q := (·.map forget = (TypeSpec.inter ann _).map forget)) hAtom
      (moreInter_obtains (second :: more) hMore (later hFunc) hEnds) (fun _ _ hNil => (mapList_nil_ne hNil).elim)
      fun _ _ _ h hMap => congrArg (TypeSpec.inter ()) (mapList_cons h hMap)
    exact typeAtom_of_group (lists_one (typeSpec_of_intersection hInter (hEnds.head_ne (by decide)))
      (by simp) fun s h => ⟨s, rfl, h⟩) (hr.head_ne (by decide)) fun _ h => h
  | func ann params result =>
    have hEnds : Ends rest := hr.resolve_right (by simp [TypeSpec.isFunc])
    rw [TypeSpec.lexemes, List.cons_append, List.append_assoc]
    have hResult := typeAtom_obtains result (hs.child (by simp [Node.children])) (.inl hEnds)
    exact typeAtom_of_func
      (typeList_obtains params fun k hk => hs.child (by simp [Node.children, hk]))
      (typeSpec_of_atom hResult hEnds)
      fun _ _ _ hParams hMap => congrArg₂ (TypeSpec.func ()) hParams hMap
  | inferred ann => exact absurd hs.self id

theorem moreUnion_obtains (ss : List (TypeSpec α)) (hs : ∀ s ∈ ss, (Node.spec s).All Node.Writable)
    (hFunc : ∀ s ∈ ss.dropLast, s.isFunc = false) {rest : List Lexeme} (hr : Ends rest) :
    Obtains moreUnion (TypeSpec.mapList forget · = TypeSpec.mapList forget ss)
      (TypeSpec.tailLexemes .bar ss ++ rest) rest := by
  cases ss with
  | nil => exact moreUnion_none (hr.head_ne (by decide)) rfl
  | cons s ss =>
    obtain ⟨hFirst, hRest⟩ := List.forall_mem_cons.1 hs
    rw [TypeSpec.tailLexemes, List.cons_append, List.append_assoc]
    have hAtom := typeAtom_obtains s hFirst (follows_tail (.inl rfl) hFunc hr)
    have hInter := intersection_of_atom hAtom (head_tail_ne ss (by decide) (hr.head_ne (by decide)))
    exact moreUnion_more hInter (moreUnion_obtains ss hRest (later hFunc) hr) fun _ _ => mapList_cons

theorem moreInter_obtains (ss : List (TypeSpec α)) (hs : ∀ s ∈ ss, (Node.spec s).All Node.Writable)
    (hFunc : ∀ s ∈ ss.dropLast, s.isFunc = false) {rest : List Lexeme} (hr : Ends rest) :
    Obtains moreInter (TypeSpec.mapList forget · = TypeSpec.mapList forget ss)
      (TypeSpec.tailLexemes .ampersand ss ++ rest) rest := by
  cases ss with
  | nil => exact moreInter_none (hr.head_ne (by decide)) rfl
  | cons s ss =>
    obtain ⟨hFirst, hRest⟩ := List.forall_mem_cons.1 hs
    rw [TypeSpec.tailLexemes, List.cons_append, List.append_assoc]
    have hAtom := typeAtom_obtains s hFirst (follows_tail (.inr rfl) hFunc hr)
    exact moreInter_more hAtom (moreInter_obtains ss hRest (later hFunc) hr) fun _ _ => mapList_cons

theorem typeList_obtains (ss : List (TypeSpec α)) (hs : ∀ s ∈ ss, (Node.spec s).All Node.Writable)
    {rest : List Lexeme} : Obtains typeList (TypeSpec.mapList forget · = TypeSpec.mapList forget ss)
      ((TypeSpec.tailLexemes .comma ss).tail ++ .mark .closeParen :: rest)
      (.mark .closeParen :: rest) := by
  cases ss with
  | nil => exact lists_none rest rfl
  | cons s ss =>
    obtain ⟨hFirst, hRest⟩ := List.forall_mem_cons.1 hs
    rw [TypeSpec.tailLexemes, List.tail_cons, List.append_assoc]
    have hEnds := ends_commas (m := .closeParen) (by decide) ss rest
    have hSpec := typeSpec_of_atom (typeAtom_obtains s hFirst (.inl hEnds)) hEnds
    cases ss with
    | nil => exact lists_one hSpec (by simp) fun _ h => mapList_cons h rfl
    | cons next more => exact lists_more hSpec (typeList_obtains (next :: more) hRest) fun _ _ => mapList_cons

theorem typeArgs_obtains (ss : List (TypeSpec α)) (hs : ∀ s ∈ ss, (Node.spec s).All Node.Writable)
    (hNil : ss ≠ []) {rest : List Lexeme} :
    Obtains typeArgs (TypeSpec.mapList forget · = TypeSpec.mapList forget ss)
      ((TypeSpec.tailLexemes .comma ss).tail ++ .mark .closeBracket :: rest)
      (.mark .closeBracket :: rest) := by
  cases ss with
  | nil => exact absurd rfl hNil
  | cons s ss =>
    obtain ⟨hFirst, hRest⟩ := List.forall_mem_cons.1 hs
    rw [TypeSpec.tailLexemes, List.tail_cons, List.append_assoc]
    have hEnds := ends_commas (m := .closeBracket) (by decide) ss rest
    have hSpec := typeSpec_of_atom (typeAtom_obtains s hFirst (.inl hEnds)) hEnds
    cases ss with
    | nil => exact typeArgs_one hSpec (by simp) fun _ h => mapList_cons h rfl
    | cons next more =>
      exact typeArgs_more hSpec (typeArgs_obtains (next :: more) hRest (by simp)) fun _ _ => mapList_cons

end

end Cursor

namespace TypeSpec

/-- The type that a text starts with, and the tokens after it. -/
def read (text : Text) (next : Nat) : Except SyntaxError (TypeSpec Extent × List Token) := do
  let tokens ← Token.lex text
  let r ← Cursor.typeSpec ⟨tokens, 0, text.length, next⟩
  return (r.value, r.rest.tokens)

theorem read_toText (s : TypeSpec α) (hs : (Node.spec s).All Node.Writable) (next : Nat) :
    ∃ t, read s.toText next = .ok (t, []) ∧ t.map forget = s.map forget := by
  obtain ⟨tokens, hLex, hLexemes⟩ := lexes_toText s hs .nil .nil s.toText.length
  rw [List.append_nil] at hLex hLexemes
  have hEnds : Cursor.Ends [] := by simp [Cursor.Ends]
  obtain ⟨r, hRead, hMap, hLeft⟩ := Cursor.typeSpec_of_atom
    (Cursor.typeAtom_obtains s hs (.inl hEnds)) hEnds ⟨tokens, 0, s.toText.length, next⟩
    (hLexemes.trans (List.append_nil _).symm)
  refine ⟨r.value, ?_, hMap⟩
  have hNil : r.rest.tokens = [] := List.map_eq_nil_iff.1 hLeft
  rw [read, show Token.lex s.toText = _ from hLex]
  simp only [bind, Except.bind, hRead, pure, Except.pure, hNil]

/-- Whether a type is a union whose first part is the type of a function. -/
def startsWithFunc : TypeSpec α → Bool
  | .union _ (.func .. :: _) => true
  | _ => false

/-- A union of a function type and another type, with the function type in parentheses. -/
def enclosedFunc : Text := "((A): B) | C"

theorem read_enclosedFunc :
    (read enclosedFunc 1).map (fun (t, left) => (t.startsWithFunc, t.toText, left.isEmpty)) =
      .ok (true, ("((A): B | C)" : Text), true) := by
  decide +kernel

theorem read_again :
    (read "((A): B | C)" 1).map (fun (t, left) => (t.toText, left.isEmpty)) =
      .ok (("(A): (B | C)" : Text), true) := by
  decide +kernel

end TypeSpec

theorem exists_of_map_eq_ok {ε β γ : Type} {p : Except ε β} {f : β → γ} {y : γ}
    (h : p.map f = .ok y) : ∃ x, p = .ok x ∧ f x = y := by
  cases p with
  | error e => cases h
  | ok x => exact ⟨x, rfl, Except.ok.inj h⟩

/-- The text of a type is read to its end, and as that type. Where a function type is not the last
part of a union, that need not be so, even for a type that was read from a text. -/
theorem types_reread :
    (∀ {α : Type} (s : TypeSpec α), (Node.spec s).All Node.Writable → ∀ next,
      ∃ t, TypeSpec.read s.toText next = .ok (t, []) ∧ t.map forget = s.map forget) ∧
    ∃ text t u, TypeSpec.read text 1 = .ok (t, []) ∧ t.startsWithFunc ∧
      TypeSpec.read t.toText 1 = .ok (u, []) ∧ u.map forget ≠ t.map forget := by
  refine ⟨fun s hs next => s.read_toText hs next, TypeSpec.enclosedFunc, ?_⟩
  obtain ⟨⟨t, left⟩, hFirst, hText⟩ := exists_of_map_eq_ok TypeSpec.read_enclosedFunc
  obtain ⟨⟨u, left'⟩, hAgain, hText'⟩ := exists_of_map_eq_ok TypeSpec.read_again
  simp only [Prod.mk.injEq, List.isEmpty_iff] at hText hText'
  obtain ⟨hFunc, hText, rfl⟩ := hText
  obtain ⟨hText', rfl⟩ := hText'
  refine ⟨t, u, hFirst, hFunc, by rw [hText]; exact hAgain, fun hEq => ?_⟩
  -- Types that differ in their annotations only have the same text.
  have hSame : u.toText = t.toText := by
    rw [← TypeSpec.toText_map forget u, hEq, TypeSpec.toText_map]
  rw [hText, hText'] at hSame
  exact absurd hSame (by decide)

/-- The type `(a.B[C] & ((A | (): B)): D)`, where each function type is the last part of its
list. -/
def functionsLast : TypeSpec Nat :=
  .inter 0 [.simple 1 "a.B" [.simple 2 "C" []],
    .func 3 [.union 4 [.simple 5 "A" [], .func 6 [] (.simple 7 "B" [])]] (.simple 8 "D" [])]

theorem functionsLast_rereads :
    (Node.spec functionsLast).All Node.Writable ∧
      ∃ t, TypeSpec.read functionsLast.toText 5 = .ok (t, []) ∧
        t.map forget = functionsLast.map forget := by
  have h : (Node.spec functionsLast).All Node.Writable := by
    simp only [functionsLast, Node.All, Node.nodes_eq, Node.children, List.forall_mem_cons,
      List.flatMap_cons, List.flatMap_nil, List.map_cons, List.map_nil, List.cons_append,
      List.nil_append, List.append_nil, List.not_mem_nil, false_implies, implies_true, true_and,
      and_true, Node.Writable]
    decide +kernel
  exact ⟨h, types_reread.1 functionsLast h 5⟩

end Assay
