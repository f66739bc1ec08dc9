import Mathlib
import Assay.Proofs.Accepted

/-! The ways into the readers of values and of classes: each reader takes what its parts take one
after the other, wherever it meets it. -/

namespace Assay

variable {c : Cursor} {k : Keyword}

namespace Cursor

section Branches

variable {β : Type} {n : Nat} {b : Prop} [Decidable b] {p q : Parse β n} {Q : β → Prop}
  {rest : List Lexeme}

theorem Gives.pos (hb : b) (h : Gives p Q rest) : Gives (if b then p else q) Q rest := by
  rwa [if_pos hb]

theorem Gives.neg (hb : ¬b) (h : Gives q Q rest) : Gives (if b then p else q) Q rest := by
  rwa [if_neg hb]

end Branches

variable {ls ls₁ ls₂ ls₃ rest : List Lexeme} {start : Nat} {outer : Value Extent}
  {ref : Reference Extent}

theorem pop?_of_lexemes {l : Lexeme} (h : c.lexemes = l :: ls) :
    ∃ t c' h, c.pop? = some ⟨t, c', h⟩ ∧ t.lexeme = l ∧ c'.lexemes = ls := by
  cases hPop : c.pop? with
  | none =>
    rw [pop?_eq_none hPop] at h
    cases h
  | some r =>
    obtain ⟨hLexeme, hRest⟩ := List.cons.inj ((pop?_eq_some hPop).2.symm.trans h)
    exact ⟨_, _, r.lt, rfl, hLexeme, hRest⟩

/-- The lexemes that are a value by themselves, whatever comes after them. -/
inductive IsLiteral : Lexeme → Prop where
  | quoted (literal : Text) : IsLiteral (.quoted literal)
  | number (digits : Text) : IsLiteral (.number digits)
  | yes : IsLiteral (.keyword .yes)
  | no : IsLiteral (.keyword .no)
  | nothing : IsLiteral (.keyword .none)

theorem primary_literal {l : Lexeme} (hl : IsLiteral l) (rest : List Lexeme) :
    Accepts primary (l :: rest) rest := by
  intro c hc
  obtain ⟨t, c₁, hlt₁, hPop, hLexeme, hLeft⟩ := pop?_of_lexemes hc
  rw [primary]
  simp only [hPop, hLexeme]
  cases hl <;> exact .ok trivial hLeft

theorem primary_of_mark {m : Mark} (hm : m ≠ .openParen) (hm' : m ≠ .openBracket) (h : c.isAt m) :
    ∃ e, c.primary = .error e := by
  rw [isAt_iff] at h
  obtain ⟨ls, hc⟩ := List.head?_eq_some_iff.1 h
  obtain ⟨t, c₁, hlt₁, hPop, hLexeme, -⟩ := pop?_of_lexemes hc
  rw [primary]
  simp only [hPop, hLexeme]
  cases m <;> first | exact absurd rfl hm | exact absurd rfl hm' | exact ⟨_, rfl⟩

theorem value_head {r : Reply c.left (Value Extent)} (h : c.value = .ok r) {m : Mark}
    (hm : m ≠ .openParen) (hm' : m ≠ .openBracket) : ¬c.isAt m := by
  intro hAt
  obtain ⟨e, he⟩ := primary_of_mark hm hm' hAt
  rw [value, he] at h
  cases h

theorem mode_accepts (hk : k = .val ∨ k = .var) (rest : List Lexeme) :
    Accepts mode (.keyword k :: rest) rest := by
  intro c hc
  obtain ⟨_, c₁, hlt₁, hWord, hLeft⟩ := word?_of_lexemes hc
  unfold mode
  rcases hk with rfl | rfl
  · simp only [word?_of_head (show c.lexemes.head? ≠ some (.keyword .var) by rw [hc]; simp), word, hWord]
    exact .ok trivial hLeft
  · simp only [hWord]
    exact .ok trivial hLeft

theorem binding_accepts (hk : k = .val ∨ k = .var) (name : Text)
    (hSpec : ∀ t build, Accepts (optionalType t build) ls (.mark .equals :: ls₁))
    (hValue : Accepts value ls₁ rest) : Accepts binding (.keyword k :: .ident name :: ls) rest := by
  intro c hc
  rw [binding]
  refine (mode_accepts hk _ c hc).bind fun mode c₁ hlt₁ _ hLeft => ?_
  refine (ident_gives hLeft).bind ?_
  rintro ⟨_, t⟩ c₂ hlt₂ _ hLeft
  refine (hSpec t _ c₂ hLeft).bind fun spec c₃ hlt₃ _ hLeft => ?_
  refine (mark_gives hLeft).bind fun _ c₄ hlt₄ _ hLeft => ?_
  exact (hValue c₄ hLeft).bind fun v c₅ hlt₅ _ hLeft => .ok trivial hLeft

theorem mode_head {r : Reply c.left Mode} (h : c.mode = .ok r) :
    ∃ k, (k = .val ∨ k = .var) ∧ c.lexemes.head? = some (.keyword k) := by
  by_contra hNot
  have hWord {k : Keyword} (hk : k = .val ∨ k = .var) : c.word? k = none :=
    word?_of_head fun hHead => hNot ⟨k, hk, hHead⟩
  unfold mode word at h
  simp only [hWord (.inl rfl), hWord (.inr rfl)] at h
  cases h

theorem primary_of_binding (h : Accepts binding ls rest) : Accepts primary ls rest := by
  intro c hc
  obtain ⟨r, hr, -⟩ := h c hc
  rw [binding] at hr
  cases hMode : c.mode with
  | error e =>
    rw [hMode] at hr
    cases hr
  | ok r =>
    obtain ⟨k, hk, hHead⟩ := mode_head hMode
    obtain ⟨more, hMore⟩ := List.head?_eq_some_iff.1 hHead
    obtain ⟨t, c₁, hlt₁, hPop, hLexeme, -⟩ := pop?_of_lexemes hMore
    rw [primary]
    simp only [hPop, hLexeme]
    rcases hk with rfl | rfl <;> exact h c hc

theorem function_accepts (hTypeParams : Accepts typeParams ls ls₁) (hParams : Accepts params ls₁ ls₂)
    (hResult : ∀ t build, Accepts (optionalType t build) ls₂ (.mark .arrow :: .mark .openBrace :: ls₃))
    (hBody : Accepts statements ls₃ (.mark .closeBrace :: rest)) : Accepts function ls rest := by
  intro c hc
  rw [function]
  refine (hTypeParams c hc).bind fun typeParams c₁ hlt₁ _ hLeft => ?_
  refine (hParams c₁ hLeft).bind fun ⟨params, close⟩ c₂ hlt₂ _ hLeft => ?_
  refine (hResult close _ c₂ hLeft).bind fun result c₃ hlt₃ _ hLeft => ?_
  refine (mark_gives hLeft).bind fun _ c₄ hlt₄ _ hLeft => ?_
  refine (mark_gives hLeft).bind fun _ c₅ hlt₅ _ hLeft => ?_
  refine (hBody c₅ hLeft).bind fun body c₆ hlt₆ _ hLeft => ?_
  exact (mark_gives hLeft).bind fun _ c₇ hlt₇ _ hLeft => .ok trivial hLeft

theorem function_head {r : Reply c.left (Value Extent)} (h : c.function = .ok r) :
    c.lexemes.head? = some (.mark .openBracket) ∨ c.lexemes.head? = some (.mark .openParen) := by
  by_contra hNot
  rw [not_or] at hNot
  have hTypeParams : c.typeParams = .ok ⟨[], c, Nat.lt_succ_self _⟩ := by
    unfold typeParams
    simp only [mark?_of_head hNot.1]
    rfl
  have hParams : ∃ e, c.params = .error e := by
    unfold params mark
    rw [mark?_of_head hNot.2]
    exact ⟨_, rfl⟩
  obtain ⟨e, he⟩ := hParams
  rw [function, hTypeParams] at h
  simp only [bind, Except.bind, he] at h
  cases h

theorem primary_of_function (h : Accepts function ls rest) : Accepts primary ls rest := by
  intro c hc
  obtain ⟨r, hr, hGives⟩ := h c hc
  rw [primary]
  rcases function_head hr with hHead | hHead <;>
  · obtain ⟨more, hMore⟩ := List.head?_eq_some_iff.1 hHead
    obtain ⟨t, c₁, hlt₁, hPop, hLexeme, -⟩ := pop?_of_lexemes hMore
    simp only [hPop, hLexeme]
    exact h c hc

theorem call_plain (h : Accepts arguments ls (.mark .closeParen :: rest)) :
    Accepts (call start ref) (.mark .openParen :: ls) rest := by
  intro c hc
  rw [call]
  simp only [mark?_of_head (show c.lexemes.head? ≠ some (.mark .openBracket) by rw [hc]; simp)]
  refine (mark_gives hc).bind fun _ c₁ hlt₁ _ hLeft => ?_
  refine (h c₁ hLeft).bind fun args c₂ hlt₂ _ hLeft => ?_
  exact (mark_gives hLeft).bind fun _ c₃ hlt₃ _ hLeft => .ok trivial hLeft

theorem call_typed (hTypes : Accepts typeArgs ls (.mark .closeBracket :: .mark .openParen :: ls₁))
    (hArgs : Accepts arguments ls₁ (.mark .closeParen :: rest)) :
    Accepts (call start ref) (.mark .openBracket :: ls) rest := by
  intro c hc
  obtain ⟨_, c₁, hlt₁, hOpen, hc₁⟩ := mark?_of_lexemes hc
  rw [call]
  simp only [hOpen]
  refine (hTypes c₁ hc₁).bind fun types c₂ hlt₂ _ hLeft => ?_
  refine (mark_gives hLeft).bind fun _ c₃ hlt₃ _ hLeft => ?_
  refine (mark_gives hLeft).bind fun _ c₄ hlt₄ _ hLeft => ?_
  refine (hArgs c₄ hLeft).bind fun args c₅ hlt₅ _ hLeft => ?_
  exact (mark_gives hLeft).bind fun _ c₆ hlt₆ _ hLeft => .ok trivial hLeft

theorem call_head {r : Reply c.left (Value Extent)} (h : call start ref c = .ok r) :
    c.isAt .openParen || c.isAt .openBracket := by
  rw [Bool.or_eq_true, isAt_iff, isAt_iff]
  by_contra hNot
  rw [not_or] at hNot
  have hMark : c.mark .openParen = .error ⟨c.start, [.mark .openParen]⟩ := by
    rw [mark, mark?_of_head hNot.1]
    rfl
  rw [call] at h
  simp only [mark?_of_head hNot.2, pure, Except.pure, bind, Except.bind, hMark] at h
  cases h

theorem primary_ident (name : Text) (h : Free [.openParen, .openBracket, .equals] rest.head?) :
    Accepts primary (.ident name :: rest) rest := by
  intro c hc
  obtain ⟨t, c₁, hlt₁, hPop, hLexeme, hLeft⟩ := pop?_of_lexemes hc
  have hNot {m : Mark} (hm : m ∈ [Mark.openParen, .openBracket, .equals]) :
      c₁.bump.lexemes.head? ≠ some (.mark m) := by
    rw [show c₁.bump.lexemes = rest from hLeft]
    exact h m hm
  rw [primary]
  simp only [hPop, hLexeme, nodeOf, id]
  refine .neg (by
    rw [Bool.or_eq_true, isAt_iff, isAt_iff]
    exact not_or.2 ⟨hNot (by decide), hNot (by decide)⟩) ?_
  simp only [mark?_of_head (hNot (m := .equals) (by decide))]
  exact .ok trivial hLeft

theorem primary_call (name : Text) (h : ∀ start ref, Accepts (call start ref) ls rest) :
    Accepts primary (.ident name :: ls) rest := by
  intro c hc
  obtain ⟨t, c₁, hlt₁, hPop, hLexeme, hLeft⟩ := pop?_of_lexemes hc
  rw [primary]
  simp only [hPop, hLexeme, nodeOf, id]
  obtain ⟨r, hr, -⟩ := h t.start ⟨c₁.extentOf t, name, true⟩ c₁.bump hLeft
  refine .pos (call_head hr) ?_
  exact (h t.start ⟨c₁.extentOf t, name, true⟩ c₁.bump hLeft).bind
    fun v c₂ hlt₂ _ hLeft => .ok trivial hLeft

theorem primary_assign (name : Text) (h : Accepts value ls rest) :
    Accepts primary (.ident name :: .mark .equals :: ls) rest := by
  intro c hc
  obtain ⟨t, c₁, hlt₁, hPop, hLexeme, hLeft⟩ := pop?_of_lexemes hc
  have hLeft : c₁.bump.lexemes = .mark .equals :: ls := hLeft
  obtain ⟨_, c₂, hlt₂, hEquals, hc₂⟩ := mark?_of_lexemes hLeft
  rw [primary]
  simp only [hPop, hLexeme, nodeOf, id]
  refine .neg (by
    rw [Bool.or_eq_true, isAt_iff, isAt_iff, hLeft]
    simp) ?_
  simp only [hEquals]
  exact (h c₂ hc₂).bind fun v c₃ hlt₃ _ hLeft => .ok trivial hLeft

theorem members_none (h : rest.head? ≠ some (.mark .dot)) : Accepts (members start outer) rest rest := by
  intro c hc
  rw [members]
  simp only [mark?_of_head (show c.lexemes.head? ≠ some (.mark .dot) by rwa [hc])]
  exact .ok trivial hc

theorem members_assign (name : Text) (h : Accepts value ls rest) :
    Accepts (members start outer) (.mark .dot :: .ident name :: .mark .equals :: ls) rest := by
  intro c hc
  obtain ⟨_, c₁, hlt₁, hDot, hc₁⟩ := mark?_of_lexemes hc
  rw [members]
  simp only [hDot]
  refine (ident_gives hc₁).bind ?_
  rintro ⟨_, t⟩ c₂ hlt₂ _ hLeft
  obtain ⟨_, c₃, hlt₃, hEquals, hc₃⟩ :=
    mark?_of_lexemes (show c₂.bump.lexemes = .mark .equals :: ls from hLeft)
  simp only [nodeOf, id, hEquals]
  exact (h c₃ hc₃).bind fun v c₄ hlt₄ _ hLeft => .ok trivial hLeft

theorem members_call (name : Text) (h : ∀ start ref, Accepts (call start ref) ls ls₁)
    (hMore : ∀ start outer, Accepts (members start outer) ls₁ rest) :
    Accepts (members start outer) (.mark .dot :: .ident name :: ls) rest := by
  intro c hc
  obtain ⟨_, c₁, hlt₁, hDot, hc₁⟩ := mark?_of_lexemes hc
  rw [members]
  simp only [hDot]
  refine (ident_gives hc₁).bind ?_
  rintro ⟨name, t⟩ c₂ hlt₂ _ hLeft
  have hCall := h t.start ⟨c₂.extentOf t, name, true⟩ c₂.bump hLeft
  obtain ⟨r, hr, -⟩ := hCall
  have hHead := call_head hr
  have hEquals : c₂.bump.lexemes.head? ≠ some (.mark .equals) := by
    rw [Bool.or_eq_true, isAt_iff, isAt_iff] at hHead
    rcases hHead with hHead | hHead <;> simp [hHead]
  simp only [nodeOf, id, mark?_of_head hEquals]
  refine .pos hHead ?_
  refine (h t.start ⟨c₂.extentOf t, name, true⟩ c₂.bump hLeft).bind
    fun inner c₃ hlt₃ _ hLeft => ?_
  exact (hMore _ _ c₃.bump hLeft).bind fun all c₄ hlt₄ _ hLeft => .ok trivial hLeft

theorem members_member (name : Text) (h : Free [.openParen, .openBracket, .equals] ls.head?)
    (hMore : ∀ start outer, Accepts (members start outer) ls rest) :
    Accepts (members start outer) (.mark .dot :: .ident name :: ls) rest := by
  intro c hc
  obtain ⟨_, c₁, hlt₁, hDot, hc₁⟩ := mark?_of_lexemes hc
  rw [members]
  simp only [hDot]
  refine (ident_gives hc₁).bind ?_
  rintro ⟨name, t⟩ c₂ hlt₂ _ hLeft
  have hNot {m : Mark} (hm : m ∈ [Mark.openParen, .openBracket, .equals]) :
      c₂.bump.lexemes.head? ≠ some (.mark m) := by
    rw [show c₂.bump.lexemes = ls from hLeft]
    exact h m hm
  simp only [nodeOf, id, mark?_of_head (hNot (m := .equals) (by decide))]
  refine .neg (by
    rw [Bool.or_eq_true, isAt_iff, isAt_iff]
    exact not_or.2 ⟨hNot (by decide), hNot (by decide)⟩) ?_
  exact (hMore _ _ c₂.bump.bump.bump hLeft).bind fun all c₃ hlt₃ _ hLeft => .ok trivial hLeft

theorem value_accepts (hFirst : Accepts primary ls ls₁)
    (hMore : ∀ start outer, Accepts (members start outer) ls₁ rest) : Accepts value ls rest := by
  intro c hc
  rw [value]
  refine (hFirst c hc).bind fun first c₁ hlt₁ _ hLeft => ?_
  exact (hMore _ _ c₁ hLeft).bind fun all c₂ hlt₂ _ hLeft => .ok trivial hLeft

theorem arguments_none (rest : List Lexeme) :
    Accepts arguments (.mark .closeParen :: rest) (.mark .closeParen :: rest) := by
  intro c hc
  rw [arguments, if_pos (by rw [isAt_iff, hc]; rfl)]
  exact .ok trivial hc

theorem arguments_one (hFirst : Accepts value ls rest) (hRest : rest.head? ≠ some (.mark .comma)) :
    Accepts arguments ls rest := by
  intro c hc
  obtain ⟨r, hr, -, -⟩ := hFirst c hc
  rw [arguments, if_neg (value_head hr (by decide) (by decide))]
  refine (hFirst c hc).bind fun first c₁ hlt₁ _ hLeft => ?_
  simp only [mark?_of_head (show c₁.lexemes.head? ≠ some (.mark .comma) by rwa [hLeft])]
  exact .ok trivial hLeft

theorem arguments_more (hFirst : Accepts value ls (.mark .comma :: ls₁))
    (hMore : Accepts arguments ls₁ rest) : Accepts arguments ls rest := by
  intro c hc
  obtain ⟨r, hr, -, -⟩ := hFirst c hc
  rw [arguments, if_neg (value_head hr (by decide) (by decide))]
  refine (hFirst c hc).bind fun first c₁ hlt₁ _ hLeft => ?_
  obtain ⟨_, c₂, hlt₂, hComma, hc₂⟩ := mark?_of_lexemes hLeft
  simp only [hComma]
  exact (hMore c₂ hc₂).bind fun more c₃ hlt₃ _ hLeft => .ok trivial hLeft

theorem statements_none (rest : List Lexeme) :
    Accepts statements (.mark .closeBrace :: rest) (.mark .closeBrace :: rest) := by
  intro c hc
  rw [statements, if_pos (by rw [isAt_iff, hc]; rfl)]
  exact .ok trivial hc

theorem statements_more (hFirst : Accepts value ls ls₁) (hSkip : Skips .semicolon ls₁ ls₂)
    (hMore : Accepts statements ls₂ rest) : Accepts statements ls rest := by
  intro c hc
  obtain ⟨r, hr, -, -⟩ := hFirst c hc
  rw [statements, if_neg (value_head hr (by decide) (by decide))]
  refine (hFirst c hc).bind fun first c₁ hlt₁ _ hLeft => ?_
  have hNext := skip_rest hSkip (show c₁.bump.lexemes = ls₁ from hLeft)
  exact (hMore _ hNext).bind fun more c₂ hlt₂ _ hLeft => .ok trivial hLeft

theorem method_accepts (hSignature : Accepts signature ls (.mark .openBrace :: ls₁))
    (hBody : Accepts statements ls₁ (.mark .closeBrace :: rest)) : Accepts method ls rest := by
  intro c hc
  unfold method
  refine (hSignature c hc).bind fun signature c₁ hlt₁ _ hLeft => ?_
  refine (mark_gives hLeft).bind fun _ c₂ hlt₂ _ hLeft => ?_
  refine (hBody c₂ hLeft).bind fun body c₃ hlt₃ _ hLeft => ?_
  exact (mark_gives hLeft).bind fun _ c₄ hlt₄ _ hLeft => .ok trivial hLeft

theorem classAttribute_bare (hk : k = .val ∨ k = .var) (name : Text)
    (hSpec : ∀ t build, Accepts (optionalType t build) ls ls₁)
    (hEquals : ls₁.head? ≠ some (.mark .equals)) (hSkip : Skips .semicolon ls₁ rest) :
    Accepts classAttribute (.keyword k :: .ident name :: ls) rest := by
  intro c hc
  unfold classAttribute
  refine (mode_accepts hk _ c hc).bind fun mode c₁ hlt₁ _ hLeft => ?_
  refine (ident_gives hLeft).bind ?_
  rintro ⟨_, t⟩ c₂ hlt₂ _ hLeft
  refine (hSpec t _ c₂ hLeft).bind fun spec c₃ hlt₃ _ hLeft => ?_
  simp only [mark?_of_head (show c₃.lexemes.head? ≠ some (.mark .equals) by rwa [hLeft])]
  exact .ok trivial (skip_rest hSkip (show c₃.bump.lexemes = ls₁ from hLeft))

theorem classAttribute_valued (hk : k = .val ∨ k = .var) (name : Text)
    (hSpec : ∀ t build, Accepts (optionalType t build) ls (.mark .equals :: ls₁))
    (hValue : Accepts value ls₁ ls₂) (hSkip : Skips .semicolon ls₂ rest) :
    Accepts classAttribute (.keyword k :: .ident name :: ls) rest := by
  intro c hc
  unfold classAttribute
  refine (mode_accepts hk _ c hc).bind fun mode c₁ hlt₁ _ hLeft => ?_
  refine (ident_gives hLeft).bind ?_
  rintro ⟨_, t⟩ c₂ hlt₂ _ hLeft
  refine (hSpec t _ c₂ hLeft).bind fun spec c₃ hlt₃ _ hLeft => ?_
  obtain ⟨_, c₄, hlt₄, hEquals, hc₄⟩ := mark?_of_lexemes hLeft
  simp only [hEquals]
  refine (hValue c₄ hc₄).bind fun v c₅ hlt₅ _ hLeft => ?_
  exact .ok trivial (skip_rest hSkip (show c₅.bump.lexemes = ls₂ from hLeft))

theorem classMembers_none (rest : List Lexeme) :
    Accepts classMembers (.mark .closeBrace :: rest) (.mark .closeBrace :: rest) := by
  intro c hc
  rw [classMembers, if_pos (by rw [isAt_iff, hc]; rfl)]
  exact .ok trivial hc

theorem isAtWord_iff : c.isAtWord k ↔ c.lexemes.head? = some (.keyword k) := by
  simp [isAtWord, peek?, lexemes]

theorem classAttribute_head {r : Reply c.left (Attribute Extent)} (h : c.classAttribute = .ok r) :
    ∃ k, (k = .val ∨ k = .var) ∧
      c.lexemes.head? = some (.keyword k) := by
  unfold classAttribute at h
  cases hMode : c.mode with
  | error e =>
    rw [hMode] at h
    cases h
  | ok r => exact mode_head hMode

theorem classMembers_attribute (hFirst : Accepts classAttribute ls ls₁)
    (hMore : Accepts classMembers ls₁ rest) : Accepts classMembers ls rest := by
  intro c hc
  obtain ⟨r, hr, -⟩ := hFirst c hc
  obtain ⟨k, hk, hHead⟩ := classAttribute_head hr
  rw [classMembers, if_neg (by rw [isAt_iff, hHead]; simp), if_pos (by
    rw [Bool.or_eq_true, isAtWord_iff, isAtWord_iff, hHead]
    rcases hk with rfl | rfl <;> simp)]
  refine (hFirst c hc).bind fun first c₁ hlt₁ _ hLeft => ?_
  refine (hMore c₁ hLeft).bind ?_
  rintro ⟨attributes, methods⟩ c₂ hlt₂ _ hLeft
  exact .ok trivial hLeft

theorem method_head {r : Reply c.left (Method Extent)} (h : c.method = .ok r) :
    ¬c.isAt .closeBrace ∧ ∀ k, k = .val ∨ k = .var → c.lexemes.head? ≠ some (.keyword k) := by
  unfold method at h
  cases hSignature : c.signature with
  | error e =>
    rw [hSignature] at h
    cases h
  | ok r =>
    refine ⟨signature_head hSignature _, fun k hk hHead => ?_⟩
    have hSame : (c.visibility .everywhere).rest.lexemes = c.lexemes :=
      visibility_rest _ (.omitted (by rw [hHead]; rcases hk with rfl | rfl <;> decide)) rfl
    have hReads := ident_reads (c.visibility .everywhere).rest
    unfold signature at hSignature
    cases hi : (c.visibility .everywhere).rest.ident with
    | error e =>
      simp only [hi] at hSignature
      cases hSignature
    | ok r =>
      rw [hi] at hReads
      rw [← hSame, hReads.2.lexemes] at hHead
      cases hHead

theorem classMembers_method (hFirst : Accepts method ls ls₁)
    (hMore : Accepts classMembers ls₁ rest) : Accepts classMembers ls rest := by
  intro c hc
  obtain ⟨r, hr, -⟩ := hFirst c hc
  obtain ⟨hClose, hMode⟩ := method_head hr
  rw [classMembers, if_neg hClose, if_neg (by
    rw [Bool.or_eq_true, isAtWord_iff, isAtWord_iff]
    exact not_or.2 ⟨hMode .val (.inl rfl), hMode .var (.inr rfl)⟩)]
  refine (hFirst c hc).bind fun first c₁ hlt₁ _ hLeft => ?_
  refine (hMore c₁ hLeft).bind ?_
  rintro ⟨attributes, methods⟩ c₂ hlt₂ _ hLeft
  exact .ok trivial hLeft

theorem topLevel_of_typeDecl (hVisibility : Sees ls (.keyword .typeDecl :: ls₁))
    (hDecl : ∀ start visibility, Accepts (typeDecl start visibility) ls₁ rest) :
    Accepts topLevel ls rest := by
  intro c hc
  obtain ⟨_, c₁, hlt₁, hWord, hc₁⟩ := word?_of_lexemes (visibility_rest .namespaced hVisibility hc)
  unfold topLevel
  simp only [hWord]
  exact (hDecl _ _ c₁ hc₁).bind fun decl c₂ hlt₂ _ hLeft => .ok trivial hLeft

theorem topLevel_of_class (hVisibility : Sees ls (.keyword .classDecl :: ls₁))
    (hDecl : ∀ start visibility, Accepts (classDecl start visibility) ls₁ rest) :
    Accepts topLevel ls rest := by
  intro c hc
  have hSeen := visibility_rest .namespaced hVisibility hc
  obtain ⟨_, c₁, hlt₁, hWord, hc₁⟩ := word?_of_lexemes hSeen
  unfold topLevel
  simp only [word?_of_head (show (c.visibility .namespaced).rest.lexemes.head? ≠
    some (.keyword .typeDecl) by rw [hSeen]; simp), hWord]
  exact (hDecl _ _ c₁ hc₁).bind fun decl c₂ hlt₂ _ hLeft => .ok trivial hLeft

end Cursor

end Assay
