import Mathlib
import Assay.Proofs.Reread

/-! A type declaration that the grammar derives is read. A reader takes as much as it can, and where
the grammar leaves a choice this may be more than the derivation gives it: the result of a function
type takes in the bars and the ampersands after it. What is left over is still what the next reader
wants, since a type only ends in front of a mark that no type goes on with. -/

namespace Assay

open Grammar

variable {c : Cursor} {m : Mark} {ms : List Mark} {name : Text} {ps : List (Param Unit)}
  {generic : Bool} {ls rest : List Lexeme} {d : TypeDecl Unit}

def Free (ms : List Mark) (l : Option Lexeme) : Prop := ∀ m ∈ ms, l ≠ some (.mark m)

theorem Free.mono {ms' : List Mark} {l : Option Lexeme} (h : Free ms l) (hm : ms' ⊆ ms) :
    Free ms' l :=
  fun m hMem => h m (hm hMem)

theorem Free.mark (h : m ∉ ms) : Free ms (some (.mark m)) := by
  rintro _ hk ⟨⟩
  exact h hk

theorem Free.of_head {l : Option Lexeme} (h : m ∉ ms) (hHead : l = some (.mark m)) : Free ms l := by
  rw [hHead]
  exact .mark h

namespace Cursor

/-- Wherever it meets the first list, the reader takes it up to the second one. -/
def Accepts {β : Type} {k : Cursor → Nat} (p : (c : Cursor) → Parse β (k c))
    (ls rest : List Lexeme) : Prop :=
  Obtains p (fun _ => True) ls rest

def Lists (n : Nat) : List Lexeme → List Lexeme → Prop := Obtains typeList (·.length = n)

variable {ls ls' rest : List Lexeme} {n : Nat}

theorem Obtains.accepts {β : Type} {k : Cursor → Nat} {p : (c : Cursor) → Parse β (k c)} {Q : β → Prop}
    (h : Obtains p Q ls rest) : Accepts p ls rest := by
  intro c hc
  obtain ⟨r, hr, -, hRest⟩ := h c hc
  exact ⟨r, hr, trivial, hRest⟩

theorem qualifiedName_accepts (first : Text) (parts : List Text)
    (h : rest.head? ≠ some (.mark .dot)) :
    Accepts qualifiedName (.ident first :: (dotLexemes parts ++ rest)) rest :=
  (qualifiedName_obtains first parts h).accepts

theorem intersection_accepts (hFirst : Accepts typeAtom ls ls')
    (hMore : Accepts moreInter ls' rest) : Accepts intersection ls rest :=
  intersection_obtains hFirst hMore

theorem typeSpec_accepts (hFirst : Accepts intersection ls ls')
    (hMore : Accepts moreUnion ls' rest) : Accepts typeSpec ls rest :=
  typeSpec_obtains hFirst hMore

/-- Atoms between bars and ampersands, as they stand in the text: any of them may come after the
parameters of a function type. -/
inductive Chain (rest : List Lexeme) : List Lexeme → Prop where
  | atom {ls : List Lexeme} (h : Accepts typeAtom ls rest) : Chain rest ls
  | func {ls ls' : List Lexeme}
    (hParams : Accepts typeList ls (.mark .closeParen :: .mark .colon :: ls'))
    (hResult : Chain rest ls') : Chain rest (.mark .openParen :: ls)
  | join {m : Mark} {ls ls' : List Lexeme} (hm : m = .bar ∨ m = .ampersand)
    (hFirst : Accepts typeAtom ls (.mark m :: ls')) (hMore : Chain rest ls') : Chain rest ls

namespace Chain

theorem append (hm : m = .bar ∨ m = .ampersand) (h : Chain (.mark m :: ls') ls)
    (hMore : Chain rest ls') : Chain rest ls := by
  induction h with
  | atom h => exact .join hm h hMore
  | func hParams _ ih => exact .func hParams ih
  | join hk hFirst _ ih => exact .join hk hFirst ih

/-- The first atom of a chain is read, up to the ampersands after it, and these up to the bars. A
function type takes the whole of the chain after its colon. -/
theorem split (h : Chain rest ls) (hRest : Free [.bar, .ampersand] rest.head?) :
    ∃ ls₁ ls₂, Accepts typeAtom ls ls₁ ∧ Accepts moreInter ls₁ ls₂ ∧ Accepts moreUnion ls₂ rest := by
  have hInter : Accepts moreInter rest rest := moreInter_none (hRest .ampersand (by decide))
  have hUnion : Accepts moreUnion rest rest := moreUnion_none (hRest .bar (by decide))
  induction h with
  | atom h => exact ⟨_, _, h, hInter, hUnion⟩
  | func hParams _ ih =>
    obtain ⟨ls₁, ls₂, hFirst, hMore, hMoreUnion⟩ := ih
    have hResult := typeSpec_accepts (intersection_accepts hFirst hMore) hMoreUnion
    exact ⟨_, _, typeAtom_of_func hParams hResult, hInter, hUnion⟩
  | join hm hAtom _ ih =>
    obtain ⟨ls₁, ls₂, hFirst, hMore, hMoreUnion⟩ := ih
    rcases hm with rfl | rfl
    · exact ⟨_, _, hAtom, moreInter_none (by simp),
        moreUnion_more (intersection_accepts hFirst hMore) hMoreUnion⟩
    · exact ⟨_, _, hAtom, moreInter_more hFirst hMore, hMoreUnion⟩

theorem accepts (h : Chain rest ls) (hRest : Free [.bar, .ampersand] rest.head?) :
    Accepts typeSpec ls rest := by
  obtain ⟨ls₁, ls₂, hFirst, hMore, hMoreUnion⟩ := h.split hRest
  exact typeSpec_accepts (intersection_accepts hFirst hMore) hMoreUnion

end Chain

theorem qname_lexemes {x : Text × Text} (h : QNameRule ls x rest) :
    ∃ first parts, ls = .ident first :: (dotLexemes parts ++ rest) := by
  induction h with
  | one name ls => exact ⟨name, [], rfl⟩
  | more h ih =>
    rename_i part rest
    obtain ⟨first, parts, rfl⟩ := ih
    exact ⟨first, parts ++ [part], by simp [dotLexemes]⟩

theorem qualifiedName_of_rule {x : Text × Text} (h : QNameRule ls x rest)
    (hRest : rest.head? ≠ some (.mark .dot)) : Accepts qualifiedName ls rest := by
  obtain ⟨first, parts, rfl⟩ := qname_lexemes h
  exact qualifiedName_accepts first parts hRest

def typeMarks : List Mark := [.dot, .openBracket, .colon, .bar, .ampersand]

mutual

theorem typeSpec_chain : ∀ {ls s rest}, TypeSpecRule ls s rest →
    Free [.dot, .openBracket, .colon] rest.head? → Chain rest ls
  | _, _, _, .one h, hRest => intersection_chain h hRest
  | _, _, _, .union h, hRest => bars_chain h hRest

theorem bars_chain : ∀ {ls ss rest}, Separated .bar IntersectionRule ls ss rest →
    Free [.dot, .openBracket, .colon] rest.head? → Chain rest ls
  | _, _, _, .one h, hRest => intersection_chain h hRest
  | _, _, _, .more h hMore, hRest =>
    (intersection_chain h (.mark (by decide))).append (.inl rfl) (bars_chain hMore hRest)

theorem intersection_chain : ∀ {ls s rest}, IntersectionRule ls s rest →
    Free [.dot, .openBracket, .colon] rest.head? → Chain rest ls
  | _, _, _, .one h, hRest => typeAtom_chain h hRest
  | _, _, _, .inter h, hRest => ampersands_chain h hRest

theorem ampersands_chain : ∀ {ls ss rest}, Separated .ampersand TypeAtomRule ls ss rest →
    Free [.dot, .openBracket, .colon] rest.head? → Chain rest ls
  | _, _, _, .one h, hRest => typeAtom_chain h hRest
  | _, _, _, .more h hMore, hRest =>
    (typeAtom_chain h (.mark (by decide))).append (.inr rfl) (ampersands_chain hMore hRest)

theorem typeAtom_chain : ∀ {ls s rest}, TypeAtomRule ls s rest →
    Free [.dot, .openBracket, .colon] rest.head? → Chain rest ls
  | _, _, _, .name hName (.omitted _), hRest =>
    .atom (typeAtom_of_name (qualifiedName_of_rule hName (hRest .dot (by decide)))
      (hRest .openBracket (by decide)))
  | _, _, _, .name hName (.written (.mk hArgs)), _ =>
    .atom (typeAtom_of_args (qualifiedName_of_rule hName (by simp)) (args_accepted hArgs rfl))
  | _, _, _, .group (.some h), hRest =>
    .atom (typeAtom_of_group (items_listed h rfl) (hRest .colon (by decide)))
  | _, _, _, .func (.none _) (.mk hResult), hRest =>
    .func (lists_none _) (typeSpec_chain hResult hRest)
  | _, _, _, .func (.some h) (.mk hResult), hRest =>
    .func (items_listed h rfl).accepts (typeSpec_chain hResult hRest)

theorem args_accepted : ∀ {ls ss rest}, Separated .comma TypeSpecRule ls ss rest →
    rest.head? = some (.mark .closeBracket) → Accepts typeArgs ls rest
  | _, _, _, .one h, hRest =>
    typeArgs_one ((typeSpec_chain h (.of_head (by decide) hRest)).accepts (.of_head (by decide) hRest))
      (by rw [hRest]; simp)
  | _, _, _, .more h hMore, hRest =>
    typeArgs_more ((typeSpec_chain h (.mark (by decide))).accepts (.mark (by decide)))
      (args_accepted hMore hRest)

theorem items_listed : ∀ {ls ss rest}, Items TypeSpecRule ls ss rest →
    rest.head? = some (.mark .closeParen) → Lists ss.length ls rest
  | _, _, _, .one h, hRest =>
    lists_one ((typeSpec_chain h (.of_head (by decide) hRest)).accepts (.of_head (by decide) hRest))
      (by rw [hRest]; simp)
  | _, _, rest, .trailing h, hRest => by
    have hFirst := (typeSpec_chain h (.mark (by decide))).accepts (.mark (by decide))
    cases rest with
    | nil => cases hRest
    | cons l rest =>
      cases hRest
      have hNone : Lists 0 _ _ := lists_none rest
      exact lists_more hFirst hNone
  | _, _, _, .more h hMore, hRest =>
    lists_more ((typeSpec_chain h (.mark (by decide))).accepts (.mark (by decide)))
      (items_listed hMore hRest)

end

theorem typeSpec_of_rule {s : TypeSpec Unit} (h : TypeSpecRule ls s rest)
    (hRest : Free typeMarks rest.head?) : Accepts typeSpec ls rest :=
  (typeSpec_chain h (hRest.mono (by decide))).accepts (hRest.mono (by decide))

section Declarations

variable {ls₁ ls₂ ls₃ : List Lexeme}

theorem optionalType_none (t : Token) (build : Extent → TypeSpec Extent)
    (h : rest.head? ≠ some (.mark .colon)) : Accepts (optionalType t build) rest rest := by
  intro c hc
  unfold optionalType
  simp only [mark?_of_head (show c.lexemes.head? ≠ some (.mark .colon) by rwa [hc])]
  exact .ok trivial hc

theorem optionalType_some (t : Token) (build : Extent → TypeSpec Extent)
    (h : Accepts typeSpec ls rest) : Accepts (optionalType t build) (.mark .colon :: ls) rest := by
  intro c hc
  obtain ⟨_, c₁, hlt₁, hColon, hc₁⟩ := mark?_of_lexemes hc
  unfold optionalType
  simp only [hColon]
  exact (h c₁ hc₁).bind fun spec c₂ hlt₂ _ hLeft => .ok trivial hLeft

theorem typeParamList_one (name : Text) (h : rest.head? ≠ some (.mark .comma)) :
    Accepts typeParamList (.ident name :: rest) rest := by
  intro c hc
  rw [typeParamList]
  refine (ident_gives hc).bind ?_
  rintro ⟨_, t⟩ c₁ hlt₁ _ hLeft
  simp only [nodeOf, mark?_of_head (show c₁.bump.lexemes.head? ≠ some (.mark .comma) by
    rw [show c₁.bump.lexemes = rest from hLeft]; exact h)]
  exact .ok trivial hLeft

theorem typeParamList_more (name : Text) (h : Accepts typeParamList ls rest) :
    Accepts typeParamList (.ident name :: .mark .comma :: ls) rest := by
  intro c hc
  rw [typeParamList]
  refine (ident_gives hc).bind ?_
  rintro ⟨_, t⟩ c₁ hlt₁ _ hLeft
  obtain ⟨_, c₂, hlt₂, hComma, hc₂⟩ :=
    mark?_of_lexemes (show c₁.bump.lexemes = .mark .comma :: ls from hLeft)
  simp only [nodeOf, hComma]
  exact (h c₂ hc₂).bind fun more c₃ hlt₃ _ hLeft => .ok trivial hLeft

theorem typeParams_none (h : rest.head? ≠ some (.mark .openBracket)) : Accepts typeParams rest rest := by
  intro c hc
  unfold typeParams
  simp only [mark?_of_head (show c.lexemes.head? ≠ some (.mark .openBracket) by rwa [hc])]
  exact .ok trivial hc

theorem typeParams_some (h : Accepts typeParamList ls (.mark .closeBracket :: rest)) :
    Accepts typeParams (.mark .openBracket :: ls) rest := by
  intro c hc
  obtain ⟨_, c₁, hlt₁, hOpen, hc₁⟩ := mark?_of_lexemes hc
  unfold typeParams
  simp only [hOpen]
  refine (h c₁ hc₁).bind fun params c₂ hlt₂ _ hLeft => ?_
  exact (mark_gives hLeft).bind fun _ c₃ hlt₃ _ hLeft => .ok trivial hLeft

theorem paramList_none (rest : List Lexeme) :
    Accepts paramList (.mark .closeParen :: rest) (.mark .closeParen :: rest) := by
  intro c hc
  rw [paramList, if_pos (by rw [isAt_iff, hc]; rfl)]
  exact .ok trivial hc

theorem paramList_one (name : Text) (h : Accepts typeSpec ls rest)
    (hRest : rest.head? ≠ some (.mark .comma)) :
    Accepts paramList (.ident name :: .mark .colon :: ls) rest := by
  intro c hc
  rw [paramList, if_neg (by rw [isAt_iff, hc]; simp)]
  refine (ident_gives hc).bind ?_
  rintro ⟨_, t⟩ c₁ hlt₁ _ hLeft
  refine (mark_gives hLeft).bind fun _ c₂ hlt₂ _ hLeft => ?_
  refine (h c₂ hLeft).bind fun spec c₃ hlt₃ _ hLeft => ?_
  simp only [node, mark?_of_head (show c₃.bump.lexemes.head? ≠ some (.mark .comma) by
    rw [show c₃.bump.lexemes = rest from hLeft]; exact hRest)]
  exact .ok trivial hLeft

theorem paramList_more (name : Text) (h : Accepts typeSpec ls (.mark .comma :: ls'))
    (hMore : Accepts paramList ls' rest) :
    Accepts paramList (.ident name :: .mark .colon :: ls) rest := by
  intro c hc
  rw [paramList, if_neg (by rw [isAt_iff, hc]; simp)]
  refine (ident_gives hc).bind ?_
  rintro ⟨_, t⟩ c₁ hlt₁ _ hLeft
  refine (mark_gives hLeft).bind fun _ c₂ hlt₂ _ hLeft => ?_
  refine (h c₂ hLeft).bind fun spec c₃ hlt₃ _ hLeft => ?_
  obtain ⟨_, c₄, hlt₄, hComma, hc₄⟩ :=
    mark?_of_lexemes (show c₃.bump.lexemes = .mark .comma :: ls' from hLeft)
  simp only [node, hComma]
  exact (hMore c₄ hc₄).bind fun more c₅ hlt₅ _ hLeft => .ok trivial hLeft

theorem params_accepts (h : Accepts paramList ls (.mark .closeParen :: rest)) :
    Accepts params (.mark .openParen :: ls) rest := by
  intro c hc
  unfold params
  refine (mark_gives hc).bind fun _ c₁ hlt₁ _ hLeft => ?_
  refine (h c₁ hLeft).bind fun ps c₂ hlt₂ _ hLeft => ?_
  exact (mark_gives hLeft).bind fun _ c₃ hlt₃ _ hLeft => .ok trivial hLeft

theorem word?_of_lexemes {k : Keyword} (h : c.lexemes = .keyword k :: ls) :
    ∃ t c' h, c.word? k = some ⟨t, c', h⟩ ∧ c'.lexemes = ls := by
  cases hWord : c.word? k with
  | some r => exact ⟨_, _, r.lt, rfl, (List.cons.inj ((word?_eq_some hWord).2.symm.trans h)).2⟩
  | none => exact absurd (by rw [h]; rfl) (take?_eq_none hWord)

theorem word?_of_head {k : Keyword} (h : c.lexemes.head? ≠ some (.keyword k)) :
    c.word? k = none := by
  cases hWord : c.word? k with
  | some r => exact absurd (by rw [(word?_eq_some hWord).2]; rfl) h
  | none => rfl

def visibilityWords : List Keyword := [.everywhere, .hidden, .namespaced]

/-- A visibility is taken if there is one. -/
inductive Sees : List Lexeme → List Lexeme → Prop where
  | omitted {rest : List Lexeme} (h : ∀ k ∈ visibilityWords, rest.head? ≠ some (.keyword k)) :
    Sees rest rest
  | written {k : Keyword} (hk : k ∈ visibilityWords) (rest : List Lexeme) : Sees (.keyword k :: rest) rest

theorem visibility_rest (default : Visibility) (h : Sees ls rest) (hc : c.lexemes = ls) :
    (c.visibility default).rest.lexemes = rest := by
  unfold visibility
  cases h with
  | omitted h =>
    simp only [visibilityWords, List.mem_cons, List.not_mem_nil, or_false, forall_eq_or_imp, forall_eq,
      ← hc] at h
    simp only [word?_of_head h.1, word?_of_head h.2.1, word?_of_head h.2.2, hc]
  | @written k hk =>
    obtain ⟨_, c₁, hlt₁, hWord, hc₁⟩ := word?_of_lexemes hc
    have hOther {k' : Keyword} (h : k ≠ k') : c.word? k' = none :=
      word?_of_head (by rw [hc]; simpa using h)
    simp only [visibilityWords, List.mem_cons, List.not_mem_nil, or_false] at hk
    rcases hk with rfl | rfl | rfl
    · simp only [hWord, hc₁]
    · simp only [hOther (show Keyword.hidden ≠ .everywhere by decide), hWord, hc₁]
    · simp only [hOther (show Keyword.namespaced ≠ .everywhere by decide),
        hOther (show Keyword.namespaced ≠ .hidden by decide), hWord, hc₁]

theorem signature_accepts (hVisibility : Sees ls (.ident name :: ls₁))
    (hTypeParams : Accepts typeParams ls₁ ls₂) (hParams : Accepts params ls₂ ls₃)
    (hResult : ∀ t build, Accepts (optionalType t build) ls₃ rest) : Accepts signature ls rest := by
  intro c hc
  unfold signature
  have hSeen := visibility_rest .everywhere hVisibility hc
  refine (ident_gives hSeen).bind ?_
  rintro ⟨_, t⟩ c₁ hlt₁ _ hLeft
  refine (hTypeParams c₁ hLeft).bind fun typeParams c₂ hlt₂ _ hLeft => ?_
  refine (hParams c₂ hLeft).bind ?_
  rintro ⟨params, _⟩ c₃ hlt₃ _ hLeft
  exact (hResult t _ c₃ hLeft).bind fun result c₄ hlt₄ _ hLeft => .ok trivial hLeft

/-- A mark is passed over if it comes next. -/
inductive Skips (m : Mark) : List Lexeme → List Lexeme → Prop where
  | absent {rest : List Lexeme} (h : rest.head? ≠ some (.mark m)) : Skips m rest rest
  | present (rest : List Lexeme) : Skips m (.mark m :: rest) rest

theorem skip_rest (h : Skips m ls rest) (hc : c.lexemes = ls) : (c.skip m).rest.lexemes = rest := by
  unfold skip
  cases h with
  | absent h => simp only [mark?_of_head (show c.lexemes.head? ≠ some (.mark m) by rwa [hc]), hc]
  | present =>
    obtain ⟨_, c₁, hlt₁, hMark, hc₁⟩ := mark?_of_lexemes hc
    simp only [hMark, hc₁]

theorem signatures_none (rest : List Lexeme) :
    Accepts signatures (.mark .closeBrace :: rest) (.mark .closeBrace :: rest) := by
  intro c hc
  rw [signatures, if_pos (by rw [isAt_iff, hc]; rfl)]
  exact .ok trivial hc

theorem signature_head {r : Reply c.left (Signature Extent)} (h : c.signature = .ok r) (m : Mark) :
    ¬c.isAt m := by
  intro hAt
  rw [isAt_iff] at hAt
  have hSame : (c.visibility .everywhere).rest.lexemes = c.lexemes :=
    visibility_rest _ (.omitted (by rw [hAt]; simp)) rfl
  have hReads := ident_reads (c.visibility .everywhere).rest
  unfold signature at h
  cases hi : (c.visibility .everywhere).rest.ident with
  | error e =>
    simp only [hi] at h
    cases h
  | ok r =>
    rw [hi] at hReads
    rw [← hSame, hReads.2.lexemes] at hAt
    cases hAt

theorem signatures_more (hFirst : Accepts signature ls ls₁) (hSkip : Skips .semicolon ls₁ ls₂)
    (hMore : Accepts signatures ls₂ rest) : Accepts signatures ls rest := by
  intro c hc
  obtain ⟨r, hr, -, -⟩ := hFirst c hc
  rw [signatures, if_neg (signature_head hr _)]
  refine (hFirst c hc).bind fun first c₁ hlt₁ _ hLeft => ?_
  exact (hMore _ (skip_rest hSkip hLeft)).bind fun more c₂ hlt₂ _ hLeft => .ok trivial hLeft

theorem declaration_obtains {α β : Type} {members : (c : Cursor) → Parse α (c.left + 1)}
    {build : Extent → Text → List (TypeParam Extent) → TypeSpec Extent → α → β} {Q : β → Prop}
    {start : Nat} (hTypeParams : Accepts typeParams ls ls₁)
    (hSuper : ∀ t build, Accepts (optionalType t build) ls₁ (.mark .openBrace :: ls₂))
    (hMembers : Accepts members ls₂ (.mark .closeBrace :: rest))
    (hQ : ∀ m name ps s x, Q (build m name ps s x) := by simp) :
    Obtains (declaration members build start) Q (.ident name :: ls) rest := by
  intro c hc
  unfold declaration
  refine (ident_gives hc).bind ?_
  rintro ⟨_, t⟩ c₁ hlt₁ _ hLeft
  refine (hTypeParams c₁ hLeft).bind fun typeParams c₂ hlt₂ _ hLeft => ?_
  refine (hSuper t _ c₂ hLeft).bind fun super c₃ hlt₃ _ hLeft => ?_
  refine (mark_gives hLeft).bind fun _ c₄ hlt₄ _ hLeft => ?_
  refine (hMembers c₄ hLeft).bind fun all c₅ hlt₅ _ hLeft => ?_
  exact (mark_gives hLeft).bind fun _ c₆ hlt₆ _ hLeft => .ok (hQ ..) hLeft

theorem topLevel_of_type (hc : c.lexemes = ls)
    (hVisibility : Sees ls (.keyword .typeDecl :: .ident name :: ls₁))
    (hTypeParams : Accepts typeParams ls₁ ls₂)
    (hSuper : ∀ t build, Accepts (optionalType t build) ls₂ (.mark .openBrace :: ls₃))
    (hMethods : Accepts signatures ls₃ (.mark .closeBrace :: rest)) :
    Gives c.topLevel (fun t => ∃ d, t = .ofType d) rest := by
  obtain ⟨_, c₁, hlt₁, hWord, hc₁⟩ := word?_of_lexemes (visibility_rest .namespaced hVisibility hc)
  unfold topLevel
  simp only [hWord]
  have hDecl (start : Nat) (visibility : Visibility) :
      Gives (c₁.typeDecl start visibility) (fun t => ∃ d, t = .ofType d) rest :=
    declaration_obtains hTypeParams hSuper hMethods (fun _ _ _ _ _ => ⟨_, rfl⟩) c₁ hc₁
  exact (hDecl _ _).bind fun decl c₂ hlt₂ hDecl hLeft => .ok hDecl hLeft

theorem uses_none (h : rest.head? ≠ some (.keyword .use)) : Accepts uses rest rest := by
  intro c hc
  rw [uses]
  simp only [word?_of_head (show c.lexemes.head? ≠ some (.keyword .use) by rwa [hc])]
  exact .ok trivial hc

theorem uses_plain (hSource : Accepts qualifiedName ls ls₁) (hColon : ls₁.head? ≠ some (.mark .colon))
    (hSkip : Skips .semicolon ls₁ ls₂) (hMore : Accepts uses ls₂ rest) :
    Accepts uses (.keyword .use :: ls) rest := by
  intro c hc
  obtain ⟨_, c₁, hlt₁, hWord, hc₁⟩ := word?_of_lexemes hc
  rw [uses]
  simp only [hWord]
  refine (hSource c₁ hc₁).bind fun ⟨source, t⟩ c₂ hlt₂ _ hLeft => ?_
  simp only [mark?_of_head (show c₂.lexemes.head? ≠ some (.mark .colon) by rwa [hLeft])]
  have hNext := skip_rest hSkip (show c₂.bump.lexemes = ls₁ from hLeft)
  exact (hMore _ hNext).bind fun more c₃ hlt₃ _ hLeft => .ok trivial hLeft

theorem uses_renamed (name : Text)
    (hSource : Accepts qualifiedName ls (.mark .colon :: .ident name :: ls₁))
    (hSkip : Skips .semicolon ls₁ ls₂) (hMore : Accepts uses ls₂ rest) :
    Accepts uses (.keyword .use :: ls) rest := by
  intro c hc
  obtain ⟨_, c₁, hlt₁, hWord, hc₁⟩ := word?_of_lexemes hc
  rw [uses]
  simp only [hWord]
  refine (hSource c₁ hc₁).bind ?_
  rintro ⟨source, t⟩ c₂ hlt₂ _ hLeft
  obtain ⟨_, c₃, hlt₃, hColon, hc₃⟩ := mark?_of_lexemes hLeft
  simp only [hColon]
  refine (ident_gives hc₃).bind ?_
  rintro ⟨_, _⟩ c₄ hlt₄ _ hLeft
  have hNext := skip_rest hSkip (show c₄.bump.lexemes = ls₁ from hLeft)
  exact (hMore _ hNext).bind fun more c₅ hlt₅ _ hLeft => .ok trivial hLeft

theorem root_gives {Q : TopLevel Extent → Prop} (space : Text) (hc : c.lexemes = ls)
    (hUses : Accepts uses ls ls₁) (hTop : ∀ c₁ : Cursor, c₁.lexemes = ls₁ → Gives c₁.topLevel Q []) :
    ∃ r after, c.root space = .ok (r, after) ∧ Q r.top := by
  obtain ⟨⟨uses, c₁, hlt₁⟩, hu, -, hLeft₁⟩ := hUses c hc
  obtain ⟨⟨top, c₂, hlt₂⟩, ht, hQ, hLeft₂⟩ := hTop c₁ hLeft₁
  have hEmpty : c₂.tokens.isEmpty := by simpa [lexemes] using hLeft₂
  unfold root
  simp only [hu, bind, Except.bind, ht, hEmpty, if_true]
  exact ⟨_, _, rfl, hQ⟩

theorem typeParamList_of_rule {ps : List (TypeParam Unit)}
    (h : Separated .comma TypeParamRule ls ps rest) (hRest : rest.head? ≠ some (.mark .comma)) :
    Accepts typeParamList ls rest := by
  induction h with
  | one h =>
    cases h
    exact typeParamList_one _ hRest
  | more h _ ih =>
    cases h
    exact typeParamList_more _ (ih hRest)

theorem typeParams_of_rule {ps : List (TypeParam Unit)} (h : TypeParamsRule ls ps rest)
    (hRest : rest.head? ≠ some (.mark .openBracket)) : Accepts typeParams ls rest := by
  cases h with
  | omitted => exact typeParams_none hRest
  | written h =>
    obtain ⟨h⟩ := h
    exact typeParams_some (typeParamList_of_rule h (by simp))

theorem paramList_of_rule (h : Items ParamRule ls ps rest)
    (hRest : rest.head? = some (.mark .closeParen)) : Accepts paramList ls rest := by
  induction h with
  | one h =>
    obtain ⟨rfl, ⟨h⟩⟩ := h
    exact paramList_one _ (typeSpec_of_rule h (.of_head (by decide) hRest)) (by rw [hRest]; simp)
  | trailing h =>
    rename_i rest
    obtain ⟨rfl, ⟨h⟩⟩ := h
    obtain ⟨rest, rfl⟩ : ∃ more, rest = .mark .closeParen :: more := List.head?_eq_some_iff.1 hRest
    exact paramList_more _ (typeSpec_of_rule h (.mark (by decide))) (paramList_none rest)
  | more h _ ih =>
    obtain ⟨rfl, ⟨h⟩⟩ := h
    exact paramList_more _ (typeSpec_of_rule h (.mark (by decide))) (ih hRest)

theorem params_of_rule (h : Listed ParamRule ls ps rest) : Accepts params ls rest := by
  cases h with
  | none => exact params_accepts (paramList_none rest)
  | some h => exact params_accepts (paramList_of_rule h rfl)

theorem optionalType_of_rule {default s : TypeSpec Unit} (h : OptionalTypeRule default ls s rest)
    (hRest : Free typeMarks rest.head?) (t : Token) (build : Extent → TypeSpec Extent) :
    Accepts (optionalType t build) ls rest := by
  cases h with
  | omitted => exact optionalType_none t build (hRest .colon (by decide))
  | written h =>
    obtain ⟨h⟩ := h
    exact optionalType_some t build (typeSpec_of_rule h hRest)

theorem sees_of_rule {default v : Visibility} (h : Optional default VisibilityRule ls v rest)
    (hRest : ∀ k ∈ visibilityWords, rest.head? ≠ some (.keyword k)) : Sees ls rest := by
  cases h with
  | omitted => exact .omitted hRest
  | written h => cases h <;> exact .written (by decide) rest

theorem params_head (h : Listed ParamRule ls ps rest) : ls.head? = some (.mark .openParen) := by
  cases h <;> rfl

theorem signature_of_rule {s : Signature Unit} (h : SignatureRule ls s rest)
    (hRest : Free typeMarks rest.head?) : Accepts signature ls rest := by
  obtain ⟨hVisibility, hTypeParams, hParams, hResult⟩ := h
  exact signature_accepts (sees_of_rule hVisibility (by simp))
    (typeParams_of_rule hTypeParams (by rw [params_head hParams]; simp)) (params_of_rule hParams)
    (optionalType_of_rule hResult hRest)

theorem signature_free {s : Signature Unit} (h : SignatureRule ls s rest) (ms : List Mark) :
    Free ms ls.head? := by
  obtain ⟨hVisibility, -⟩ := h
  intro m _
  cases hVisibility with
  | omitted => simp
  | written h => cases h <;> simp

theorem signatures_free {ss : List (Signature Unit)} (h : Many (Ended SignatureRule) ls ss rest)
    (hRest : rest.head? = some (.mark .closeBrace)) (hm : .closeBrace ∉ ms) : Free ms ls.head? := by
  cases h with
  | none => exact .of_head hm hRest
  | more h =>
    cases h with
    | bare h => exact signature_free h ms
    | closed h => exact signature_free h ms

theorem signatures_of_rule {ss : List (Signature Unit)} (h : Many (Ended SignatureRule) ls ss rest)
    (hRest : rest.head? = some (.mark .closeBrace)) : Accepts signatures ls rest := by
  induction h with
  | none ls =>
    obtain ⟨rest, rfl⟩ : ∃ more, ls = .mark .closeBrace :: more := List.head?_eq_some_iff.1 hRest
    exact signatures_none rest
  | more hFirst hOthers ih =>
    cases hFirst with
    | bare h =>
      have hFree : Free (.semicolon :: typeMarks) (List.head? _) := signatures_free hOthers hRest (by decide)
      exact signatures_more (signature_of_rule h (hFree.mono (by decide)))
        (.absent (hFree .semicolon (by decide))) (ih hRest)
    | closed h =>
      exact signatures_more (signature_of_rule h (.mark (by decide))) (.present _) (ih hRest)

theorem uses_of_rule {us : List (Use Unit)} (h : Many (Ended UseRule) ls us rest)
    (hRest : ∃ k, k ≠ .use ∧ rest.head? = some (.keyword k)) : Accepts uses ls rest := by
  have hHead {ls : List Lexeme} {us : List (Use Unit)} (h : Many (Ended UseRule) ls us rest)
      (ms : List Mark) : Free ms ls.head? := by
    intro m _
    cases h with
    | none =>
      obtain ⟨k, -, hk⟩ := hRest
      rw [hk]
      simp
    | more h => obtain ⟨⟨_⟩ | ⟨_⟩⟩ | ⟨⟨_⟩ | ⟨_⟩⟩ := h <;> simp
  induction h with
  | none =>
    obtain ⟨k, hUse, hk⟩ := hRest
    refine uses_none ?_
    rw [hk]
    simpa using hUse
  | more hFirst hOthers ih =>
    have hFree := hHead hOthers [.dot, .colon, .semicolon]
    obtain ⟨⟨h⟩ | ⟨h⟩⟩ | ⟨⟨h⟩ | ⟨h⟩⟩ := hFirst
    · exact uses_plain (qualifiedName_of_rule h (hFree .dot (by decide))) (hFree .colon (by decide))
        (.absent (hFree .semicolon (by decide))) (ih hRest hHead)
    · exact uses_renamed _ (qualifiedName_of_rule h (by simp)) (.absent (hFree .semicolon (by decide)))
        (ih hRest hHead)
    · exact uses_plain (qualifiedName_of_rule h (by simp)) (by simp) (.present _) (ih hRest hHead)
    · exact uses_renamed _ (qualifiedName_of_rule h (by simp)) (.present _) (ih hRest hHead)

end Declarations

end Cursor

theorem Grammar.TopLevelRule.of_type {generic' : Bool}
    (h : TopLevelRule generic ls (.ofType d) rest) : TopLevelRule generic' ls (.ofType d) rest := by
  cases h with
  | ofType hVisibility hTypeParams hSuper hBody => exact .ofType hVisibility hTypeParams hSuper hBody

theorem Cursor.topLevel_of_rule (h : TopLevelRule generic ls (.ofType d) rest) (hc : c.lexemes = ls) :
    Gives c.topLevel (fun t => ∃ d, t = .ofType d) rest := by
  cases h with
  | ofType hVisibility hTypeParams hSuper hBody =>
    obtain ⟨hBody⟩ := hBody
    have hTypeParams := typeParams_of_rule hTypeParams (by
      cases hSuper with
      | omitted => simp
      | written h =>
        cases h
        simp)
    exact topLevel_of_type hc (sees_of_rule hVisibility (by simp [visibilityWords])) hTypeParams
      (optionalType_of_rule hSuper (.mark (by decide))) (signatures_of_rule hBody rfl)

theorem Cursor.topLevel_head (h : TopLevelRule generic ls (.ofType d) rest) :
    ∃ k, k ≠ .use ∧ ls.head? = some (.keyword k) := by
  cases h with
  | ofType hVisibility =>
    cases hVisibility with
    | omitted => exact ⟨.typeDecl, by decide, rfl⟩
    | written h =>
      cases h with
      | everywhere => exact ⟨.everywhere, by decide, rfl⟩
      | hidden => exact ⟨.hidden, by decide, rfl⟩
      | namespaced => exact ⟨.namespaced, by decide, rfl⟩

/-- The texts that are read as the declaration of a type are those whose tokens the grammar derives
as one. -/
theorem Root.parse_type_iff {text : Text} {tokens : List Token} (hLex : Token.lex text = .ok tokens)
    (space : Text) (next : Nat) :
    (∃ r after d, Root.parse space text next = .ok (r, after) ∧ r.top = .ofType d) ↔
      ∃ r d, RootRule false space (tokens.map (·.lexeme)) r ∧ r.top = .ofType d := by
  constructor
  · rintro ⟨r, after, d, hParse, hTop⟩
    have hRule := Cursor.root_reads space ⟨tokens, 0, text.length, next⟩
    rw [Root.parse, hLex] at hParse
    rw [show Cursor.root space _ = _ from hParse] at hRule
    have hRule : RootRule true space (tokens.map (·.lexeme)) (r.map forget) := hRule
    generalize hTree : r.map forget = tree at hRule
    obtain ⟨hUses, hDecl⟩ := hRule
    obtain rfl : r.top.map forget = _ := congrArg Root.top hTree
    rw [hTop] at hDecl
    exact ⟨_, _, .mk hUses hDecl.of_type, rfl⟩
  · rintro ⟨r, d, hRule, hTop⟩
    obtain ⟨hUses, hDecl⟩ := hRule
    obtain rfl := hTop
    have hRoot := Cursor.root_gives (c := ⟨tokens, 0, text.length, next⟩) space rfl
      (Cursor.uses_of_rule hUses (Cursor.topLevel_head hDecl))
      fun c₁ hc₁ => Cursor.topLevel_of_rule hDecl hc₁
    obtain ⟨r, after, hOk, d, hTop⟩ := hRoot
    refine ⟨r, after, d, ?_, hTop⟩
    rw [Root.parse, hLex]
    exact hOk

/-- A type whose method gives back a function, of which the grammar does not say where it ends. -/
def absorbing : Text := "use a.b: c; type T[A]: (A) & c \x7b f(x: (A,),): (A): A | T & A \x7d"

theorem parse_absorbing : ∃ tokens, Token.lex absorbing = .ok tokens ∧
    (∃ r after d, Root.parse "p" absorbing 1 = .ok (r, after) ∧ r.top = .ofType d) ∧
    ∃ r d, RootRule false "p" (tokens.map (·.lexeme)) r ∧ r.top = .ofType d := by
  have hType : (Root.parse "p" absorbing 1).map (fun x => x.1.top matches .ofType _) = .ok true := by
    decide +kernel
  cases hLex : Token.lex absorbing with
  | error e =>
    rw [Root.parse, hLex] at hType
    cases hType
  | ok tokens =>
    have hParse : ∃ r after d, Root.parse "p" absorbing 1 = .ok (r, after) ∧ r.top = .ofType d := by
      cases hParse : Root.parse "p" absorbing 1 with
      | error e =>
        rw [hParse] at hType
        cases hType
      | ok x =>
        obtain ⟨⟨ann, space, uses, top⟩, after⟩ := x
        rw [hParse] at hType
        cases top with
        | ofType d => exact ⟨_, _, d, rfl, rfl⟩
        | ofClass d => cases hType
    exact ⟨tokens, rfl, hParse, (Root.parse_type_iff hLex "p" 1).1 hParse⟩

end Assay
