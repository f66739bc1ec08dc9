import Mathlib
import Assay.Proofs.Derived
import Assay.Proofs.Spaced

/-! Reading depends on the lexemes only. Where two texts have the same lexemes, each reader gives trees
that differ in their annotations only, or stops in both at the same token for want of the same
things. -/

namespace Assay

open Grammar (forget)

namespace Cursor

/-- The offset is that of the place in the text where `k` tokens are left. -/
def StopsAt (c : Cursor) (offset k : Nat) : Prop := ∃ c', Leads c c' ∧ c'.left = k ∧ offset = c'.start

theorem StopsAt.advance {c c' : Cursor} (h : Leads c c') {offset k : Nat} (hStop : c'.StopsAt offset k) :
    c.StopsAt offset k := by
  obtain ⟨c'', hLeads, hLeft, hOffset⟩ := hStop
  exact ⟨c'', h.trans hLeads, hLeft, hOffset⟩

/-- Cursors in two texts with the same lexemes left. -/
structure Twins where
  fst : Cursor
  snd : Cursor
  same : fst.lexemes = snd.lexemes

namespace Twins

theorem left_eq (t : Twins) : t.fst.left = t.snd.left := by
  have hLength := congrArg List.length t.same
  simp only [lexemes, List.length_map] at hLength
  exact hLength

def bump (t : Twins) : Twins := ⟨t.fst.bump, t.snd.bump, t.same⟩

theorem isAt_iff (t : Twins) (m : Mark) : t.fst.isAt m ↔ t.snd.isAt m := by
  rw [Cursor.isAt_iff, Cursor.isAt_iff, t.same]

theorem isAtWord_iff (t : Twins) (k : Keyword) : t.fst.isAtWord k ↔ t.snd.isAtWord k := by
  have hPeek (c : Cursor) : c.peek? = c.lexemes.head? := by simp [peek?, lexemes]
  simp only [isAtWord, hPeek, t.same]

/-- Both cursors are further on, each in its own text. -/
structure Lead (t u : Twins) : Prop where
  fst : Leads t.fst u.fst
  snd : Leads t.snd u.snd

theorem Lead.refl (t : Twins) : t.Lead t := ⟨.refl _, .refl _⟩

theorem Lead.bump (t : Twins) : t.Lead t.bump := ⟨.bump _, .bump _⟩

theorem Lead.trans {t u v : Twins} (h : t.Lead u) (h' : u.Lead v) : t.Lead v :=
  ⟨h.fst.trans h'.fst, h.snd.trans h'.snd⟩

end Twins

section

variable {α β γ δ : Type} {n n' k k' : Nat} {t u : Twins} {P : α → β → Prop} {Q : γ → δ → Prop}

/-- Two replies with values that are related by `Q` and the same lexemes after them. -/
structure Paired (t : Twins) (r : Reply n α) (r' : Reply n' β) (Q : α → β → Prop) : Prop where
  fst : Leads t.fst r.rest
  snd : Leads t.snd r'.rest
  same : r.rest.lexemes = r'.rest.lexemes
  value : Q r.value r'.value

theorem Paired.of_lead {x : α} {x' : β} {h : u.fst.left < n} {h' : u.snd.left < n'} (hQ : P x x')
    (hLead : t.Lead u) : Paired t ⟨x, u.fst, h⟩ ⟨x', u.snd, h'⟩ P :=
  ⟨hLead.fst, hLead.snd, u.same, hQ⟩

@[elab_as_elim]
theorem Paired.elim {r : Reply n α} {r' : Reply n' β} {motive : Reply n α → Reply n' β → Prop}
    (h : Paired t r r' P) (hGives : ∀ x x' (u : Twins) (h : u.fst.left < n) (h' : u.snd.left < n'),
      t.Lead u → P x x' → motive ⟨x, u.fst, h⟩ ⟨x', u.snd, h'⟩) : motive r r' :=
  hGives r.value r'.value ⟨r.rest, r'.rest, h.same⟩ r.lt r'.lt ⟨h.fst, h.snd⟩ h.value

/-- Something is taken from both texts, related by `Q`, or from neither. -/
def BothTake (t : Twins) (o : Option (Reply n α)) (o' : Option (Reply n' β)) (Q : α → β → Prop) : Prop :=
  (∃ r r', o = some r ∧ o' = some r' ∧ Paired t r r' Q) ∨ o = none ∧ o' = none

@[elab_as_elim]
theorem BothTake.elim {o : Option (Reply n α)} {o' : Option (Reply n' β)}
    {motive : Option (Reply n α) → Option (Reply n' β) → Prop} (h : BothTake t o o' P)
    (hSome : ∀ x x' (u : Twins) (h : u.fst.left < n) (h' : u.snd.left < n'), t.Lead u → P x x' →
      motive (some ⟨x, u.fst, h⟩) (some ⟨x', u.snd, h'⟩))
    (hNone : motive none none) : motive o o' := by
  obtain ⟨r, r', rfl, rfl, hPaired⟩ | ⟨rfl, rfl⟩ := h
  · exact hPaired.elim hSome
  · exact hNone

/-- Two readers give values that are related by `Q`, with the same lexemes after them, or they stop
where the same number of tokens is left, for want of the same things. -/
def Alike (t : Twins) (p : Parse α n) (p' : Parse β n') (Q : α → β → Prop) : Prop :=
  (∃ r r', p = .ok r ∧ p' = .ok r' ∧ Paired t r r' Q) ∨
  ∃ e e', p = .error e ∧ p' = .error e' ∧ e.wants = e'.wants ∧
    ∃ k, t.fst.StopsAt e.offset k ∧ t.snd.StopsAt e'.offset k

namespace Alike

variable {p : Parse α n} {p' : Parse β n'}

theorem ok {r : Reply n α} {r' : Reply n' β} (h : Paired t r r' P) : Alike t (.ok r) (.ok r') P :=
  .inl ⟨r, r', rfl, rfl, h⟩

theorem here {x : γ} {y : δ} {last next last' next' : Nat} {h : t.fst.left < k} {h' : t.snd.left < k'}
    (hQ : Q x y) : Alike t (.ok ⟨x, ⟨t.fst.tokens, last, t.fst.size, next⟩, h⟩)
      (.ok ⟨y, ⟨t.snd.tokens, last', t.snd.size, next'⟩, h'⟩) Q :=
  .ok ⟨⟨List.suffix_rfl, rfl⟩, ⟨List.suffix_rfl, rfl⟩, t.same, hQ⟩

theorem fail (wants : List Want) :
    Alike t (t.fst.fail wants : Parse γ k) (t.snd.fail wants : Parse δ k') Q :=
  .inr ⟨_, _, rfl, rfl, rfl, _, ⟨_, .refl _, rfl, rfl⟩, ⟨_, .refl _, t.left_eq.symm, rfl⟩⟩

theorem advance (h : t.Lead u) (hp : Alike u p p' P) : Alike t p p' P := by
  obtain ⟨r, r', rfl, rfl, hPaired⟩ | ⟨e, e', rfl, rfl, hWants, k, hStop, hStop'⟩ := hp
  · exact .ok ⟨h.fst.trans hPaired.fst, h.snd.trans hPaired.snd, hPaired.same, hPaired.value⟩
  · exact .inr ⟨e, e', rfl, rfl, hWants, k, hStop.advance h.fst, hStop'.advance h.snd⟩

theorem bind {f : Reply n α → Parse γ k} {f' : Reply n' β → Parse δ k'} (hp : Alike t p p' P)
    (hf : ∀ x x' (u : Twins) (h : u.fst.left < n) (h' : u.snd.left < n'), P x x' →
      Alike u (f ⟨x, u.fst, h⟩) (f' ⟨x', u.snd, h'⟩) Q) : Alike t (p >>= f) (p' >>= f') Q := by
  obtain ⟨r, r', rfl, rfl, hPaired⟩ | ⟨e, e', rfl, rfl, hError⟩ := hp
  · change Alike t (f r) (f' r') Q
    exact hPaired.elim fun x x' u h h' hLead hP => .advance hLead (hf x x' u h h' hP)
  · exact .inr ⟨e, e', rfl, rfl, hError⟩

theorem ite {q : Parse α n} {q' : Parse β n'} {b b' : Prop} [Decidable b] [Decidable b'] (hb : b ↔ b')
    (hp : Alike t p p' P) (hq : Alike t q q' P) :
    Alike t (if b then p else q) (if b' then p' else q') P := by
  by_cases h : b
  · rwa [if_pos h, if_pos (hb.1 h)]
  · rwa [if_neg h, if_neg fun h' => h (hb.2 h')]

end Alike

end

theorem pop?_alike (t : Twins) :
    BothTake t t.fst.pop? t.snd.pop? fun x x' => x.lexeme = x'.lexeme := by
  cases h : t.fst.pop? with
  | none =>
    cases h' : t.snd.pop? with
    | none => exact .inr ⟨rfl, rfl⟩
    | some r' =>
      have hEq' := (pop?_eq_some h').2
      rw [← t.same, pop?_eq_none h] at hEq'
      cases hEq'
  | some r =>
    obtain ⟨hLeads, hEq⟩ := pop?_eq_some h
    cases h' : t.snd.pop? with
    | none =>
      rw [t.same, pop?_eq_none h'] at hEq
      cases hEq
    | some r' =>
      obtain ⟨hLeads', hEq'⟩ := pop?_eq_some h'
      obtain ⟨hLexeme, hRest⟩ := List.cons.inj (hEq.symm.trans (t.same.trans hEq'))
      exact .inl ⟨r, r', rfl, rfl, hLeads, hLeads', hRest, hLexeme⟩

theorem take?_alike (t : Twins) (l : Lexeme) :
    BothTake t (t.fst.take? l) (t.snd.take? l) fun _ _ => True := by
  unfold take?
  refine (pop?_alike t).elim (fun x x' u h h' hLead hLexeme => ?_) (.inr ⟨rfl, rfl⟩)
  simp only [← hLexeme]
  split
  · exact .inl ⟨_, _, rfl, rfl, .of_lead trivial hLead⟩
  · exact .inr ⟨rfl, rfl⟩

theorem mark?_alike (t : Twins) (m : Mark) :
    BothTake t (t.fst.mark? m) (t.snd.mark? m) fun _ _ => True :=
  take?_alike t _

theorem word?_alike (t : Twins) (k : Keyword) :
    BothTake t (t.fst.word? k) (t.snd.word? k) fun _ _ => True :=
  take?_alike t _

theorem mark_alike (t : Twins) (m : Mark) :
    Alike t (t.fst.mark m) (t.snd.mark m) fun _ _ => True := by
  unfold mark
  exact (mark?_alike t m).elim (fun _ _ _ _ _ hLead _ => .ok (.of_lead trivial hLead)) (.fail _)

theorem word_alike (t : Twins) (k : Keyword) :
    Alike t (t.fst.word k) (t.snd.word k) fun _ _ => True := by
  unfold word
  exact (word?_alike t k).elim (fun _ _ _ _ _ hLead _ => .ok (.of_lead trivial hLead)) (.fail _)

theorem skip_alike (t : Twins) (m : Mark) : Paired t (t.fst.skip m) (t.snd.skip m) fun _ _ => True := by
  unfold skip
  exact (mark?_alike t m).elim (fun _ _ _ _ _ hLead _ => .of_lead trivial hLead)
    (.of_lead trivial (.refl t))

theorem ident_alike (t : Twins) : Alike t t.fst.ident t.snd.ident
    fun x x' => x.1 = x'.1 ∧ x.2.lexeme = x'.2.lexeme := by
  unfold ident
  refine (pop?_alike t).elim (fun x x' u h h' hLead hLexeme => ?_) (.fail _)
  simp only [← hLexeme]
  split
  · exact .ok (.of_lead ⟨rfl, hLexeme⟩ hLead)
  · exact .fail _

theorem dotIdent?_alike (t : Twins) : BothTake t t.fst.dotIdent? t.snd.dotIdent?
    fun x x' => x.1 = x'.1 ∧ x.2.lexeme = x'.2.lexeme := by
  unfold dotIdent?
  refine (mark?_alike t .dot).elim (fun _ _ u h h' hLead _ => ?_) (.inr ⟨rfl, rfl⟩)
  obtain ⟨r, r', hr, hr', hPaired⟩ | ⟨e, e', he, he', -⟩ := ident_alike u
  · simp only [hr, hr']
    exact .inl ⟨_, _, rfl, rfl, hLead.fst.trans hPaired.fst, hLead.snd.trans hPaired.snd, hPaired.same,
      hPaired.value⟩
  · simp only [he, he']
    exact .inr ⟨rfl, rfl⟩

theorem moreName_alike (name : Text) {x x' : Token} (hx : x.lexeme = x'.lexeme) (t : Twins) :
    Paired t (moreName name x t.fst) (moreName name x' t.snd)
      fun y y' => y.1 = y'.1 ∧ y.2.lexeme = y'.2.lexeme := by
  rw [moreName.eq_def name x, moreName.eq_def name x']
  refine (dotIdent?_alike t).elim ?_ (.of_lead ⟨rfl, hx⟩ (.refl t))
  rintro ⟨part, x₁⟩ ⟨_, x₁'⟩ t₁ hlt₁ _ hLead ⟨rfl, hx₁⟩
  dsimp only
  refine (moreName_alike (name ++ "." ++ part) hx₁ t₁).elim fun y y' t₂ _ _ hLead' hy => ?_
  have hLead := hLead.trans hLead'
  exact ⟨hLead.fst, hLead.snd, t₂.same, hy⟩
termination_by t.fst.left

theorem qualifiedName_alike (t : Twins) : Alike t t.fst.qualifiedName t.snd.qualifiedName
    fun x x' => x.1 = x'.1 ∧ x.2.lexeme = x'.2.lexeme := by
  unfold qualifiedName
  refine (ident_alike t).bind ?_
  rintro ⟨name, x⟩ ⟨_, x'⟩ t₁ hlt₁ _ ⟨rfl, hx⟩
  obtain ⟨hFst, hSnd, hSame, hName⟩ := moreName_alike name hx t₁
  exact .ok ⟨hFst, hSnd, hSame, hName⟩

mutual

theorem typeSpec_alike (t : Twins) :
    Alike t t.fst.typeSpec t.snd.typeSpec fun s s' => s.map forget = s'.map forget := by
  rw [typeSpec.eq_def t.fst, typeSpec.eq_def t.snd]
  refine (intersection_alike t).bind fun first first' t₁ hlt₁ _ hFirst => ?_
  refine .ite (t₁.isAt_iff _) ?_ (.here hFirst)
  refine (moreUnion_alike t₁).bind fun more more' t₂ _ _ hMore => ?_
  exact .here (congrArg (TypeSpec.union ()) (congrArg₂ List.cons hFirst hMore))
termination_by t.fst.left * 8 + 3

theorem moreUnion_alike (t : Twins) : Alike t t.fst.moreUnion t.snd.moreUnion
    fun ss ss' => TypeSpec.mapList forget ss = TypeSpec.mapList forget ss' := by
  rw [moreUnion.eq_def t.fst, moreUnion.eq_def t.snd]
  refine (mark?_alike t .bar).elim (fun _ _ t₁ hlt₁ _ hLead _ => .advance hLead ?_) (.here rfl)
  refine (intersection_alike t₁).bind fun first first' t₂ hlt₂ _ hFirst => ?_
  refine (moreUnion_alike t₂).bind fun more more' t₃ _ _ hMore => ?_
  exact .here (congrArg₂ List.cons hFirst hMore)
termination_by t.fst.left * 8

theorem intersection_alike (t : Twins) :
    Alike t t.fst.intersection t.snd.intersection fun s s' => s.map forget = s'.map forget := by
  rw [intersection.eq_def t.fst, intersection.eq_def t.snd]
  refine (typeAtom_alike t).bind fun first first' t₁ hlt₁ _ hFirst => ?_
  refine .ite (t₁.isAt_iff _) ?_ (.here hFirst)
  refine (moreInter_alike t₁).bind fun more more' t₂ _ _ hMore => ?_
  exact .here (congrArg (TypeSpec.inter ()) (congrArg₂ List.cons hFirst hMore))
termination_by t.fst.left * 8 + 2

theorem moreInter_alike (t : Twins) : Alike t t.fst.moreInter t.snd.moreInter
    fun ss ss' => TypeSpec.mapList forget ss = TypeSpec.mapList forget ss' := by
  rw [moreInter.eq_def t.fst, moreInter.eq_def t.snd]
  refine (mark?_alike t .ampersand).elim (fun _ _ t₁ hlt₁ _ hLead _ => .advance hLead ?_) (.here rfl)
  refine (typeAtom_alike t₁).bind fun first first' t₂ hlt₂ _ hFirst => ?_
  refine (moreInter_alike t₂).bind fun more more' t₃ _ _ hMore => ?_
  exact .here (congrArg₂ List.cons hFirst hMore)
termination_by t.fst.left * 8

theorem typeAtom_alike (t : Twins) :
    Alike t t.fst.typeAtom t.snd.typeAtom fun s s' => s.map forget = s'.map forget := by
  rw [typeAtom.eq_def t.fst, typeAtom.eq_def t.snd]
  refine (mark?_alike t .openParen).elim (fun _ _ t₁ hlt₁ _ hLead _ => .advance hLead ?_) ?_
  · refine (typeList_alike t₁).bind fun types types' t₂ hlt₂ _ hTypes => ?_
    refine (mark_alike t₂ _).bind fun _ _ t₃ hlt₃ _ _ => ?_
    dsimp only
    refine (mark?_alike t₃ .colon).elim (fun _ _ t₄ hlt₄ _ hLead _ => .advance hLead ?_) ?_
    · refine (typeSpec_alike t₄).bind fun result result' t₅ _ _ hResult => ?_
      exact .here (congrArg₂ (TypeSpec.func ()) hTypes hResult)
    · match types, types', hTypes with
      | [], [], _ => exact .fail _
      | [one], [one'], hOne => exact .here (List.cons.inj hOne).1
      | _ :: _ :: _, _ :: _ :: _, _ => exact .fail _
      | [], _ :: _, hNil => cases hNil
      | _ :: _, [], hNil => cases hNil
      | [_], _ :: _ :: _, hOne => cases (List.cons.inj hOne).2
      | _ :: _ :: _, [_], hOne => cases (List.cons.inj hOne).2
  · refine (qualifiedName_alike t).bind ?_
    rintro ⟨name, _⟩ ⟨_, _⟩ t₁ hlt₁ _ ⟨rfl, -⟩
    dsimp only
    refine (mark?_alike t₁ .openBracket).elim (fun _ _ t₂ hlt₂ _ hLead _ => .advance hLead ?_) (.here rfl)
    refine (typeArgs_alike t₂).bind fun args args' t₃ _ _ hArgs => ?_
    refine (mark_alike t₃ _).bind fun _ _ t₄ _ _ _ => ?_
    exact .here (congrArg (TypeSpec.simple () name) hArgs)
termination_by t.fst.left * 8 + 1

theorem typeList_alike (t : Twins) : Alike t t.fst.typeList t.snd.typeList
    fun ss ss' => TypeSpec.mapList forget ss = TypeSpec.mapList forget ss' := by
  rw [typeList.eq_def t.fst, typeList.eq_def t.snd]
  refine .ite (t.isAt_iff _) (.here rfl) ?_
  refine (typeSpec_alike t).bind fun first first' t₁ hlt₁ _ hFirst => ?_
  dsimp only
  refine (mark?_alike t₁ .comma).elim (fun _ _ t₂ hlt₂ _ hLead _ => .advance hLead ?_)
    (.here (congrArg (List.cons · []) hFirst))
  refine (typeList_alike t₂).bind fun more more' t₃ _ _ hMore => ?_
  exact .here (congrArg₂ List.cons hFirst hMore)
termination_by t.fst.left * 8 + 4

theorem typeArgs_alike (t : Twins) : Alike t t.fst.typeArgs t.snd.typeArgs
    fun ss ss' => TypeSpec.mapList forget ss = TypeSpec.mapList forget ss' := by
  rw [typeArgs.eq_def t.fst, typeArgs.eq_def t.snd]
  refine (typeSpec_alike t).bind fun first first' t₁ hlt₁ _ hFirst => ?_
  dsimp only
  refine (mark?_alike t₁ .comma).elim (fun _ _ t₂ hlt₂ _ hLead _ => .advance hLead ?_)
    (.here (congrArg (List.cons · []) hFirst))
  refine (typeArgs_alike t₂).bind fun more more' t₃ _ _ hMore => ?_
  exact .here (congrArg₂ List.cons hFirst hMore)
termination_by t.fst.left * 8 + 4

end

theorem optionalType_alike {x x' : Token} {build build' : Extent → TypeSpec Extent} (t : Twins)
    (hBuild : ∀ e e', (build e).map forget = (build' e').map forget) :
    Alike t (t.fst.optionalType x build) (t.snd.optionalType x' build')
      fun s s' => s.map forget = s'.map forget := by
  unfold optionalType
  refine (mark?_alike t .colon).elim (fun _ _ t₁ hlt₁ _ hLead _ => .advance hLead ?_) (.here (hBuild _ _))
  exact (typeSpec_alike t₁).bind fun spec spec' t₂ _ _ hSpec => .here hSpec

theorem optionalInferred_alike {x x' : Token} (t : Twins) :
    Alike t (t.fst.optionalType x .inferred) (t.snd.optionalType x' .inferred)
      fun s s' => s.map forget = s'.map forget :=
  optionalType_alike t fun _ _ => rfl

theorem optionalSuper_alike {x x' : Token} (t : Twins) :
    Alike t (t.fst.optionalType x (.simple · objectName []))
      (t.snd.optionalType x' (.simple · objectName [])) fun s s' => s.map forget = s'.map forget :=
  optionalType_alike t fun _ _ => rfl

theorem typeParamList_alike (t : Twins) : Alike t t.fst.typeParamList t.snd.typeParamList
    fun ps ps' => ps.map (TypeParam.map forget) = ps'.map (TypeParam.map forget) := by
  rw [typeParamList.eq_def t.fst, typeParamList.eq_def t.snd]
  refine (ident_alike t).bind ?_
  rintro ⟨name, x⟩ ⟨_, x'⟩ t₁ hlt₁ _ ⟨rfl, -⟩
  dsimp only [nodeOf]
  refine .advance (.bump t₁) ((mark?_alike t₁.bump .comma).elim
    (fun _ _ t₂ hlt₂ _ hLead _ => .advance hLead ?_) (.here rfl))
  have : t₂.fst.left < t₁.fst.left := hlt₂
  refine (typeParamList_alike t₂).bind fun more more' t₃ _ _ hMore => ?_
  exact .here (congrArg (List.cons _) hMore)
termination_by t.fst.left

theorem typeParams_alike (t : Twins) : Alike t t.fst.typeParams t.snd.typeParams
    fun ps ps' => ps.map (TypeParam.map forget) = ps'.map (TypeParam.map forget) := by
  unfold typeParams
  refine (mark?_alike t .openBracket).elim (fun _ _ t₁ hlt₁ _ hLead _ => .advance hLead ?_) (.here rfl)
  refine (typeParamList_alike t₁).bind fun params params' t₂ _ _ hParams => ?_
  exact (mark_alike t₂ _).bind fun _ _ t₃ _ _ _ => .here hParams

theorem paramList_alike (t : Twins) : Alike t t.fst.paramList t.snd.paramList
    fun ps ps' => ps.map (Param.map forget) = ps'.map (Param.map forget) := by
  rw [paramList.eq_def t.fst, paramList.eq_def t.snd]
  refine .ite (t.isAt_iff _) (.here rfl) ?_
  refine (ident_alike t).bind ?_
  rintro ⟨name, _⟩ ⟨_, _⟩ t₁ hlt₁ _ ⟨rfl, -⟩
  refine (mark_alike t₁ _).bind fun _ _ t₂ hlt₂ _ _ => ?_
  refine (typeSpec_alike t₂).bind fun spec spec' t₃ hlt₃ _ hSpec => ?_
  have hFirst : (⟨(), name, spec.map forget⟩ : Param Unit) = ⟨(), name, spec'.map forget⟩ :=
    congrArg _ hSpec
  dsimp only [node]
  refine .advance (.bump t₃) ((mark?_alike t₃.bump .comma).elim
    (fun _ _ t₄ hlt₄ _ hLead _ => .advance hLead ?_) (.here (congrArg (List.cons · []) hFirst)))
  have : t₄.fst.left < t₃.fst.left := hlt₄
  refine (paramList_alike t₄).bind fun more more' t₅ _ _ hMore => ?_
  exact .here (congrArg₂ List.cons hFirst hMore)
termination_by t.fst.left

theorem params_alike (t : Twins) : Alike t t.fst.params t.snd.params
    fun ps ps' => ps.1.map (Param.map forget) = ps'.1.map (Param.map forget) := by
  unfold params
  refine (mark_alike t _).bind fun _ _ t₁ _ _ _ => ?_
  refine (paramList_alike t₁).bind fun params params' t₂ _ _ hParams => ?_
  exact (mark_alike t₂ _).bind fun close close' t₃ _ _ _ => .here hParams

theorem mode_alike (t : Twins) : Alike t t.fst.mode t.snd.mode fun mode mode' => mode = mode' := by
  unfold mode
  refine (word?_alike t .var).elim (fun _ _ t₁ _ _ hLead _ => .ok (.of_lead rfl hLead)) ?_
  exact (word_alike t _).bind fun _ _ t₁ _ _ _ => .here rfl

mutual

theorem value_alike (t : Twins) :
    Alike t t.fst.value t.snd.value fun v v' => v.map forget = v'.map forget := by
  rw [value.eq_def t.fst, value.eq_def t.snd]
  refine (primary_alike t).bind fun first first' t₁ hlt₁ _ hFirst => ?_
  exact (members_alike _ _ hFirst t₁).bind fun all all' t₂ _ _ hAll => .here hAll
termination_by t.fst.left * 8 + 2

theorem members_alike (start start' : Nat) {outer outer' : Value Extent}
    (hOuter : outer.map forget = outer'.map forget) (t : Twins) :
    Alike t (members start outer t.fst) (members start' outer' t.snd)
      fun v v' => v.map forget = v'.map forget := by
  rw [members.eq_def start outer, members.eq_def start' outer']
  refine (mark?_alike t .dot).elim (fun _ _ t₁ hlt₁ _ hLead _ => .advance hLead ?_) (.here hOuter)
  refine (ident_alike t₁).bind ?_
  rintro ⟨name, x⟩ ⟨_, x'⟩ t₂ hlt₂ _ ⟨rfl, -⟩
  have : t₂.bump.fst.left < t₁.fst.left := hlt₂
  dsimp only [nodeOf, id]
  refine .advance (.bump t₂) ((mark?_alike t₂.bump .equals).elim
    (fun _ _ t₃ hlt₃ _ hLead _ => .advance hLead ?_) ?_)
  · have : t₃.fst.left < t₂.fst.left := hlt₃
    refine (value_alike t₃).bind fun assigned assigned' t₄ _ _ hAssigned => ?_
    exact .here (congrArg₂ (Value.assignMember () · ⟨(), name, false⟩ ·) hOuter hAssigned)
  · refine .ite ?_ ?_ ?_
    · simp only [Bool.or_eq_true]
      exact or_congr (t₂.bump.isAt_iff _) (t₂.bump.isAt_iff _)
    · refine (call_alike x.start x'.start ⟨t₂.fst.extentOf x, name, true⟩
        ⟨t₂.snd.extentOf x', name, true⟩ rfl t₂.bump).bind fun inner inner' t₃ hlt₃ _ hInner => ?_
      have : t₃.bump.fst.left < t₂.fst.left := hlt₃
      refine .advance (.bump t₃) ((members_alike start start' ?_ t₃.bump).bind
        fun all all' t₄ _ _ hAll => .here hAll)
      exact congrArg₂ (Value.nested ()) hOuter hInner
    · have : t₂.bump.bump.bump.fst.left < t₁.fst.left := hlt₂
      refine .advance ((Twins.Lead.bump _).trans (.bump _)) ((members_alike start start' ?_
        t₂.bump.bump.bump).bind fun all all' t₄ _ _ hAll => .here hAll)
      exact congrArg (Value.nested () · _) hOuter
termination_by t.fst.left * 8

theorem primary_alike (t : Twins) :
    Alike t t.fst.primary t.snd.primary fun v v' => v.map forget = v'.map forget := by
  rw [primary.eq_def t.fst, primary.eq_def t.snd]
  refine (pop?_alike t).elim (fun x x' t₁ hlt₁ _ hLead hLexeme => ?_) (.fail _)
  simp only [← hLexeme]
  replace hLead := hLead.trans (.bump t₁)
  split
  case h_6 => exact binding_alike t
  case h_7 => exact binding_alike t
  case h_8 => exact function_alike t
  case h_9 => exact function_alike t
  case h_11 => exact .fail _
  case h_10 name hName =>
    have : t₁.bump.fst.left < t.fst.left := hlt₁
    dsimp only [nodeOf, id]
    refine .advance hLead (.ite ?_ ?_ ?_)
    · simp only [Bool.or_eq_true]
      exact or_congr (t₁.bump.isAt_iff _) (t₁.bump.isAt_iff _)
    · exact (call_alike x.start x'.start ⟨t₁.fst.extentOf x, name, true⟩
        ⟨t₁.snd.extentOf x', name, true⟩ rfl t₁.bump).bind fun v v' t₂ _ _ hCall => .here hCall
    · refine (mark?_alike t₁.bump .equals).elim
        (fun _ _ t₂ hlt₂ _ hLead _ => .advance hLead ?_) (.here rfl)
      have : t₂.fst.left < t₁.fst.left := hlt₂
      refine (value_alike t₂).bind fun assigned assigned' t₃ _ _ hAssigned => ?_
      exact .here (congrArg (Value.assign () ⟨(), name, false⟩) hAssigned)
  all_goals exact .ok (Paired.of_lead (u := t₁.bump) (n := t.fst.left) rfl hLead)
termination_by t.fst.left * 8 + 1

theorem call_alike (start start' : Nat) (ref ref' : Reference Extent)
    (hRef : ref.map forget = ref'.map forget) (t : Twins) :
    Alike t (call start ref t.fst) (call start' ref' t.snd)
      fun v v' => v.map forget = v'.map forget := by
  rw [call.eq_def start ref, call.eq_def start' ref']
  extract_lets go go'
  have hGo (types types' : List (TypeSpec Extent)) (u : Twins) (h : u.fst.left < t.fst.left + 1)
      (h' : u.snd.left < t.snd.left + 1)
      (hTypes : TypeSpec.mapList forget types = TypeSpec.mapList forget types') :
      Alike u (go ⟨types, u.fst, h⟩) (go' ⟨types', u.snd, h'⟩)
        fun v v' => v.map forget = v'.map forget := by
    refine (mark_alike u _).bind fun _ _ t₂ hlt₂ _ _ => ?_
    refine (arguments_alike t₂).bind fun args args' t₃ _ _ hArgs => ?_
    refine (mark_alike t₃ _).bind fun _ _ t₄ _ _ _ => .here ?_
    simp only [Value.map, hRef, hTypes]
    exact congrArg (Value.call () _ _) hArgs
  refine (mark?_alike t .openBracket).elim (fun _ _ t₁ hlt₁ _ hLead _ => .advance hLead ?_)
    (hGo [] [] t (by omega) (by omega) rfl)
  refine (typeArgs_alike t₁).bind fun types types' t₂ hlt₂ _ hTypes => ?_
  exact (mark_alike t₂ _).bind fun _ _ t₃ _ _ _ => hGo types types' t₃ (by omega) (by omega) hTypes
termination_by t.fst.left * 8

theorem arguments_alike (t : Twins) : Alike t t.fst.arguments t.snd.arguments
    fun vs vs' => Value.mapList forget vs = Value.mapList forget vs' := by
  rw [arguments.eq_def t.fst, arguments.eq_def t.snd]
  refine .ite (t.isAt_iff _) (.here rfl) ?_
  refine (value_alike t).bind fun first first' t₁ hlt₁ _ hFirst => ?_
  dsimp only
  refine (mark?_alike t₁ .comma).elim (fun _ _ t₂ hlt₂ _ hLead _ => .advance hLead ?_)
    (.here (congrArg (List.cons · []) hFirst))
  refine (arguments_alike t₂).bind fun more more' t₃ _ _ hMore => ?_
  exact .here (congrArg₂ List.cons hFirst hMore)
termination_by t.fst.left * 8 + 3

theorem binding_alike (t : Twins) :
    Alike t t.fst.binding t.snd.binding fun v v' => v.map forget = v'.map forget := by
  rw [binding.eq_def t.fst, binding.eq_def t.snd]
  refine (mode_alike t).bind ?_
  rintro mode _ t₁ hlt₁ _ rfl
  refine (ident_alike t₁).bind ?_
  rintro ⟨name, _⟩ ⟨_, _⟩ t₂ hlt₂ _ ⟨rfl, -⟩
  refine (optionalInferred_alike t₂).bind fun spec spec' t₃ hlt₃ _ hSpec => ?_
  refine (mark_alike t₃ _).bind fun _ _ t₄ hlt₄ _ _ => ?_
  refine (value_alike t₄).bind fun v v' t₅ _ _ hValue => ?_
  exact .here (congrArg₂ (Value.bind () mode name) hSpec hValue)
termination_by t.fst.left * 8

theorem function_alike (t : Twins) :
    Alike t t.fst.function t.snd.function fun v v' => v.map forget = v'.map forget := by
  rw [function.eq_def t.fst, function.eq_def t.snd]
  refine (typeParams_alike t).bind fun typeParams typeParams' t₁ hlt₁ _ hTypeParams => ?_
  refine (params_alike t₁).bind fun ⟨params, close⟩ ⟨params', close'⟩ t₂ hlt₂ _ hParams => ?_
  refine (optionalInferred_alike t₂).bind fun result result' t₃ hlt₃ _ hResult => ?_
  refine (mark_alike t₃ _).bind fun _ _ t₄ hlt₄ _ _ => ?_
  refine (mark_alike t₄ _).bind fun _ _ t₅ hlt₅ _ _ => ?_
  refine (statements_alike t₅).bind fun body body' t₆ _ _ hBody => ?_
  refine (mark_alike t₆ _).bind fun _ _ t₇ _ _ _ => .here ?_
  simp only at hParams
  simp only [Value.map, hTypeParams, hParams, hResult, hBody]
termination_by t.fst.left * 8

theorem statements_alike (t : Twins) : Alike t t.fst.statements t.snd.statements
    fun ss ss' => Statement.mapList forget ss = Statement.mapList forget ss' := by
  rw [statements.eq_def t.fst, statements.eq_def t.snd]
  refine .ite (t.isAt_iff _) (.here rfl) ?_
  refine (value_alike t).bind fun v v' t₁ hlt₁ _ hValue => .advance (.bump t₁) ?_
  dsimp only [node, id]
  refine (skip_alike t₁.bump .semicolon).elim fun _ _ t₂ hlt₂ _ hLead _ => .advance hLead ?_
  have : t₂.fst.left < t₁.fst.left + 1 := hlt₂
  refine (statements_alike t₂).bind fun more more' t₃ _ _ hMore => .here ?_
  have hLast : more.isEmpty = more'.isEmpty := by
    cases more <;> cases more' <;> first | rfl | cases hMore
  simp only [Statement.mapList, Statement.map, hMore, hLast]
  exact congrArg (fun x => Statement.mk () x _ :: _) hValue
termination_by t.fst.left * 8 + 3

end

theorem visibility_alike (default : Visibility) (t : Twins) :
    Paired t (t.fst.visibility default) (t.snd.visibility default) Eq := by
  unfold visibility
  refine (word?_alike t .everywhere).elim (fun _ _ _ _ _ hLead _ => .of_lead rfl hLead) ?_
  refine (word?_alike t .hidden).elim (fun _ _ _ _ _ hLead _ => .of_lead rfl hLead) ?_
  exact (word?_alike t .namespaced).elim (fun _ _ _ _ _ hLead _ => .of_lead rfl hLead)
    (.of_lead rfl (.refl t))

theorem signature_alike (t : Twins) :
    Alike t t.fst.signature t.snd.signature fun s s' => s.map forget = s'.map forget := by
  unfold signature
  refine (visibility_alike .everywhere t).elim ?_
  rintro visibility _ t₁ _ _ hLead rfl
  refine .advance hLead ((ident_alike t₁).bind ?_)
  rintro ⟨name, _⟩ ⟨_, _⟩ t₂ _ _ ⟨rfl, -⟩
  refine (typeParams_alike t₂).bind fun typeParams typeParams' t₃ _ _ hTypeParams => ?_
  refine (params_alike t₃).bind fun ⟨params, _⟩ ⟨params', _⟩ t₄ _ _ hParams => ?_
  refine (optionalInferred_alike t₄).bind fun result result' t₅ _ _ hResult => .here ?_
  simp only at hParams
  simp only [Signature.map, hTypeParams, hParams, hResult]

theorem method_alike (t : Twins) :
    Alike t t.fst.method t.snd.method fun m m' => m.map forget = m'.map forget := by
  unfold method
  refine (signature_alike t).bind fun signature signature' t₁ _ _ hSignature => ?_
  refine (mark_alike t₁ _).bind fun _ _ t₂ _ _ _ => ?_
  refine (statements_alike t₂).bind fun body body' t₃ _ _ hBody => ?_
  refine (mark_alike t₃ _).bind fun _ _ t₄ _ _ _ => ?_
  exact .here (congrArg₂ (Method.mk ()) hSignature hBody)

theorem classAttribute_alike (t : Twins) :
    Alike t t.fst.classAttribute t.snd.classAttribute fun a a' => a.map forget = a'.map forget := by
  unfold classAttribute
  refine (mode_alike t).bind ?_
  rintro mode _ t₁ _ _ rfl
  refine (ident_alike t₁).bind ?_
  rintro ⟨name, _⟩ ⟨_, _⟩ t₂ _ _ ⟨rfl, -⟩
  refine (optionalInferred_alike t₂).bind fun spec spec' t₃ _ _ hSpec => ?_
  dsimp -zeta only
  extract_lets go go'
  have hGo (v v' : Option (Value Extent)) (u : Twins) (h : u.fst.left < t₃.fst.left + 1)
      (h' : u.snd.left < t₃.snd.left + 1) (hValue : v.map (Value.map forget) = v'.map (Value.map forget)) :
      Alike u (go ⟨v, u.fst, h⟩) (go' ⟨v', u.snd, h'⟩) fun a a' => a.map forget = a'.map forget := by
    refine .advance (.bump u) ?_
    dsimp only [go, go', node, id]
    refine (skip_alike u.bump .semicolon).elim fun _ _ t₅ _ _ hLead _ => .ok (.of_lead ?_ hLead)
    exact congrArg₂ (Attribute.mk () mode name) hSpec hValue
  refine (mark?_alike t₃ .equals).elim (fun _ _ t₄ _ _ hLead _ => .advance hLead ?_)
    (hGo none none t₃ (by omega) (by omega) rfl)
  exact (value_alike t₄).bind fun v v' t₅ _ _ hValue =>
    hGo (some v) (some v') t₅ (by omega) (by omega) (congrArg some hValue)

theorem signatures_alike (t : Twins) : Alike t t.fst.signatures t.snd.signatures
    fun ss ss' => ss.map (Signature.map forget) = ss'.map (Signature.map forget) := by
  rw [signatures.eq_def t.fst, signatures.eq_def t.snd]
  refine .ite (t.isAt_iff _) (.here rfl) ?_
  refine (signature_alike t).bind fun first first' t₁ hlt₁ _ hFirst => ?_
  dsimp only
  refine (skip_alike t₁ .semicolon).elim fun _ _ t₂ hlt₂ _ hLead _ => .advance hLead ?_
  refine (signatures_alike t₂).bind fun more more' t₃ _ _ hMore => ?_
  exact .here (congrArg₂ List.cons hFirst hMore)
termination_by t.fst.left

theorem classMembers_alike (t : Twins) : Alike t t.fst.classMembers t.snd.classMembers fun ms ms' =>
    ms.1.map (Attribute.map forget) = ms'.1.map (Attribute.map forget) ∧
    ms.2.map (Method.map forget) = ms'.2.map (Method.map forget) := by
  rw [classMembers.eq_def t.fst, classMembers.eq_def t.snd]
  refine .ite (t.isAt_iff _) (.here ⟨rfl, rfl⟩) (.ite ?_ ?_ ?_)
  · simp only [Bool.or_eq_true, t.isAtWord_iff]
  · refine (classAttribute_alike t).bind fun first first' t₁ hlt₁ _ hFirst => ?_
    refine (classMembers_alike t₁).bind fun _ _ t₂ _ _ ⟨hMore, hMethods⟩ => ?_
    exact .here ⟨congrArg₂ List.cons hFirst hMore, hMethods⟩
  · refine (method_alike t).bind fun first first' t₁ hlt₁ _ hFirst => ?_
    refine (classMembers_alike t₁).bind fun _ _ t₂ _ _ ⟨hAttributes, hMore⟩ => ?_
    exact .here ⟨hAttributes, congrArg₂ List.cons hFirst hMore⟩
termination_by t.fst.left

theorem declaration_alike {α β : Type} {members : (c : Cursor) → Parse α (c.left + 1)}
    {build : Extent → Text → List (TypeParam Extent) → TypeSpec Extent → α → β} {R : α → α → Prop}
    {Q : β → β → Prop} (hMembers : ∀ t : Twins, Alike t (members t.fst) (members t.snd) R)
    (hBuild : ∀ {m m' ps ps' s s' x x'} name, ps.map (TypeParam.map forget) = ps'.map (TypeParam.map forget) →
      s.map forget = s'.map forget → R x x' → Q (build m name ps s x) (build m' name ps' s' x'))
    (start start' : Nat) (t : Twins) :
    Alike t (declaration members build start t.fst) (declaration members build start' t.snd) Q := by
  unfold declaration
  refine (ident_alike t).bind ?_
  rintro ⟨name, _⟩ ⟨_, _⟩ t₁ _ _ ⟨rfl, -⟩
  refine (typeParams_alike t₁).bind fun typeParams typeParams' t₂ _ _ hTypeParams => ?_
  refine (optionalSuper_alike t₂).bind fun super super' t₃ _ _ hSuper => ?_
  refine (mark_alike t₃ _).bind fun _ _ t₄ _ _ _ => ?_
  refine (hMembers t₄).bind fun all all' t₅ _ _ hAll => ?_
  exact (mark_alike t₅ _).bind fun _ _ t₆ _ _ _ => .here (hBuild name hTypeParams hSuper hAll)

theorem typeDecl_alike (start start' : Nat) (visibility : Visibility) (t : Twins) :
    Alike t (t.fst.typeDecl start visibility) (t.snd.typeDecl start' visibility)
      fun d d' => d.map forget = d'.map forget :=
  declaration_alike signatures_alike (fun _ hTypeParams hSuper hMethods => by
    simp only [TopLevel.map, hTypeParams, hSuper, hMethods]) start start' t

theorem classDecl_alike (start start' : Nat) (visibility : Visibility) (t : Twins) :
    Alike t (t.fst.classDecl start visibility) (t.snd.classDecl start' visibility)
      fun d d' => d.map forget = d'.map forget :=
  declaration_alike classMembers_alike (fun _ hTypeParams hSuper hAll => by
    simp only [TopLevel.map, hTypeParams, hSuper, hAll.1, hAll.2]) start start' t

theorem topLevel_alike (t : Twins) :
    Alike t t.fst.topLevel t.snd.topLevel fun d d' => d.map forget = d'.map forget := by
  unfold topLevel
  refine (visibility_alike .namespaced t).elim ?_
  rintro visibility _ t₁ _ _ hLead rfl
  dsimp only
  refine .advance hLead ((word?_alike t₁ .typeDecl).elim
    (fun _ _ t₂ _ _ hLead _ => .advance hLead ?_) ?_)
  · exact (typeDecl_alike _ _ _ t₂).bind fun decl decl' t₃ _ _ hDecl => .here hDecl
  · refine (word?_alike t₁ .classDecl).elim (fun _ _ t₂ _ _ hLead _ => .advance hLead ?_) (.fail _)
    exact (classDecl_alike _ _ _ t₂).bind fun decl decl' t₃ _ _ hDecl => .here hDecl

theorem uses_alike (t : Twins) : Alike t t.fst.uses t.snd.uses fun us us' =>
    us.map (fun u => (⟨(), u.source, u.name⟩ : Use Unit)) =
      us'.map fun u => ⟨(), u.source, u.name⟩ := by
  rw [uses.eq_def t.fst, uses.eq_def t.snd]
  refine (word?_alike t .use).elim (fun _ _ t₁ hlt₁ _ hLead _ => .advance hLead ?_) (.here rfl)
  refine (qualifiedName_alike t₁).bind ?_
  rintro ⟨source, x⟩ ⟨_, x'⟩ t₂ hlt₂ _ ⟨rfl, hx⟩
  dsimp -zeta only
  extract_lets go go'
  have hGo (name name' : Text) (u : Twins) (h : u.fst.left < t₂.fst.left + 1)
      (h' : u.snd.left < t₂.snd.left + 1) (hName : name = name') :
      Alike u (go ⟨name, u.fst, h⟩) (go' ⟨name', u.snd, h'⟩) fun us us' =>
        us.map (fun u => (⟨(), u.source, u.name⟩ : Use Unit)) =
          us'.map fun u => ⟨(), u.source, u.name⟩ := by
    subst hName
    refine .advance (.bump u) ?_
    dsimp only [go, go', node, id]
    refine (skip_alike u.bump .semicolon).elim fun _ _ t₄ hlt₄ _ hLead _ => .advance hLead ?_
    have : t₄.fst.left < u.fst.left + 1 := hlt₄
    refine (uses_alike t₄).bind fun more more' t₅ _ _ hMore => ?_
    exact .here (congrArg (List.cons _) hMore)
  refine (mark?_alike t₂ .colon).elim (fun _ _ t₃ _ _ hLead _ => .advance hLead ?_)
    (hGo _ _ t₂ (by omega) (by omega) (congrArg Lexeme.text hx))
  exact (ident_alike t₃).bind fun _ _ t₄ _ _ hName => hGo _ _ t₄ (by omega) (by omega) hName.1
termination_by t.fst.left

theorem root_alike (space : Text) (c c' : Cursor) (h : c.lexemes = c'.lexemes) :
    (∃ r r' after after', c.root space = .ok (r, after) ∧ c'.root space = .ok (r', after') ∧
      r.map forget = r'.map forget) ∨
    ∃ e e', c.root space = .error e ∧ c'.root space = .error e' ∧ e.wants = e'.wants ∧
      ∃ k, c.StopsAt e.offset k ∧ c'.StopsAt e'.offset k := by
  unfold root
  obtain ⟨⟨uses, c₁, hlt₁⟩, ⟨uses', c₁', hlt₁'⟩, hu, hu', hUses⟩ | ⟨e, e', hu, hu', hStop⟩ :=
    uses_alike ⟨c, c', h⟩
  · simp only [show c.uses = _ from hu, show c'.uses = _ from hu', bind, Except.bind]
    obtain ⟨⟨top, c₂, hlt₂⟩, ⟨top', c₂', hlt₂'⟩, ht, ht', hTop⟩ |
      ⟨e, e', ht, ht', hWants, k, hStop, hStop'⟩ := topLevel_alike ⟨c₁, c₁', hUses.same⟩
    · simp only [show c₁.topLevel = _ from ht, show c₁'.topLevel = _ from ht']
      have hEnd (d : Cursor) : d.tokens.isEmpty ↔ d.lexemes = [] := by simp [lexemes]
      have hSame : c₂.tokens.isEmpty ↔ c₂'.tokens.isEmpty := by
        rw [hEnd, hEnd, show c₂.lexemes = _ from hTop.same]
      by_cases hEmpty : c₂.tokens.isEmpty
      · rw [if_pos hEmpty, if_pos (hSame.1 hEmpty)]
        exact .inl ⟨_, _, _, _, rfl, rfl, congrArg₂ (Root.mk () space) hUses.value hTop.value⟩
      · rw [if_neg hEmpty, if_neg fun h' => hEmpty (hSame.2 h')]
        refine .inr ⟨_, _, rfl, rfl, rfl, c₂.left, ⟨c₂, hUses.fst.trans hTop.fst, rfl, rfl⟩, ?_⟩
        exact ⟨c₂', hUses.snd.trans hTop.snd, (Twins.left_eq ⟨c₂, c₂', hTop.same⟩).symm, rfl⟩
    · simp only [show c₁.topLevel = _ from ht, show c₁'.topLevel = _ from ht']
      exact .inr ⟨e, e', rfl, rfl, hWants, k, hStop.advance hUses.fst, hStop'.advance hUses.snd⟩
  · simp only [show c.uses = _ from hu, show c'.uses = _ from hu']
    exact .inr ⟨e, e', rfl, rfl, hStop⟩

theorem StopsAt.offsetAt {tokens : List Token} {last size next offset k : Nat}
    (h : StopsAt ⟨tokens, last, size, next⟩ offset k) :
    k ≤ tokens.length ∧ offset = Token.offsetAt tokens size (tokens.length - k) := by
  obtain ⟨⟨rest, last', size', next'⟩, ⟨⟨read, hRead⟩, hSize⟩, hLeft, hOffset⟩ := h
  obtain rfl : read ++ rest = tokens := hRead
  obtain rfl : size' = size := hSize
  obtain rfl : rest.length = k := hLeft
  refine ⟨by simp, ?_⟩
  rw [hOffset, List.length_append, Nat.add_sub_cancel, Token.offsetAt,
    List.getElem?_append_right le_rfl, Nat.sub_self]
  cases rest <;> rfl

end Cursor

/-- Only the lexemes of a text count. With single spaces between them a text has the same ones again,
and two texts with the same ones have the same tree up to its annotations, or stop at the same token
for want of the same things. -/
theorem Root.parse_ignores_layout :
    (∀ (text : Text) (tokens : List Token), Token.lex text = .ok tokens →
      ∃ again, Token.lex (Text.join " " (tokens.map (·.lexeme.text))) = .ok again ∧
        again.map (·.lexeme) = tokens.map (·.lexeme)) ∧
    ∀ (space s t : Text) (next next' : Nat) (tokens tokens' : List Token),
      Token.lex s = .ok tokens → Token.lex t = .ok tokens' →
      tokens.map (·.lexeme) = tokens'.map (·.lexeme) →
      (∃ r r' after after', Root.parse space s next = .ok (r, after) ∧
        Root.parse space t next' = .ok (r', after') ∧ r.map forget = r'.map forget) ∨
      ∃ e e', Root.parse space s next = .error e ∧ Root.parse space t next' = .error e' ∧
        e.wants = e'.wants ∧ ∃ i ≤ tokens.length,
          e.offset = Token.offsetAt tokens s.length i ∧
          e'.offset = Token.offsetAt tokens' t.length i := by
  refine ⟨fun text tokens h => ?_, fun space s t next next' tokens tokens' hs ht hSame => ?_⟩
  · obtain ⟨again, hAgain, hLexemes⟩ := Text.lexes_spaced h _
    exact ⟨again, hAgain, hLexemes⟩
  · have hLength : tokens.length = tokens'.length := by simpa using congrArg List.length hSame
    have hParse : ∀ {text next} {tokens : List Token}, Token.lex text = .ok tokens →
        Root.parse space text next = Cursor.root space ⟨tokens, 0, text.length, next⟩ := by
      intro text next tokens h
      rw [Root.parse, h]
      rfl
    rw [hParse hs, hParse ht]
    rcases Cursor.root_alike space ⟨tokens, 0, s.length, next⟩ ⟨tokens', 0, t.length, next'⟩ hSame with
      hOk | ⟨e, e', he, he', hWants, k, hStop, hStop'⟩
    · exact .inl hOk
    · obtain ⟨_, hOffset⟩ := hStop.offsetAt
      obtain ⟨_, hOffset'⟩ := hStop'.offsetAt
      exact .inr ⟨e, e', he, he', hWants, tokens.length - k, Nat.sub_le .., hOffset, hLength ▸ hOffset'⟩

/-- A text with a comment in it that stops in front of a parenthesis. -/
def commented : Text := "type  T // of nothing\n("

theorem parse_commented : ∃ tokens, Token.lex commented = .ok tokens ∧
    (∃ again, Token.lex (Text.join " " (tokens.map (·.lexeme.text))) = .ok again ∧
      again.map (·.lexeme) = tokens.map (·.lexeme)) ∧
    ∃ tokens', Token.lex "type T(" = .ok tokens' ∧
      tokens.map (·.lexeme) = tokens'.map (·.lexeme) ∧
      ∃ e e', Root.parse "p" commented 1 = .error e ∧ Root.parse "p" "type T(" 1 = .error e' ∧
        e.wants = e'.wants ∧ ∃ i ≤ tokens.length,
          e.offset = Token.offsetAt tokens commented.length i ∧
          e'.offset = Token.offsetAt tokens' ("type T(" : Text).length i := by
  have hLexemes {text : Text} (h : (Token.lex text).map (·.map (·.lexeme)) =
      .ok [.keyword .typeDecl, .ident "T", .mark .openParen]) :
      ∃ tokens, Token.lex text = .ok tokens ∧
        tokens.map (·.lexeme) = [.keyword .typeDecl, .ident "T", .mark .openParen] := by
    cases hLex : Token.lex text with
    | error e =>
      rw [hLex] at h
      cases h
    | ok tokens =>
      rw [hLex] at h
      exact ⟨tokens, rfl, Except.ok.inj h⟩
  obtain ⟨tokens, hLex, hTokens⟩ := hLexemes (show (Token.lex commented).map _ = _ by decide +kernel)
  obtain ⟨tokens', hLex', hTokens'⟩ := hLexemes (show (Token.lex "type T(").map _ = _ by decide +kernel)
  have hSame := hTokens.trans hTokens'.symm
  refine ⟨tokens, hLex, Root.parse_ignores_layout.1 _ _ hLex, tokens', hLex', hSame, ?_⟩
  rcases Root.parse_ignores_layout.2 "p" _ _ 1 1 _ _ hLex hLex' hSame with ⟨r, _, after, _, hOk, _⟩ | hError
  · have hFails : ¬(Root.parse "p" commented 1).isOk := by decide +kernel
    rw [hOk] at hFails
    exact absurd rfl hFails
  · exact hError

end Assay
