import Mathlib
import Assay.Proofs.Alike
import Assay.Proofs.Segments

/-! Values and declarations are completed like types. -/

namespace Assay

open Cursor

variable {c : Cursor} {β : Type} {n : Nat} {Q : List Lexeme → Prop}

namespace Segment

def valueMarks : List Mark := [.dot, .openParen, .openBracket, .equals]

/-- The marks that make a call or an assignment of a name. -/
def callMarks : List Mark := [.openParen, .openBracket, .equals]

def optionalType : Segment where
  Takes ls rest := ∀ t build, Accepts (Cursor.optionalType t build) ls rest
  Before := Free typeMarks
  sample := []
  dotted := false
  plain := plain_nil
  takes_sample h t build := optionalType_none t build (h .colon (by decide))

def typeParamList : Segment where
  Takes := Accepts Cursor.typeParamList
  Before := Free [.comma]
  sample := [.ident "a"]
  dotted := false
  plain := plain_ident
  takes_sample h := typeParamList_one "a" (h .comma (by decide))

def typeParams : Segment where
  Takes := Accepts Cursor.typeParams
  Before := Free [.openBracket]
  sample := []
  dotted := false
  plain := plain_nil
  takes_sample h := typeParams_none (h .openBracket (by decide))

def paramList : Segment where
  Takes := Accepts Cursor.paramList
  Before l := l = some (.mark .closeParen)
  sample := []
  dotted := false
  plain := plain_nil
  takes_sample h := by
    obtain ⟨rest, rfl⟩ := List.head?_eq_some_iff.1 h
    exact paramList_none rest

def params : Segment where
  Takes := Accepts Cursor.params
  Before _ := True
  sample := [.mark .openParen, .mark .closeParen]
  dotted := false
  plain := rfl
  takes_sample _ := params_accepts (paramList_none _)

def mode : Segment where
  Takes ls rest := ∃ k, (k = .val ∨ k = .var) ∧ ls = .keyword k :: rest
  Before _ := True
  sample := [.keyword .val]
  dotted := false
  plain := rfl
  takes_sample _ := ⟨.val, .inl rfl, rfl⟩

def semicolon : Segment where
  Takes := Skips .semicolon
  Before := Free [.semicolon]
  sample := []
  dotted := false
  plain := plain_nil
  takes_sample h := .absent (h .semicolon (by decide))

/-- A value. No dot comes after it: a dot belongs to the value. -/
def value : Segment where
  Takes ls rest := Accepts Cursor.value ls rest ∧ rest.head? ≠ some (.mark .dot)
  Before := Free valueMarks
  sample := [.keyword .none]
  dotted := false
  plain := rfl
  takes_sample h :=
    ⟨value_accepts (primary_literal .nothing _) fun _ _ => members_none (h .dot (by decide)),
      h .dot (by decide)⟩

def primary : Segment where
  Takes := Accepts Cursor.primary
  Before := Free callMarks
  sample := [.keyword .none]
  dotted := false
  plain := rfl
  takes_sample _ := primary_literal .nothing _

/-- A value that ends with another one, to which all dots belong. -/
def binding : Segment where
  Takes ls rest := Accepts Cursor.primary ls rest ∧ rest.head? ≠ some (.mark .dot)
  Before := Free valueMarks
  sample := [.keyword .none]
  dotted := false
  plain := rfl
  takes_sample h := ⟨primary_literal .nothing _, h .dot (by decide)⟩

def members : Segment where
  Takes ls rest := (∀ start outer, Accepts (Cursor.members start outer) ls rest) ∧
    rest.head? ≠ some (.mark .dot)
  Before := Free valueMarks
  sample := []
  dotted := true
  plain := plain_nil
  takes_sample h := ⟨fun _ _ => members_none (h .dot (by decide)), h .dot (by decide)⟩

def call : Segment where
  Takes ls rest := ∀ start ref, Accepts (Cursor.call start ref) ls rest
  Before _ := True
  sample := [.mark .openParen, .mark .closeParen]
  dotted := false
  plain := rfl
  takes_sample _ _ _ := call_plain (arguments_none _)

/-- What comes after a member: an assignment, or a call or nothing and further members. -/
def member : Segment where
  Takes ls rest := (∃ ls', ls = .mark .equals :: ls' ∧ value.Takes ls' rest) ∨
    (∃ mid, call.Takes ls mid ∧ members.Takes mid rest) ∨
    Free callMarks ls.head? ∧ members.Takes ls rest
  Before := Free valueMarks
  sample := []
  dotted := true
  plain := plain_nil
  takes_sample h := .inr (.inr ⟨h.mono (by decide), members.takes_sample h⟩)

def arguments : Segment where
  Takes := Accepts Cursor.arguments
  Before l := l = some (.mark .closeParen)
  sample := []
  dotted := false
  plain := plain_nil
  takes_sample h := by
    obtain ⟨rest, rfl⟩ := List.head?_eq_some_iff.1 h
    exact arguments_none rest

def statements : Segment where
  Takes := Accepts Cursor.statements
  Before l := l = some (.mark .closeBrace)
  sample := []
  dotted := false
  plain := plain_nil
  takes_sample h := by
    obtain ⟨rest, rfl⟩ := List.head?_eq_some_iff.1 h
    exact statements_none rest

end Segment

namespace Cursor

theorem optionalType_resumes (t : Token) (build : Extent → TypeSpec Extent) (c : Cursor) :
    Resumes c (c.optionalType t build) Segment.optionalType := by
  refine Resumes.within (S := Segment.type.optional .colon) ?_
    (.mk rfl rfl ?_ fun h => ⟨h, h .colon (by decide)⟩)
  · unfold optionalType
    cases hColon : c.mark? .colon with
    | none => exact (Segment.optional_absent _ hColon).bump
    | some r => exact .optional hColon rfl ((typeSpec_resumes r.rest).last fun r => ⟨_, rfl, rfl, rfl⟩)
  · rintro ls rest (⟨rfl, hRest⟩ | ⟨ls', rfl, hSpec⟩) t build
    · exact optionalType_none t build hRest
    · exact optionalType_some t build hSpec

theorem typeParamList_resumes (c : Cursor) : Resumes c c.typeParamList Segment.typeParamList := by
  have hJoins : Segment.ident.Joins (Segment.typeParamList.optional .comma) :=
    .of_empty rfl rfl fun _ _ => trivial
  refine Resumes.within (S := Segment.ident.andThen _ hJoins) ?_
    (.mk rfl rfl ?_ fun h => ⟨h, h .comma (by decide)⟩)
  · rw [typeParamList]
    refine (ident_resumes c).bind hJoins ?_
    rintro ⟨⟨name, t⟩, c₁, hlt₁⟩
    refine .of_bump ?_
    simp only [nodeOf]
    cases hComma : c₁.bump.mark? .comma with
    | none => exact Segment.optional_absent _ hComma
    | some r =>
      obtain ⟨_, c₂, hlt₂⟩ := r
      have : c₂.left < c₁.left := hlt₂
      exact .optional hComma rfl ((typeParamList_resumes c₂).last fun r => ⟨_, rfl, rfl, rfl⟩)
  · rintro ls rest ⟨_, ⟨name, rfl⟩, ⟨rfl, hRest⟩ | ⟨ls', rfl, hMore⟩⟩
    · exact typeParamList_one name hRest
    · exact typeParamList_more name hMore
termination_by c.left

theorem typeParams_resumes (c : Cursor) : Resumes c c.typeParams Segment.typeParams := by
  have hJoins : Segment.typeParamList.Joins (.mark .closeBracket) := .of_head rfl rfl (.mark (by decide))
  refine Resumes.within (S := (Segment.typeParamList.andThen _ hJoins).optional .openBracket) ?_
    (.mk rfl rfl ?_ fun h => ⟨trivial, h .openBracket (by decide)⟩)
  · unfold typeParams
    cases hOpen : c.mark? .openBracket with
    | none => exact Segment.optional_absent _ hOpen
    | some r =>
      refine .optional hOpen rfl ((typeParamList_resumes r.rest).bind hJoins fun ⟨ps, c₂, hlt₂⟩ => ?_)
      exact (mark_resumes c₂ _).last fun r => ⟨_, rfl, rfl, rfl⟩
  · rintro ls rest (⟨rfl, hRest⟩ | ⟨ls', rfl, _, hList, rfl⟩)
    · exact typeParams_none hRest
    · exact typeParams_some hList

theorem paramList_resumes (c : Cursor) : Resumes c c.paramList Segment.paramList := by
  have hMore : Segment.type.Joins (Segment.paramList.optional .comma) :=
    .of_empty rfl rfl fun _ h => .of_head (by decide) h.1
  have hColon : Segment.ident.Joins ((Segment.mark .colon).andThen
    (Segment.type.andThen _ hMore) (.after_lexeme rfl _)) := .of_head rfl rfl trivial
  rw [paramList]
  refine .ite (fun hAt => Segment.Took.at_end hAt (fun _ h => h) rfl paramList_none) fun _ => ?_
  refine Resumes.within (S := Segment.ident.andThen _ hColon) ?_
    (.mk rfl rfl ?_ fun h => ⟨h, by simp [show _ = _ from h]⟩)
  · refine (ident_resumes c).bind hColon ?_
    rintro ⟨⟨name, t⟩, c₁, hlt₁⟩
    refine (mark_resumes c₁ _).bind (.after_lexeme rfl _) ?_
    rintro ⟨_, c₂, hlt₂⟩
    refine (typeSpec_resumes c₂).bind hMore ?_
    rintro ⟨spec, c₃, hlt₃⟩
    refine .of_bump ?_
    simp only [node]
    cases hComma : c₃.bump.mark? .comma with
    | none => exact Segment.optional_absent _ hComma
    | some r =>
      obtain ⟨_, c₄, hlt₄⟩ := r
      have : c₄.left < c₃.left := hlt₄
      exact .optional hComma rfl ((paramList_resumes c₄).last fun r => ⟨_, rfl, rfl, rfl⟩)
  · rintro ls rest ⟨_, ⟨name, rfl⟩, _, rfl, _, hSpec, ⟨rfl, hRest⟩ | ⟨ls', rfl, hMore⟩⟩
    · exact paramList_one name hSpec hRest
    · exact paramList_more name hSpec hMore
termination_by c.left

theorem params_resumes (c : Cursor) : Resumes c c.params Segment.params := by
  have hClose : Segment.paramList.Joins (.mark .closeParen) := .of_head rfl rfl rfl
  refine Resumes.within (S := (Segment.mark .openParen).andThen (Segment.paramList.andThen _ hClose)
    (.after_lexeme rfl _)) ?_ (.mk rfl rfl ?_ id)
  · unfold params
    refine (mark_resumes c _).bind _ ?_
    rintro ⟨_, c₁, hlt₁⟩
    refine (paramList_resumes c₁).bind hClose ?_
    rintro ⟨ps, c₂, hlt₂⟩
    exact (mark_resumes c₂ _).last fun r => ⟨_, rfl, rfl, rfl⟩
  · rintro ls rest ⟨_, rfl, _, hList, rfl⟩
    exact params_accepts hList

theorem word?_took {k : Keyword} {r : Reply c.left Token} (h : c.word? k = some r) :
    (Segment.word k).Took c r.rest := by
  obtain ⟨hLeads, hEq⟩ := word?_eq_some h
  exact Segment.lexeme_took rfl hLeads hEq

theorem mode_resumes (c : Cursor) : Resumes c c.mode Segment.mode := by
  have hWithin {k : Keyword} (hk : k = .val ∨ k = .var) : (Segment.word k).Within .mode :=
    .mk rfl rfl (fun h => ⟨k, hk, h⟩) id
  unfold mode
  cases hVar : c.word? .var with
  | some r => exact (word?_took hVar).within (hWithin (.inr rfl))
  | none =>
    refine Resumes.last ?_ fun r => ⟨_, rfl, rfl, rfl⟩
    unfold word
    cases hVal : c.word? .val with
    | some r => exact (word?_took hVal).within (hWithin (.inl rfl))
    | none => exact .fail _

theorem semicolon_took (c : Cursor) : Segment.semicolon.Took c (c.skip .semicolon).rest := by
  unfold skip
  cases hMark : c.mark? .semicolon with
  | some r =>
    obtain ⟨hLeads, hEq⟩ := mark?_eq_some hMark
    exact ⟨hLeads, [.mark .semicolon], hEq, by simp, by simp, fun rest _ => .present rest⟩
  | none =>
    refine ⟨.refl c, [], rfl, by simp, fun _ => rfl, fun rest hFits => .absent ?_⟩
    rcases hFits with hBefore | hSame
    · exact hBefore .semicolon (by decide)
    · rw [List.nil_append, hSame.1]
      exact take?_eq_none hMark

/-- What a reader leaves satisfies `Q`, if it does not stop. -/
def Leaves {β : Type} {n : Nat} (p : Parse β n) (Q : List Lexeme → Prop) : Prop :=
  ∀ r, p = .ok r → Q r.rest.lexemes

theorem Leaves.bind {γ : Type} {k : Nat} {p : Parse β n} {f : Reply n β → Parse γ k}
    (hf : ∀ r, p = .ok r → Leaves (f r) Q) : Leaves (p >>= f) Q := by
  intro r' h
  cases hp : p with
  | error e =>
    rw [hp] at h
    cases h
  | ok r =>
    rw [hp] at h
    exact hf r hp r' h

theorem Leaves.ok {r : Reply n β} (h : Q r.rest.lexemes) : Leaves (.ok r) Q := by
  rintro _ ⟨⟩
  exact h

theorem Leaves.ite {b : Prop} [Decidable b] {p q : Parse β n} (hp : b → Leaves p Q)
    (hq : ¬b → Leaves q Q) : Leaves (if b then p else q) Q := by
  split
  · exact hp ‹_›
  · exact hq ‹_›

mutual

theorem value_leaves (c : Cursor) : Leaves c.value fun ls => ls.head? ≠ some (.mark .dot) := by
  rw [value]
  refine .bind fun ⟨first, c₁, hlt₁⟩ _ => .bind fun ⟨all, c₂, hlt₂⟩ hMembers => .ok ?_
  exact members_leaves c.start first c₁ _ hMembers
termination_by c.left * 8 + 2

theorem members_leaves (start : Nat) (outer : Value Extent) (c : Cursor) :
    Leaves (members start outer c) fun ls => ls.head? ≠ some (.mark .dot) := by
  rw [members]
  cases hDot : c.mark? .dot with
  | none => exact .ok (take?_eq_none hDot)
  | some r =>
    obtain ⟨_, c₁, hlt₁⟩ := r
    refine .bind fun ⟨⟨name, t⟩, c₂, hlt₂⟩ _ => ?_
    simp only [nodeOf, id]
    cases hEquals : c₂.bump.mark? .equals with
    | some r =>
      obtain ⟨_, c₃, hlt₃⟩ := r
      have : c₃.left < c₂.left := hlt₃
      exact .bind fun ⟨v, c₄, hlt₄⟩ hValue => .ok (value_leaves c₃ _ hValue)
    | none =>
      refine .ite (fun _ => ?_) fun _ => ?_
      · refine .bind fun ⟨inner, c₃, hlt₃⟩ _ => .bind fun ⟨all, c₄, hlt₄⟩ hMembers => .ok ?_
        have : c₃.left < c₂.left := hlt₃
        exact members_leaves start _ c₃.bump _ hMembers
      · refine .bind fun ⟨all, c₄, hlt₄⟩ hMembers => .ok ?_
        exact members_leaves start _ c₂.bump.bump.bump _ hMembers
termination_by c.left * 8

end

theorem literal_took {r : Reply c.left Token} (h : c.pop? = some r)
    (hLiteral : IsLiteral r.value.lexeme) : Segment.primary.Took c r.rest := by
  obtain ⟨hLeads, hc⟩ := pop?_eq_some h
  refine ⟨hLeads, [r.value.lexeme], hc, ?_, by simp, fun rest _ => primary_literal hLiteral rest⟩
  intro hHead
  rw [Option.some.inj hHead] at hLiteral
  cases hLiteral

theorem plainName_took {r : Reply c.left Token} {name : Text} (h : c.pop? = some r)
    (hName : r.value.lexeme = .ident name) (hFree : Free Segment.callMarks r.rest.lexemes.head?) :
    Segment.primary.Took c r.rest := by
  obtain ⟨hLeads, hc⟩ := pop?_eq_some h
  rw [hName] at hc
  refine ⟨hLeads, [.ident name], hc, by simp, by simp, fun rest hFits => primary_ident name ?_⟩
  rcases hFits with hBefore | hSame
  · exact hBefore
  · rw [← hSame.1] at hFree
    exact hFree

theorem free_callMarks (hCall : ¬(c.isAt .openParen || c.isAt .openBracket))
    (hEquals : c.mark? .equals = none) : Free Segment.callMarks c.lexemes.head? := by
  rw [Bool.or_eq_true, isAt_iff, isAt_iff, not_or] at hCall
  intro m hm
  simp only [Segment.callMarks, List.mem_cons, List.not_mem_nil, or_false] at hm
  rcases hm with rfl | rfl | rfl
  · exact hCall.1
  · exact hCall.2
  · exact take?_eq_none hEquals

mutual

theorem value_resumes (c : Cursor) : Resumes c c.value Segment.value := by
  rw [value]
  rcases primary_resumes c with hPrimary | ⟨hBinding, hLeaves⟩
  · have hJoins : Segment.primary.Joins .members :=
      ⟨fun _ h => h.mono (by decide), fun _ => .mark (by decide)⟩
    refine Resumes.within (S := Segment.primary.andThen .members hJoins) ?_
      (.mk rfl rfl (fun ⟨_, hFirst, hMore, hRest⟩ => ⟨value_accepts hFirst hMore, hRest⟩) id)
    refine hPrimary.bind hJoins fun ⟨first, c₁, hlt₁⟩ => ?_
    exact (members_resumes c.start first c₁).last fun r => ⟨_, rfl, rfl, rfl⟩
  · refine Resumes.within (S := Segment.binding) ?_ (.mk rfl rfl (fun ⟨hFirst, hRest⟩ =>
      ⟨value_accepts hFirst fun _ _ => members_none hRest, hRest⟩) id)
    refine hBinding.last_of_eq fun ⟨first, c₁, hlt₁⟩ hFirst => ?_
    have hNone := mark?_of_head (hLeaves _ hFirst)
    simp only at hNone
    simp only [members, hNone]
    exact ⟨_, rfl, rfl, rfl⟩
termination_by c.left * 8 + 2

theorem members_resumes (start : Nat) (outer : Value Extent) (c : Cursor) :
    Resumes c (members start outer c) Segment.members := by
  have hMember : Segment.ident.Joins .member := ⟨fun _ _ => trivial, fun _ => trivial⟩
  refine Resumes.within (S := (Segment.ident.andThen .member hMember).optional .dot) ?_
    (.mk rfl rfl ?_ fun h => ⟨h, h .dot (by decide)⟩)
  · rw [members]
    cases hDot : c.mark? .dot with
    | none => exact Segment.optional_absent _ hDot
    | some r =>
      obtain ⟨_, c₁, hlt₁⟩ := r
      refine .optional hDot rfl ((ident_resumes c₁).bind hMember
        fun ⟨⟨name, t⟩, c₂, hlt₂⟩ => .of_bump ?_)
      simp only [nodeOf, id]
      cases hEquals : c₂.bump.mark? .equals with
      | some r =>
        obtain ⟨_, c₃, hlt₃⟩ := r
        have : c₃.left < c₂.left := hlt₃
        refine Resumes.within (S := (Segment.mark .equals).andThen .value (.after_lexeme rfl _)) ?_
          (.mk rfl rfl (fun ⟨ls', hEquals, hValue⟩ => .inl ⟨ls', hEquals, hValue⟩) id)
        refine .after (Segment.mark?_took hEquals) ?_ _
        exact (value_resumes c₃).last fun r => ⟨_, rfl, rfl, rfl⟩
      | none =>
        refine .ite (fun _ => ?_) fun hCall => ?_
        · have hMore : Segment.call.Joins .members := ⟨fun _ _ => trivial, fun _ => trivial⟩
          refine Resumes.within (S := Segment.call.andThen .members hMore) ?_
            (.mk rfl rfl (fun h => .inr (.inl h)) id)
          refine (call_resumes t.start _ c₂.bump).bind hMore fun ⟨inner, c₃, hlt₃⟩ => .of_bump ?_
          have : c₃.left < c₂.left := hlt₃
          exact (members_resumes start _ c₃.bump).last fun r => ⟨_, rfl, rfl, rfl⟩
        · refine Resumes.within (S := Segment.members.guarded Segment.callMarks rfl) ?_
            (.mk rfl rfl (fun h => .inr (.inr h)) fun h => ⟨h, h.mono (by decide)⟩)
          refine Resumes.guarded ?_ rfl (free_callMarks hCall hEquals)
          refine .of_bump (.of_bump ?_)
          exact (members_resumes start _ c₂.bump.bump.bump).last fun r => ⟨_, rfl, rfl, rfl⟩
  · rintro ls rest (⟨rfl, hRest⟩ | ⟨ls', rfl, _, ⟨name, rfl⟩, ⟨ls', rfl, hValue, hRest⟩ |
      ⟨mid, hCall, hMore, hRest⟩ | ⟨hFree, hMore, hRest⟩⟩)
    · exact ⟨fun _ _ => members_none hRest, hRest⟩
    · exact ⟨fun _ _ => members_assign name hValue, hRest⟩
    · exact ⟨fun _ _ => members_call name hCall hMore, hRest⟩
    · exact ⟨fun _ _ => members_member name hFree hMore, hRest⟩
termination_by c.left * 8

theorem primary_resumes (c : Cursor) : Resumes c c.primary Segment.primary ∨
    Resumes c c.primary Segment.binding ∧
      Leaves c.primary fun ls => ls.head? ≠ some (.mark .dot) := by
  rw [primary]
  cases hPop : c.pop? with
  | none => exact .inl (.fail _)
  | some r =>
    obtain ⟨t, after, hlt⟩ := r
    dsimp only
    split
    case h_6 => exact .inr (binding_resumes c)
    case h_7 => exact .inr (binding_resumes c)
    case h_8 => exact .inl (function_resumes c)
    case h_9 => exact .inl (function_resumes c)
    case h_11 => exact .inl (.fail _)
    case h_10 name hName =>
      simp only [nodeOf, id]
      have hIdent : Segment.ident.Took c after.bump := by
        obtain ⟨hLeads, hc⟩ := pop?_eq_some hPop
        refine ⟨hLeads.trans (.bump after), [.ident name], ?_, by simp, by simp, fun rest _ => ⟨name, rfl⟩⟩
        rw [hc]
        exact congrArg (· :: after.lexemes) hName
      by_cases hCall : after.bump.isAt .openParen || after.bump.isAt .openBracket
      · have hJoins : Segment.ident.Joins .call := .of_head rfl rfl trivial
        refine .inl (Resumes.ite (fun _ => ?_) fun hNot => absurd hCall hNot)
        refine Resumes.within (S := Segment.ident.andThen .call hJoins) ?_
          (.mk rfl rfl (fun ⟨_, ⟨name, hName⟩, hCall⟩ => hName ▸ primary_call name hCall) fun _ => trivial)
        refine .after hIdent ?_ _
        exact (call_resumes t.start _ after.bump).last fun r => ⟨_, rfl, rfl, rfl⟩
      · cases hEquals : after.bump.mark? .equals with
        | none =>
          refine .inl (Resumes.ite (fun hPos => absurd hPos hCall) fun _ => ?_)
          exact (plainName_took hPop hName (free_callMarks (c := after.bump) hCall hEquals)).bump.bump
        | some r =>
          obtain ⟨_, c₂, hlt₂⟩ := r
          have : c₂.left < after.left := hlt₂
          have hValue : (Segment.mark .equals).Joins .value := .after_lexeme rfl _
          have hJoins : Segment.ident.Joins ((Segment.mark .equals).andThen .value hValue) :=
            .of_head rfl rfl trivial
          refine .inr ⟨Resumes.ite (fun hPos => absurd hPos hCall) fun _ => ?_, ?_⟩
          · refine Resumes.within (S := Segment.ident.andThen _ hJoins) ?_ (.mk rfl rfl ?_ id)
            · refine .after hIdent (.after (Segment.mark?_took hEquals) ?_ _) _
              exact (value_resumes c₂).last fun r => ⟨_, rfl, rfl, rfl⟩
            · rintro ls rest ⟨_, ⟨name, rfl⟩, _, rfl, hValue, hRest⟩
              exact ⟨primary_assign name hValue, hRest⟩
          · refine Leaves.ite (fun hPos => absurd hPos hCall) fun _ => ?_
            exact .bind fun ⟨v, c₃, hlt₃⟩ hValue => .ok (value_leaves c₂ _ hValue)
    all_goals
      rename_i hLexeme
      refine .inl (literal_took hPop ?_).bump
      rw [show t.lexeme = _ from hLexeme]
      constructor
termination_by c.left * 8 + 1

theorem call_resumes (start : Nat) (ref : Reference Extent) (c : Cursor) :
    Resumes c (call start ref c) Segment.call := by
  have hClose : Segment.arguments.Joins (.mark .closeParen) := .of_head rfl rfl rfl
  have hOpen : (Segment.mark .openParen).Joins (Segment.arguments.andThen _ hClose) := .after_lexeme rfl _
  have hCall (types : List (TypeSpec Extent)) (c₁ : Cursor) (hlt₁ : c₁.left < c.left + 1) :
      Resumes c₁ (do
          let ⟨_, c₂, _⟩ ← c₁.mark .openParen
          let ⟨args, c₃, _⟩ ← c₂.arguments
          let ⟨_, c₄, _⟩ ← c₃.mark .closeParen
          return c₄.node start (.call · ref types args) : Parse (Value Extent) c.left)
        ((Segment.mark .openParen).andThen _ hOpen) := by
    refine (mark_resumes c₁ _).bind _ fun ⟨_, c₂, hlt₂⟩ => ?_
    refine (arguments_resumes c₂).bind hClose fun ⟨args, c₃, hlt₃⟩ => ?_
    exact (mark_resumes c₃ _).last fun r => ⟨_, rfl, rfl, rfl⟩
  rw [call]
  cases hBracket : c.mark? .openBracket with
  | none =>
    refine Resumes.within (hCall [] c (by omega)) (.mk rfl rfl ?_ id)
    rintro ls rest ⟨_, rfl, _, hArgs, rfl⟩ start ref
    exact call_plain hArgs
  | some r =>
    obtain ⟨_, c₁, hlt₁⟩ := r
    have hTypes : Segment.typeArgs.Joins ((Segment.mark .closeBracket).andThen
      ((Segment.mark .openParen).andThen _ hOpen) (.after_lexeme rfl _)) :=
      .of_head rfl rfl (.mark (by decide))
    refine Resumes.within (S := (Segment.mark .openBracket).andThen (Segment.typeArgs.andThen _ hTypes)
      (.after_lexeme rfl _)) ?_ (.mk rfl rfl ?_ id)
    · refine .after (Segment.mark?_took hBracket) ?_ _
      refine (typeArgs_resumes c₁).bind hTypes fun ⟨types, c₂, hlt₂⟩ => ?_
      refine (mark_resumes c₂ _).bind _ fun ⟨_, c₃, hlt₃⟩ => ?_
      exact hCall types c₃ (by omega)
    · rintro ls rest ⟨_, rfl, _, hTypes, _, rfl, _, rfl, _, hArgs, rfl⟩ start ref
      exact call_typed hTypes hArgs
termination_by c.left * 8

theorem arguments_resumes (c : Cursor) : Resumes c c.arguments Segment.arguments := by
  have hMore : Segment.value.Joins (Segment.arguments.optional .comma) :=
    .of_empty rfl rfl fun _ h => .of_head (by decide) h.1
  rw [arguments]
  refine .ite (fun hAt => Segment.Took.at_end hAt (fun _ h => h) rfl arguments_none) fun _ => ?_
  refine Resumes.within (S := Segment.value.andThen _ hMore) ?_
    (.mk rfl rfl ?_ fun h => ⟨h, by simp [show _ = _ from h]⟩)
  · refine (value_resumes c).bind hMore fun ⟨first, c₁, hlt₁⟩ => ?_
    cases hComma : c₁.mark? .comma with
    | none =>
      simp only [hComma]
      exact Segment.optional_absent _ hComma
    | some r =>
      obtain ⟨_, c₂, hlt₂⟩ := r
      simp only [hComma]
      exact .optional hComma rfl ((arguments_resumes c₂).last fun r => ⟨_, rfl, rfl, rfl⟩)
  · rintro ls rest ⟨_, ⟨hFirst, -⟩, ⟨rfl, hRest⟩ | ⟨ls', rfl, hMore⟩⟩
    · exact arguments_one hFirst hRest
    · exact arguments_more hFirst hMore
termination_by c.left * 8 + 3

theorem binding_resumes (c : Cursor) : Resumes c c.binding Segment.binding ∧
    Leaves c.binding fun ls => ls.head? ≠ some (.mark .dot) := by
  have hEquals : Segment.optionalType.Joins ((Segment.mark .equals).andThen .value
    (.after_lexeme rfl _)) := .of_head rfl rfl (.mark (by decide))
  have hSpec : Segment.ident.Joins (Segment.optionalType.andThen _ hEquals) := .of_head rfl rfl trivial
  have hName : Segment.mode.Joins (Segment.ident.andThen _ hSpec) := .of_head rfl rfl trivial
  rw [binding]
  constructor
  · refine Resumes.within (S := Segment.mode.andThen _ hName) ?_ (.mk rfl rfl ?_ id)
    · refine (mode_resumes c).bind hName fun ⟨mode, c₁, hlt₁⟩ => ?_
      refine (ident_resumes c₁).bind hSpec fun ⟨⟨name, t⟩, c₂, hlt₂⟩ => ?_
      refine (optionalType_resumes t .inferred c₂).bind hEquals fun ⟨spec, c₃, hlt₃⟩ => ?_
      refine (mark_resumes c₃ _).bind _ fun ⟨_, c₄, hlt₄⟩ => ?_
      exact (value_resumes c₄).last fun r => ⟨_, rfl, rfl, rfl⟩
    · rintro ls rest ⟨_, ⟨k, hk, rfl⟩, _, ⟨name, rfl⟩, _, hSpec, _, rfl, hValue, hRest⟩
      exact ⟨primary_of_binding (binding_accepts hk name hSpec hValue), hRest⟩
  · refine .bind fun ⟨mode, c₁, hlt₁⟩ _ => .bind fun ⟨⟨name, t⟩, c₂, hlt₂⟩ _ => ?_
    refine .bind fun ⟨spec, c₃, hlt₃⟩ _ => .bind fun ⟨_, c₄, hlt₄⟩ _ => ?_
    exact .bind fun ⟨v, c₅, hlt₅⟩ hValue => .ok (value_leaves c₄ _ hValue)
termination_by c.left * 8

theorem function_resumes (c : Cursor) : Resumes c c.function Segment.primary := by
  have hClose : Segment.statements.Joins (.mark .closeBrace) := .of_head rfl rfl rfl
  have hArrow : Segment.optionalType.Joins ((Segment.mark .arrow).andThen ((Segment.mark .openBrace).andThen
    (Segment.statements.andThen _ hClose) (.after_lexeme rfl _)) (.after_lexeme rfl _)) :=
    .of_head rfl rfl (.mark (by decide))
  have hResult : Segment.params.Joins (Segment.optionalType.andThen _ hArrow) := .of_head rfl rfl trivial
  have hParams : Segment.typeParams.Joins (Segment.params.andThen _ hResult) :=
    .of_head rfl rfl (.mark (by decide))
  refine Resumes.within (S := Segment.typeParams.andThen _ hParams) ?_ (.mk rfl rfl ?_ fun _ => trivial)
  · rw [function]
    refine (typeParams_resumes c).bind hParams fun ⟨typeParams, c₁, hlt₁⟩ => ?_
    refine (params_resumes c₁).bind hResult fun ⟨⟨params, close⟩, c₂, hlt₂⟩ => ?_
    refine (optionalType_resumes close .inferred c₂).bind hArrow fun ⟨result, c₃, hlt₃⟩ => ?_
    refine (mark_resumes c₃ _).bind _ fun ⟨_, c₄, hlt₄⟩ => ?_
    refine (mark_resumes c₄ _).bind _ fun ⟨_, c₅, hlt₅⟩ => ?_
    refine (statements_resumes c₅).bind hClose fun ⟨body, c₆, hlt₆⟩ => ?_
    exact (mark_resumes c₆ _).last fun r => ⟨_, rfl, rfl, rfl⟩
  · rintro ls rest ⟨_, hTypeParams, _, hParams, _, hResult, _, rfl, _, rfl, _, hBody, rfl⟩
    exact primary_of_function (function_accepts hTypeParams hParams hResult hBody)
termination_by c.left * 8

theorem statements_resumes (c : Cursor) : Resumes c c.statements Segment.statements := by
  have hMore : Segment.semicolon.Joins .statements := .of_empty rfl rfl fun _ h => .of_head (by decide) h
  have hEnd : Segment.value.Joins (Segment.semicolon.andThen _ hMore) :=
    .of_empty rfl rfl fun _ h => .of_head (by decide) h
  rw [statements]
  refine .ite (fun hAt => Segment.Took.at_end hAt (fun _ h => h) rfl statements_none) fun _ => ?_
  refine Resumes.within (S := Segment.value.andThen _ hEnd) ?_ (.mk rfl rfl ?_ id)
  · refine (value_resumes c).bind hEnd fun ⟨v, c₁, hlt₁⟩ => .of_bump ?_
    simp only [node, id]
    have : (c₁.bump.skip .semicolon).rest.left < c₁.left + 1 := (c₁.bump.skip .semicolon).lt
    refine .after (semicolon_took c₁.bump) ?_ _
    exact (statements_resumes (c₁.bump.skip .semicolon).rest).last fun r => ⟨_, rfl, rfl, rfl⟩
  · rintro ls rest ⟨_, ⟨hFirst, -⟩, _, hSkip, hMore⟩
    exact statements_more hFirst hSkip hMore
termination_by c.left * 8 + 3

end

end Cursor

namespace Segment

def visibility : Segment where
  Takes := Sees
  Before l := ∀ k ∈ visibilityWords, l ≠ some (.keyword k)
  sample := []
  dotted := false
  plain := plain_nil
  takes_sample h := .omitted h

def signature : Segment where
  Takes := Accepts Cursor.signature
  Before := Free typeMarks
  sample := [.ident "a", .mark .openParen, .mark .closeParen]
  dotted := false
  plain := by decide
  takes_sample h :=
    signature_accepts (.omitted (by simp)) (typeParams.takes_sample (.mark (by decide)))
      (params.takes_sample trivial) (optionalType.takes_sample h)

def method : Segment where
  Takes := Accepts Cursor.method
  Before _ := True
  sample := signature.sample ++ [.mark .openBrace, .mark .closeBrace]
  dotted := false
  plain := by decide
  takes_sample {rest} _ := by
    rw [List.append_assoc]
    exact method_accepts (signature.takes_sample (.mark (by decide))) (statements_none rest)

def attributeMarks : List Mark := .semicolon :: typeMarks ++ valueMarks

def classAttribute : Segment where
  Takes := Accepts Cursor.classAttribute
  Before := Free attributeMarks
  sample := [.keyword .val, .ident "a"]
  dotted := false
  plain := by decide
  takes_sample h :=
    classAttribute_bare (.inl rfl) "a" (optionalType.takes_sample (h.mono (by decide)))
      (h .equals (by decide)) (.absent (h .semicolon (by decide)))

def signatures : Segment where
  Takes := Accepts Cursor.signatures
  Before l := l = some (.mark .closeBrace)
  sample := []
  dotted := false
  plain := plain_nil
  takes_sample h := by
    obtain ⟨rest, rfl⟩ := List.head?_eq_some_iff.1 h
    exact signatures_none rest

def classMembers : Segment where
  Takes := Accepts Cursor.classMembers
  Before l := l = some (.mark .closeBrace)
  sample := []
  dotted := false
  plain := plain_nil
  takes_sample h := by
    obtain ⟨rest, rfl⟩ := List.head?_eq_some_iff.1 h
    exact classMembers_none rest

def typeDecl : Segment where
  Takes ls rest := ∀ start visibility, Accepts (Cursor.typeDecl start visibility) ls rest
  Before _ := True
  sample := [.ident "a", .mark .openBrace, .mark .closeBrace]
  dotted := false
  plain := by decide
  takes_sample _ _ _ := declaration_obtains (typeParams.takes_sample (.mark (by decide)))
    (optionalType.takes_sample (.mark (by decide))) (signatures_none _)

def classDecl : Segment where
  Takes ls rest := ∀ start visibility, Accepts (Cursor.classDecl start visibility) ls rest
  Before _ := True
  sample := [.ident "a", .mark .openBrace, .mark .closeBrace]
  dotted := false
  plain := by decide
  takes_sample _ _ _ := declaration_obtains (typeParams.takes_sample (.mark (by decide)))
    (optionalType.takes_sample (.mark (by decide))) (classMembers_none _)

/-- The declaration of a type or a class, after its visibility. -/
def declared : Segment where
  Takes ls rest := (∃ ls', ls = .keyword .typeDecl :: ls' ∧ typeDecl.Takes ls' rest) ∨
    ∃ ls', ls = .keyword .classDecl :: ls' ∧ classDecl.Takes ls' rest
  Before _ := True
  sample := .keyword .typeDecl :: typeDecl.sample
  dotted := false
  plain := by decide
  takes_sample _ := .inl ⟨_, rfl, typeDecl.takes_sample trivial⟩

def topLevel : Segment where
  Takes := Accepts Cursor.topLevel
  Before _ := True
  sample := declared.sample
  dotted := false
  plain := declared.plain
  takes_sample _ := topLevel_of_typeDecl (.omitted (by simp [declared, visibilityWords]))
    (typeDecl.takes_sample trivial)

/-- What a source uses, in front of the declaration of a type. -/
def uses : Segment where
  Takes := Accepts Cursor.uses
  Before l := l = some (.keyword .typeDecl)
  sample := []
  dotted := false
  plain := plain_nil
  takes_sample h := uses_none (by rw [List.nil_append, h]; simp)

end Segment

namespace Cursor

theorem sees_took (default : Visibility) (c : Cursor) :
    Segment.visibility.Took c (c.visibility default).rest := by
  have hWord {k : Keyword} (hk : k ∈ visibilityWords) {r : Reply c.left Token} (h : c.word? k = some r) :
      Segment.visibility.Took c r.rest := by
    obtain ⟨hLeads, hEq⟩ := word?_eq_some h
    exact ⟨hLeads, [.keyword k], hEq, by simp, by simp, fun rest _ => .written hk rest⟩
  unfold visibility
  cases hEverywhere : c.word? .everywhere with
  | some r => exact hWord (by decide) hEverywhere
  | none =>
    cases hHidden : c.word? .hidden with
    | some r => exact hWord (by decide) hHidden
    | none =>
      cases hNamespaced : c.word? .namespaced with
      | some r => exact hWord (by decide) hNamespaced
      | none =>
        refine ⟨.refl c, [], rfl, by simp, fun _ => rfl, fun rest hFits => .omitted ?_⟩
        rcases hFits with hBefore | hSame
        · exact hBefore
        · rw [List.nil_append, hSame.1]
          intro k hk
          simp only [visibilityWords, List.mem_cons, List.not_mem_nil, or_false] at hk
          rcases hk with rfl | rfl | rfl
          · exact take?_eq_none hEverywhere
          · exact take?_eq_none hHidden
          · exact take?_eq_none hNamespaced

theorem signature_resumes (c : Cursor) : Resumes c c.signature Segment.signature := by
  have hResult : Segment.params.Joins .optionalType := .of_empty rfl rfl fun _ _ => trivial
  have hParams : Segment.typeParams.Joins (Segment.params.andThen _ hResult) :=
    .of_head rfl rfl (.mark (by decide))
  have hTypeParams : Segment.ident.Joins (Segment.typeParams.andThen _ hParams) := .of_head rfl rfl trivial
  have hName : Segment.visibility.Joins (Segment.ident.andThen _ hTypeParams) :=
    .of_head rfl rfl fun _ _ => by simp
  refine Resumes.within (S := Segment.visibility.andThen _ hName) ?_ (.mk rfl rfl ?_ id)
  · unfold signature
    refine .after (sees_took .everywhere c) ?_ hName
    refine (ident_resumes _).bind hTypeParams fun ⟨⟨name, t⟩, c₂, hlt₂⟩ => ?_
    refine (typeParams_resumes c₂).bind hParams fun ⟨typeParams, c₃, hlt₃⟩ => ?_
    refine (params_resumes c₃).bind hResult fun ⟨⟨params, _⟩, c₄, hlt₄⟩ => ?_
    exact (optionalType_resumes t .inferred c₄).last fun r => ⟨_, rfl, rfl, rfl⟩
  · rintro ls rest ⟨_, hSees, _, ⟨name, rfl⟩, _, hTypeParams, _, hParams, hResult⟩
    exact signature_accepts hSees hTypeParams hParams hResult

theorem method_resumes (c : Cursor) : Resumes c c.method Segment.method := by
  have hClose : Segment.statements.Joins (.mark .closeBrace) := .of_head rfl rfl rfl
  have hOpen : Segment.signature.Joins ((Segment.mark .openBrace).andThen
    (Segment.statements.andThen _ hClose) (.after_lexeme rfl _)) := .of_head rfl rfl (.mark (by decide))
  refine Resumes.within (S := Segment.signature.andThen _ hOpen) ?_ (.mk rfl rfl ?_ id)
  · unfold method
    refine (signature_resumes c).bind hOpen fun ⟨signature, c₁, hlt₁⟩ => ?_
    refine (mark_resumes c₁ _).bind _ fun ⟨_, c₂, hlt₂⟩ => ?_
    refine (statements_resumes c₂).bind hClose fun ⟨body, c₃, hlt₃⟩ => ?_
    exact (mark_resumes c₃ _).last fun r => ⟨_, rfl, rfl, rfl⟩
  · rintro ls rest ⟨_, hSignature, _, rfl, _, hBody, rfl⟩
    exact method_accepts hSignature hBody

theorem classAttribute_resumes (c : Cursor) : Resumes c c.classAttribute Segment.classAttribute := by
  have hEnd : (Segment.value.optional .equals).Joins
      (Segment.semicolon.only (Free Segment.attributeMarks) fun _ h => h.mono (by decide)) :=
    .of_empty rfl rfl fun _ h => ⟨Free.mono h (by decide), h .equals (by decide)⟩
  have hValue : Segment.optionalType.Joins (Segment.andThen _ _ hEnd) :=
    .of_empty rfl rfl fun _ h => Free.mono h (by decide)
  have hSpec : Segment.ident.Joins (Segment.optionalType.andThen _ hValue) :=
    .of_empty rfl rfl fun _ _ => trivial
  have hName : Segment.mode.Joins (Segment.ident.andThen _ hSpec) := .of_head rfl rfl trivial
  refine Resumes.within (S := Segment.mode.andThen _ hName) ?_ (.mk rfl rfl ?_ id)
  · unfold classAttribute
    refine (mode_resumes c).bind hName fun ⟨mode, c₁, hlt₁⟩ => ?_
    refine (ident_resumes c₁).bind hSpec fun ⟨⟨name, t⟩, c₂, hlt₂⟩ => ?_
    refine (optionalType_resumes t .inferred c₂).bind hValue fun ⟨spec, c₃, hlt₃⟩ => ?_
    cases hEquals : c₃.mark? .equals with
    | some r =>
      obtain ⟨_, c₄, hlt₄⟩ := r
      simp only [hEquals]
      refine Resumes.bind (.optional hEquals rfl (value_resumes c₄)) hEnd fun ⟨v, c₅, hlt₅⟩ => .of_bump ?_
      exact (semicolon_took c₅.bump).within Segment.within_only
    | none =>
      simp only [hEquals]
      refine .after (Segment.optional_absent _ hEquals) (.of_bump ?_) hEnd
      exact (semicolon_took c₃.bump).within Segment.within_only
  · rintro ls rest ⟨_, ⟨k, hk, rfl⟩, _, ⟨name, rfl⟩, _, hSpec, _, ⟨rfl, hEquals⟩ |
      ⟨ls', rfl, hValue, -⟩, hSkip⟩
    · exact classAttribute_bare hk name hSpec hEquals hSkip
    · exact classAttribute_valued hk name hSpec hValue hSkip

theorem signatures_resumes (c : Cursor) : Resumes c c.signatures Segment.signatures := by
  have hMore : Segment.semicolon.Joins .signatures := .of_empty rfl rfl fun _ h => .of_head (by decide) h
  have hEnd : Segment.signature.Joins (Segment.semicolon.andThen _ hMore) :=
    .of_empty rfl rfl fun _ h => .of_head (by decide) h
  rw [signatures]
  refine .ite (fun hAt => Segment.Took.at_end hAt (fun _ h => h) rfl signatures_none) fun _ => ?_
  refine Resumes.within (S := Segment.signature.andThen _ hEnd) ?_ (.mk rfl rfl ?_ id)
  · refine (signature_resumes c).bind hEnd ?_
    rintro ⟨first, c₁, hlt₁⟩
    have : (c₁.skip .semicolon).rest.left < c₁.left + 1 := (c₁.skip .semicolon).lt
    refine .after (semicolon_took c₁) ?_ _
    exact (signatures_resumes (c₁.skip .semicolon).rest).last fun r => ⟨_, rfl, rfl, rfl⟩
  · rintro ls rest ⟨_, hFirst, _, hSkip, hMore⟩
    exact signatures_more hFirst hSkip hMore
termination_by c.left

theorem classMembers_resumes (c : Cursor) : Resumes c c.classMembers Segment.classMembers := by
  rw [classMembers]
  refine .ite (fun hAt => Segment.Took.at_end hAt (fun _ h => h) rfl classMembers_none) fun _ =>
    .ite (fun _ => ?_) fun _ => ?_
  · have hMore : Segment.classAttribute.Joins .classMembers :=
      .of_empty rfl rfl fun _ h => .of_head (by decide) h
    refine Resumes.within (S := Segment.classAttribute.andThen _ hMore) ?_ (.mk rfl rfl ?_ id)
    · refine (classAttribute_resumes c).bind hMore ?_
      rintro ⟨first, c₁, hlt₁⟩
      exact (classMembers_resumes c₁).last fun r => ⟨_, rfl, rfl, rfl⟩
    · rintro ls rest ⟨_, hFirst, hMore⟩
      exact classMembers_attribute hFirst hMore
  · have hMore : Segment.method.Joins .classMembers := .of_empty rfl rfl fun _ _ => trivial
    refine Resumes.within (S := Segment.method.andThen _ hMore) ?_ (.mk rfl rfl ?_ id)
    · refine (method_resumes c).bind hMore ?_
      rintro ⟨first, c₁, hlt₁⟩
      exact (classMembers_resumes c₁).last fun r => ⟨_, rfl, rfl, rfl⟩
    · rintro ls rest ⟨_, hFirst, hMore⟩
      exact classMembers_method hFirst hMore
termination_by c.left

theorem declaration_resumes {α β : Type} {members : (c : Cursor) → Parse α (c.left + 1)}
    {build : Extent → Text → List (TypeParam Extent) → TypeSpec Extent → α → β} {S T : Segment}
    (hClose : S.Joins (.mark .closeBrace)) (hMembers : ∀ c, Resumes c (members c) S)
    (hTakes : ∀ name {ls ls₁ ls₂ rest}, Segment.typeParams.Takes ls ls₁ →
      Segment.optionalType.Takes ls₁ (.mark .openBrace :: ls₂) → S.Takes ls₂ (.mark .closeBrace :: rest) →
        T.Takes (.ident name :: ls) rest) (start : Nat) (c : Cursor) :
    Resumes c (declaration members build start c) T := by
  have hOpen : Segment.optionalType.Joins ((Segment.mark .openBrace).andThen
    (S.andThen _ hClose) (.after_lexeme rfl _)) := .of_head rfl rfl (.mark (by decide))
  have hSuper : Segment.typeParams.Joins (Segment.optionalType.andThen _ hOpen) :=
    .of_head rfl rfl (.mark (by decide))
  have hTypeParams : Segment.ident.Joins (Segment.typeParams.andThen _ hSuper) := .of_head rfl rfl trivial
  refine Resumes.within (S := Segment.ident.andThen _ hTypeParams) ?_ (.mk rfl rfl ?_ fun _ => trivial)
  · unfold declaration
    refine (ident_resumes c).bind hTypeParams fun ⟨⟨name, t⟩, c₁, hlt₁⟩ => ?_
    refine (typeParams_resumes c₁).bind hSuper fun ⟨typeParams, c₂, hlt₂⟩ => ?_
    refine (optionalType_resumes t _ c₂).bind hOpen fun ⟨super, c₃, hlt₃⟩ => ?_
    refine (mark_resumes c₃ _).bind _ fun ⟨_, c₄, hlt₄⟩ => ?_
    refine (hMembers c₄).bind hClose fun ⟨all, c₅, hlt₅⟩ => ?_
    exact (mark_resumes c₅ _).last fun r => ⟨_, rfl, rfl, rfl⟩
  · rintro ls rest ⟨_, ⟨name, rfl⟩, _, hTypeParams, _, hSuper, _, rfl, _, hMembers, rfl⟩
    exact hTakes name hTypeParams hSuper hMembers

theorem typeDecl_resumes (start : Nat) (visibility : Visibility) (c : Cursor) :
    Resumes c (c.typeDecl start visibility) Segment.typeDecl :=
  declaration_resumes (.of_head rfl rfl rfl) signatures_resumes
    (fun _ _ _ _ _ hTypeParams hSuper hMethods _ _ => declaration_obtains hTypeParams hSuper hMethods) start c

theorem classDecl_resumes (start : Nat) (visibility : Visibility) (c : Cursor) :
    Resumes c (c.classDecl start visibility) Segment.classDecl :=
  declaration_resumes (.of_head rfl rfl rfl) classMembers_resumes
    (fun _ _ _ _ _ hTypeParams hSuper hMembers _ _ => declaration_obtains hTypeParams hSuper hMembers) start c

theorem topLevel_resumes (c : Cursor) : Resumes c c.topLevel Segment.topLevel := by
  have hDecl : Segment.visibility.Joins .declared := .of_head rfl rfl (by simp [Segment.visibility, visibilityWords])
  refine Resumes.within (S := Segment.visibility.andThen _ hDecl) ?_ (.mk rfl rfl ?_ id)
  · unfold topLevel
    refine .after (sees_took .namespaced c) ?_ hDecl
    cases hType : (c.visibility .namespaced).rest.word? .typeDecl with
    | some r =>
      simp only [hType]
      refine Resumes.within (S := (Segment.word .typeDecl).andThen .typeDecl (.after_lexeme rfl _)) ?_
        (.mk rfl rfl (fun ⟨ls', hWord, hDecl⟩ => .inl ⟨ls', hWord, hDecl⟩) id)
      refine .after (word?_took hType) ?_ _
      exact (typeDecl_resumes c.start _ r.rest).last fun r => ⟨_, rfl, rfl, rfl⟩
    | none =>
      simp only [hType]
      cases hClass : (c.visibility .namespaced).rest.word? .classDecl with
      | some r =>
        refine Resumes.within (S := (Segment.word .classDecl).andThen .classDecl (.after_lexeme rfl _)) ?_
          (.mk rfl rfl (fun ⟨ls', hWord, hDecl⟩ => .inr ⟨ls', hWord, hDecl⟩) id)
        refine .after (word?_took hClass) ?_ _
        exact (classDecl_resumes c.start _ r.rest).last fun r => ⟨_, rfl, rfl, rfl⟩
      | none => exact .fail _
  · rintro ls rest ⟨_, hSees, ⟨ls', rfl, hDecl⟩ | ⟨ls', rfl, hDecl⟩⟩
    · exact topLevel_of_typeDecl hSees hDecl
    · exact topLevel_of_class hSees hDecl

theorem uses_resumes (c : Cursor) : Resumes c c.uses Segment.uses := by
  have hMore : Segment.semicolon.Joins .uses := .of_empty rfl rfl fun l h m _ => by simp [show l = _ from h]
  have hEnd : (Segment.ident.optional .colon).Joins (Segment.semicolon.andThen _ hMore) :=
    .of_empty rfl rfl fun l h => ⟨trivial, by simp [show l = _ from h]⟩
  have hColon : Segment.name.Joins (Segment.andThen _ _ hEnd) :=
    .of_empty rfl rfl fun l h m _ => by simp [show l = _ from h]
  rw [uses]
  cases hUse : c.word? .use with
  | none =>
    refine ⟨.refl c, [], rfl, by simp, fun _ => rfl, fun rest hFits => uses_none ?_⟩
    rw [List.nil_append]
    rcases hFits with hBefore | hSame
    · simp [show rest.head? = _ from hBefore]
    · rw [hSame.1]
      exact take?_eq_none hUse
  | some r =>
    obtain ⟨_, c₁, hlt₁⟩ := r
    refine Resumes.within (S := (Segment.word .use).andThen (Segment.name.andThen _ hColon)
      (.after_lexeme rfl _)) ?_ (.mk rfl rfl ?_ id)
    · refine .after (word?_took hUse) ?_ _
      refine (qualifiedName_resumes c₁).bind hColon ?_
      rintro ⟨⟨source, t⟩, c₂, hlt₂⟩
      cases hMark : c₂.mark? .colon with
      | some r =>
        obtain ⟨_, c₃, hlt₃⟩ := r
        simp only [hMark]
        refine Resumes.bind (.optional hMark rfl (ident_resumes c₃)) hEnd ?_
        rintro ⟨⟨name, _⟩, c₄, hlt₄⟩
        refine .of_bump (.after (semicolon_took c₄.bump) ?_ hMore)
        have : (c₄.bump.skip .semicolon).rest.left < c₄.left + 1 := (c₄.bump.skip .semicolon).lt
        exact (uses_resumes (c₄.bump.skip .semicolon).rest).last fun r => ⟨_, rfl, rfl, rfl⟩
      | none =>
        simp only [hMark]
        refine .after (Segment.optional_absent _ hMark) (.of_bump (.after (semicolon_took c₂.bump) ?_ hMore)) hEnd
        have : (c₂.bump.skip .semicolon).rest.left < c₂.left + 1 := (c₂.bump.skip .semicolon).lt
        exact (uses_resumes (c₂.bump.skip .semicolon).rest).last fun r => ⟨_, rfl, rfl, rfl⟩
    · rintro ls rest ⟨_, rfl, _, hSource, _, ⟨rfl, hColon⟩ | ⟨_, rfl, name, rfl⟩, _, hSkip, hMore⟩
      · exact uses_plain hSource hColon hSkip hMore
      · exact uses_renamed name hSource hSkip hMore
termination_by c.left

theorem root_completed (space : Text) {e : SyntaxError} (h : c.root space = .error e) :
    ∃ c' taken missing, Leads c c' ∧ e.offset = c'.start ∧ c.lexemes = taken ++ c'.lexemes ∧
      missing.all Lexeme.isPlain ∧
      ∀ d : Cursor, d.lexemes = taken ++ missing → ∃ r after, d.root space = .ok (r, after) := by
  have hJoins : Segment.uses.Joins .topLevel := .of_head rfl rfl rfl
  have hRoot {ls : List Lexeme} (hTakes : (Segment.uses.andThen _ hJoins).Takes (ls ++ []) [])
      (d : Cursor) (hd : d.lexemes = ls) : ∃ r after, d.root space = .ok (r, after) := by
    rw [List.append_nil] at hTakes
    obtain ⟨mid, hUses, hTop⟩ := hTakes
    obtain ⟨r, after, hOk, -⟩ := root_gives space hd hUses hTop
    exact ⟨r, after, hOk⟩
  have hStuck {c' : Cursor} (hStuck : (Segment.uses.andThen _ hJoins).Stuck c c')
      (hOffset : e.offset = c'.start) : ∃ c' taken missing, Leads c c' ∧ e.offset = c'.start ∧
        c.lexemes = taken ++ c'.lexemes ∧ missing.all Lexeme.isPlain ∧
        ∀ d : Cursor, d.lexemes = taken ++ missing → ∃ r after, d.root space = .ok (r, after) := by
    obtain ⟨hLeads, taken, missing, hc, -, hPlain, hTakes⟩ := hStuck
    refine ⟨c', taken, missing, hLeads, hOffset, hc, hPlain, hRoot ?_⟩
    rw [List.append_assoc]
    exact hTakes [] trivial
  have hUses := uses_resumes c
  unfold root at h
  cases hu : c.uses with
  | error e' =>
    rw [hu] at h hUses
    obtain rfl : e' = e := Except.error.inj h
    obtain ⟨c', hUsesStuck, hOffset⟩ := hUses
    exact hStuck (hUsesStuck.andThen hJoins) hOffset
  | ok r =>
    obtain ⟨uses, c₁, hlt₁⟩ := r
    rw [hu] at h hUses
    have hTop := topLevel_resumes c₁
    simp only [bind, Except.bind] at h
    cases ht : c₁.topLevel with
    | error e' =>
      rw [ht] at h hTop
      obtain rfl : e' = e := Except.error.inj h
      obtain ⟨c', hTopStuck, hOffset⟩ := hTop
      exact hStuck (Segment.Took.stuck hUses hTopStuck hJoins) hOffset
    | ok r =>
      obtain ⟨top, c₂, hlt₂⟩ := r
      rw [ht] at h hTop
      obtain ⟨hLeads, taken, hc, -, -, hTakes⟩ := Segment.Took.andThen hUses hTop hJoins
      simp only at h
      split at h
      · cases h
      · obtain rfl := Except.error.inj h
        refine ⟨c₂, taken, [], hLeads, rfl, hc, rfl, ?_⟩
        rw [List.append_nil]
        exact hRoot (hTakes [] (.inl trivial))

end Cursor

theorem Text.lexes_plain {ls : List Lexeme} (h : ls.all Lexeme.isPlain) : ∃ s, Text.Lexes s ls := by
  induction ls with
  | nil => exact ⟨[], .nil⟩
  | cons l ls ih =>
    rw [List.all_cons, Bool.and_eq_true] at h
    obtain ⟨s, hs⟩ := ih h.2
    have hWord (name : Text) (hName : Text.isWord name) (hOf : .ofWord name = l) :
        ∃ s, Text.Lexes s (l :: ls) := by
      have hLexes := hs.space.word hName (.space s)
      rw [hOf] at hLexes
      exact ⟨_, hLexes⟩
    cases l with
    | mark m =>
      by_cases hm : m = .equals
      · subst hm
        obtain ⟨rest, hText, hVisible, hRead⟩ := Lexeme.equals_readsBack (s := 32 :: s) (by simp)
        exact ⟨_, .cons ((congrArg Lexeme.skipBlanks hText).trans hVisible) hRead hs.space⟩
      · exact ⟨_, hs.space.mark hm⟩
    | keyword k => exact hWord k.text (by cases k <;> decide +kernel) (by cases k <;> rfl)
    | ident name =>
      obtain rfl : name = "a" := of_decide_eq_true h.1
      exact hWord "a" (by decide +kernel) rfl
    | number digits => cases h.1
    | quoted literal => cases h.1

/-- Where a text has tokens but no tree, its bytes in front of the error are the start of a text that
has a tree. -/
theorem Root.parse_error_extends {space text : Text} {next : Nat} {tokens : List Token} {e : SyntaxError}
    (hLex : Token.lex text = .ok tokens) (h : Root.parse space text next = .error e) :
    e.offset ≤ text.length ∧
      ∃ rest r after, Root.parse space (text.take e.offset ++ rest) next = .ok (r, after) := by
  rw [Root.parse, hLex] at h
  obtain ⟨c', taken, missing, hLeads, hOffset, hTaken, hPlain, hRoot⟩ := Cursor.root_completed space h
  have hStop : Cursor.StopsAt ⟨tokens, 0, text.length, next⟩ e.offset c'.left := ⟨c', hLeads, rfl, hOffset⟩
  obtain ⟨hLe, hIndex⟩ := hStop.offsetAt
  obtain ⟨u, v, rfl, hCut, hAgain⟩ := Text.lexes_cut hLex (Nat.sub_le tokens.length c'.left)
  have hLength : e.offset = u.length := by
    rw [hIndex, hCut, List.length_append, Nat.add_sub_cancel]
  have hFirst : (tokens.take (tokens.length - c'.left)).map (·.lexeme) = taken := by
    have hTaken : tokens.map (·.lexeme) = taken ++ c'.lexemes := hTaken
    have hCount : tokens.length - c'.left = taken.length := by
      have hSum := congrArg List.length hTaken
      simp only [List.length_map, List.length_append, Cursor.lexemes] at hSum
      exact Nat.sub_eq_of_eq_add hSum
    rw [List.map_take, hTaken, hCount, List.take_left]
  obtain ⟨s, hs⟩ := Text.lexes_plain hPlain
  have hLexes := hAgain s missing hs
  rw [hFirst] at hLexes
  obtain ⟨again, hLexAgain, hLexemes⟩ := hLexes (u ++ 10 :: s).length
  obtain ⟨r, after, hOk⟩ := hRoot ⟨again, 0, (u ++ 10 :: s).length, next⟩ hLexemes
  refine ⟨by simp [hLength], 10 :: s, r, after, ?_⟩
  rw [hLength, List.take_left, Root.parse, Token.lex, hLexAgain]
  exact hOk

/-- A class with an unfinished argument in a call, and a comment without end of line. -/
def unfinished : Text := "class C[A] \x7b m(x: A): A \x7b x.f[A](1, a = ) \x7d \x7d // end"

theorem parse_unfinished : ∃ tokens e, Token.lex unfinished = .ok tokens ∧
    Root.parse "p" unfinished 1 = .error e ∧ e.offset ≤ unfinished.length ∧
      ∃ rest r after, Root.parse "p" (unfinished.take e.offset ++ rest) 1 = .ok (r, after) := by
  have hFails : ¬(Root.parse "p" unfinished 1).isOk := by decide +kernel
  have hTokens : (Token.lex unfinished).isOk := by decide +kernel
  cases hLex : Token.lex unfinished with
  | error e =>
    rw [hLex] at hTokens
    cases hTokens
  | ok tokens =>
    cases hParse : Root.parse "p" unfinished 1 with
    | ok x =>
      rw [hParse] at hFails
      exact absurd rfl hFails
    | error e => exact ⟨tokens, e, rfl, rfl, Root.parse_error_extends hLex hParse⟩

end Assay
