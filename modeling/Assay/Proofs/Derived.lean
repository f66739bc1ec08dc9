import Mathlib
import Assay.Proofs.Grammar
import Assay.Proofs.Parsed

/-! The readers follow the grammar. Each of them reads what its rule describes, makes nodes of the
tokens it takes, and goes on with the lexemes after them, or it stops at a token, or at the end of the
text. -/

namespace Assay

open Grammar

variable {c c' : Cursor} {m : Mark} {ls rest : List Lexeme} {l : Lexeme}

namespace Grammar

variable {α : Type} {rule : Rule α} {ls ls' rest : List Lexeme} {x : α} {xs : List α}

theorem After.of_eq (hMark : ls = .mark m :: ls') (h : rule ls' x rest) :
    After m rule ls x rest := by
  subst hMark
  exact .mk h

theorem Enclosed.of_eq {left right : Mark} {ls'' : List Lexeme} (hLeft : ls = .mark left :: ls')
    (h : rule ls' x ls'') (hRight : ls'' = .mark right :: rest) :
    Enclosed left right rule ls x rest := by
  subst hLeft hRight
  exact .mk h

theorem Items.of_optional (hFirst : rule ls x (.mark .comma :: ls'))
    (h : Optional [] (Items rule) ls' xs rest) : Items rule ls (x :: xs) rest := by
  cases h with
  | omitted => exact .trailing hFirst
  | written h => exact .more hFirst h

theorem Listed.of_eq {ls'' : List Lexeme} (hLeft : ls = .mark .openParen :: ls')
    (h : Optional [] (Items rule) ls' xs ls'') (hRight : ls'' = .mark .closeParen :: rest) :
    Listed rule ls xs rest := by
  subst hLeft hRight
  cases h with
  | omitted => exact .none rest
  | written h => exact .some h

end Grammar

namespace Cursor

def lexemes (c : Cursor) : List Lexeme := c.tokens.map (·.lexeme)

/-- An offset where a token starts, or the end of the text. -/
def Marks (c : Cursor) (offset : Nat) : Prop :=
  offset = c.size ∨ ∃ t ∈ c.tokens, offset = t.start

theorem marks_start (c : Cursor) : c.Marks c.start := by
  unfold start
  split
  · rename_i t rest ht
    exact .inr ⟨t, by simp [ht], rfl⟩
  · exact .inl rfl

/-- The second cursor is further on in the same text. -/
structure Leads (c c' : Cursor) : Prop where
  tokens : c'.tokens <:+ c.tokens
  size : c'.size = c.size

theorem Leads.refl (c : Cursor) : Leads c c := ⟨List.suffix_rfl, rfl⟩

theorem Leads.bump (c : Cursor) : Leads c c.bump := ⟨List.suffix_rfl, rfl⟩

theorem Leads.trans {c'' : Cursor} (h : Leads c c') (h' : Leads c' c'') : Leads c c'' :=
  ⟨h'.tokens.trans h.tokens, h'.size.trans h.size⟩

theorem Leads.marks (h : Leads c c') {offset : Nat} (hMarks : c'.Marks offset) :
    c.Marks offset := by
  rcases hMarks with rfl | ⟨t, ht, rfl⟩
  · exact .inl h.size
  · exact .inr ⟨t, h.tokens.subset ht, rfl⟩

theorem Took.leads {ns : List (Node Extent)} {skip : Spelling → Node Extent → Prop}
    (h : Took c c' ns skip) : Leads c c' := by
  obtain ⟨taken, hTaken, -⟩ := h.leading
  exact ⟨⟨taken, hTaken.symm⟩, h.size⟩

/-- What comes of a reader at `c`: a value that satisfies `Q` together with the cursor after it, or
an error at a token or at the end of the text. -/
def Reads {α : Type} {n : Nat} (c : Cursor) (p : Parse α n) (Q : α → Cursor → Prop) : Prop :=
  match p with
  | .ok r => Leads c r.rest ∧ Q r.value r.rest
  | .error e => c.Marks e.offset

namespace Reads

variable {α β : Type} {n k : Nat} {c c' : Cursor} {p : Parse α n} {P : α → Cursor → Prop}
  {Q : β → Cursor → Prop}

theorem ok {r : Reply n β} (hQ : Q r.value r.rest) (h : Leads c r.rest) : Reads c (.ok r) Q :=
  ⟨h, hQ⟩

theorem here {b : β} {last next : Nat} {hlt : c.left < n} (hQ : Q b ⟨c.tokens, last, c.size, next⟩) :
    Reads c (.ok ⟨b, ⟨c.tokens, last, c.size, next⟩, hlt⟩) Q :=
  .ok hQ ⟨List.suffix_rfl, rfl⟩

theorem fail (c : Cursor) (wants : List Want) : Reads c (c.fail wants : Parse β n) Q :=
  c.marks_start

theorem advance (h : Leads c c') (hp : Reads c' p P) : Reads c p P := by
  cases p with
  | error e => exact h.marks hp
  | ok r => exact ⟨h.trans hp.1, hp.2⟩

theorem bind {f : Reply n α → Parse β k} (hp : Reads c p P)
    (hf : ∀ a c' (h : c'.left < n), P a c' → Reads c' (f ⟨a, c', h⟩) Q) : Reads c (p >>= f) Q := by
  cases p with
  | error e => exact hp
  | ok r => exact .advance hp.1 (hf r.value r.rest r.lt hp.2)

theorem ite {q : Parse α n} {b : Prop} [Decidable b] (hp : b → Reads c p P)
    (hq : ¬b → Reads c q P) : Reads c (if b then p else q) P := by
  split
  · exact hp ‹_›
  · exact hq ‹_›

end Reads

/-- The token `t`, which spells the lexeme `l`, is taken between two cursors. -/
structure Takes (c c' : Cursor) (t : Token) (l : Lexeme) : Prop where
  took : Took c c' []
  start : t.start = c.start
  stop : c'.last = t.stop
  holds : Holds c c' t l.text
  lexemes : c.lexemes = l :: c'.lexemes
  mem : t ∈ c.tokens
  lexeme : t.lexeme = l

namespace Takes

variable {c c' : Cursor} {t : Token} {l : Lexeme} {n : Node Extent} {name : Text}

theorem leads (h : Takes c c' t l) : Leads c c' := h.took.leads

theorem isWord (h : Takes c c' t (.ident name)) (hc : Token.Worded c.tokens) : Text.isWord name :=
  hc t h.mem name h.lexeme

theorem spans (h : Takes c c' t l) (hlt : c'.left < c.left) (hAnn : n.ann = c'.extentOf t) :
    Spans c c' n :=
  .token hlt h.start h.stop hAnn

end Takes

theorem pop?_takes {r : Reply c.left Token} (h : c.pop? = some r) :
    Takes c r.rest r.value r.value.lexeme := by
  unfold pop? at h
  split at h
  · simp at h
  · rename_i t rest ht
    obtain rfl := Option.some.inj h
    have hMem : t ∈ c.tokens := by simp [ht]
    have hStart : t.start = c.start := by rw [start, ht]
    refine ⟨⟨rfl, .nil _, by simp, by simp, ⟨[t], ht, List.nil_subperm⟩, fun stands hc => ?_⟩,
      hStart, rfl, fun stands hc => ?_, by simp [lexemes, ht], hMem, rfl⟩
    · have hSorted := hc.sorted
      rw [ht, List.pairwise_cons] at hSorted
      obtain ⟨hLast, hProper, hStop, -⟩ := hc.laid t hMem
      have hRest : Orderly stands { c with tokens := rest, last := t.stop } := by
        refine ⟨hStop, hSorted.2, fun k hk => ⟨hSorted.1 k hk, ?_⟩⟩
        exact (hc.laid k (by rw [ht]; exact List.mem_cons_of_mem _ hk)).2
      refine ⟨hRest, by simp [left, ht], ?_, hLast.trans hProper.le, fun _ => ?_, by simp, .nil⟩
      · rw [← hStart]
        exact hProper.le.trans hRest.last_le_start
      · rw [← hStart]
        exact hProper
    · obtain ⟨-, hProper, -, hStands⟩ := hc.laid t hMem
      exact ⟨hStart.ge, hProper, Nat.le_refl _, hStands⟩

theorem take?_takes {r : Reply c.left Token} (h : c.take? l = some r) :
    Takes c r.rest r.value l := by
  unfold take? at h
  split at h
  · rename_i r' hPop
    split at h
    · rename_i hEq
      obtain rfl := Option.some.inj h
      exact hEq ▸ pop?_takes hPop
    · simp at h
  · simp at h

theorem pop?_eq_some {r : Reply c.left Token} (h : c.pop? = some r) :
    Leads c r.rest ∧ c.lexemes = r.value.lexeme :: r.rest.lexemes :=
  ⟨(pop?_takes h).leads, (pop?_takes h).lexemes⟩

theorem mark?_eq_some {r : Reply c.left Token} (h : c.mark? m = some r) :
    Leads c r.rest ∧ c.lexemes = .mark m :: r.rest.lexemes :=
  ⟨(take?_takes h).leads, (take?_takes h).lexemes⟩

theorem word?_eq_some {k : Keyword} {r : Reply c.left Token} (h : c.word? k = some r) :
    Leads c r.rest ∧ c.lexemes = .keyword k :: r.rest.lexemes :=
  ⟨(take?_takes h).leads, (take?_takes h).lexemes⟩

theorem pop?_eq_none (h : c.pop? = none) : c.lexemes = [] := by
  unfold pop? at h
  split at h
  · rename_i ht
    simp [lexemes, ht]
  · cases h

theorem take?_eq_none (h : c.take? l = none) : c.lexemes.head? ≠ some l := by
  unfold take? at h
  split at h
  · rename_i r hPop
    rw [(pop?_eq_some hPop).2, List.head?_cons]
    intro hEq
    rw [if_pos (Option.some.inj hEq)] at h
    cases h
  · rename_i hPop
    simp [pop?_eq_none hPop]

theorem isAt_iff : c.isAt m ↔ c.lexemes.head? = some (.mark m) := by
  simp [isAt, peek?, lexemes]

def Tries (c : Cursor) (l : Lexeme) (o : Option (Reply c.left Token)) : Prop :=
  (∃ r, o = some r ∧ Takes c r.rest r.value l) ∨ o = none ∧ c.lexemes.head? ≠ some l

@[elab_as_elim]
theorem Tries.elim {o : Option (Reply c.left Token)} {motive : Option (Reply c.left Token) → Prop}
    (h : Tries c l o)
    (hSome : ∀ t c' (hlt : c'.left < c.left), Takes c c' t l → motive (some ⟨t, c', hlt⟩))
    (hNone : c.lexemes.head? ≠ some l → motive none) : motive o := by
  obtain ⟨r, rfl, hTakes⟩ | ⟨rfl, hHead⟩ := h
  · exact hSome _ _ r.lt hTakes
  · exact hNone hHead

theorem take?_tries (c : Cursor) (l : Lexeme) : Tries c l (c.take? l) := by
  cases h : c.take? l with
  | some r => exact .inl ⟨r, rfl, take?_takes h⟩
  | none => exact .inr ⟨rfl, take?_eq_none h⟩

theorem mark?_tries (c : Cursor) (m : Mark) : Tries c (.mark m) (c.mark? m) := c.take?_tries _

theorem word?_tries (c : Cursor) (k : Keyword) : Tries c (.keyword k) (c.word? k) := c.take?_tries _

theorem mark_reads (c : Cursor) (m : Mark) :
    Reads c (c.mark m) fun t c' => Takes c c' t (.mark m) := by
  unfold mark
  exact (c.mark?_tries m).elim (fun t c₁ hlt h => .ok h h.leads) fun _ => .fail c _

theorem word_reads (c : Cursor) (k : Keyword) :
    Reads c (c.word k) fun t c' => Takes c c' t (.keyword k) := by
  unfold word
  exact (c.word?_tries k).elim (fun t c₁ hlt h => .ok h h.leads) fun _ => .fail c _

theorem ident_reads (c : Cursor) :
    Reads c c.ident fun (name, t) c' => Takes c c' t (.ident name) := by
  unfold ident
  split
  · rename_i t rest hlt hPop
    have hTakes := pop?_takes hPop
    split
    · rename_i name hName
      refine .ok ?_ hTakes.leads
      rwa [show (⟨t, rest, hlt⟩ : Reply c.left Token).value.lexeme = _ from hName] at hTakes
    · exact .fail c _
  · exact .fail c _

theorem skip_ended {α : Type} {rule : Rule α} {x : α} (c : Cursor) (h : rule ls x c.lexemes) :
    Took c (c.skip .semicolon).rest [] ∧ Ended rule ls x (c.skip .semicolon).rest.lexemes := by
  unfold skip
  refine (c.mark?_tries .semicolon).elim (fun t c₁ hlt hMark => ⟨hMark.took, ?_⟩)
    fun _ => ⟨.refl c, .bare h⟩
  rw [hMark.lexemes] at h
  exact .closed h

theorem dotIdent?_eq_some {r : Reply c.left (Text × Token)} (h : c.dotIdent? = some r) :
    ∃ t c₁, Takes c c₁ t (.mark .dot) ∧
      Takes c₁ r.rest r.value.2 (.ident r.value.1) := by
  unfold dotIdent? at h
  split at h
  · rename_i t c₁ hlt hDot
    split at h
    · rename_i hIdent
      obtain rfl := Option.some.inj h
      have hRead := ident_reads c₁
      rw [hIdent] at hRead
      exact ⟨t, c₁, take?_takes hDot, hRead.2⟩
    · simp at h
  · simp at h

/-- A name was read whose last token is `t`. -/
structure Names (c c' : Cursor) (name : Text) (t : Token) : Prop where
  took : Took c c' []
  rule : QNameRule c.lexemes (name, t.lexeme.text) c'.lexemes
  dotted : Token.Worded c.tokens → Text.isDotted name
  word : Token.Worded c.tokens → Text.isWord t.lexeme.text

theorem moreName_names {c₀ : Cursor} (name : Text) (t : Token) (c : Cursor) (h : Names c₀ c name t) :
    Leads c (moreName name t c).rest ∧
      Names c₀ (moreName name t c).rest (moreName name t c).value.1 (moreName name t c).value.2 := by
  fun_induction moreName name t c with
  | case1 name t c part t' c' hlt hMore result c'' hlt' hRest ih =>
    obtain ⟨dot, c₁, hDot, hPart⟩ := dotIdent?_eq_some hMore
    have hTook := hDot.took.left hPart.took
    have hWord (hc : Token.Worded c₀.tokens) : Text.isWord part :=
      hPart.isWord (hDot.took.worded (h.took.worded hc))
    have hText : t'.lexeme.text = part := congrArg Lexeme.text hPart.lexeme
    rw [hRest] at ih
    refine (ih ⟨h.took.left hTook, ?_, fun hc => ?_, fun hc => hText ▸ hWord hc⟩).imp_left
      hTook.leads.trans
    · have hRule := h.rule
      rw [hDot.lexemes, hPart.lexemes] at hRule
      rw [hText]
      exact .more hRule
    · exact Text.isDotted_append (h.dotted hc) (Text.isDotted_of_isWord (hWord hc))
  | case2 name t c hNone => exact ⟨.refl c, h⟩

theorem qualifiedName_reads (c : Cursor) :
    Reads c c.qualifiedName fun (name, t) c' => Names c c' name t := by
  unfold qualifiedName
  refine (ident_reads c).bind fun (name, t) c₁ hlt hName => ?_
  have hText : t.lexeme.text = name := congrArg Lexeme.text hName.lexeme
  have hFirst : Names c c₁ name t := by
    refine ⟨hName.took, ?_, fun hc => Text.isDotted_of_isWord (hName.isWord hc),
      fun hc => hText ▸ hName.isWord hc⟩
    rw [hName.lexemes, hText]
    exact .one name _
  obtain ⟨hLeads, hNames⟩ := moreName_names name t c₁ hFirst
  exact .ok hNames hLeads

mutual

theorem typeSpec_reads (c : Cursor) : Reads c c.typeSpec fun s c' =>
    Took c c' [.spec s] ∧ TypeSpecRule c.lexemes (s.map forget) c'.lexemes := by
  rw [typeSpec]
  refine (intersection_reads c).bind fun first c₁ hlt ⟨hFirst, hRule⟩ => ?_
  refine .ite (fun hBar => ?_) fun _ => .here ⟨hFirst, .one hRule⟩
  refine (moreUnion_reads c₁).bind fun more c₂ hlt' ⟨hMore, hRules, hNil⟩ => ?_
  cases more with
  | nil => exact absurd (isAt_iff.1 hBar) (hNil rfl)
  | cons second more => exact .here ⟨(hFirst.append hMore).node, .union (hRules _ _ hRule)⟩
termination_by c.left * 8 + 3

theorem moreUnion_reads (c : Cursor) : Reads c c.moreUnion fun ss c' => Took c c' (ss.map .spec) ∧
    (∀ before s, IntersectionRule before s c.lexemes →
      Separated .bar IntersectionRule before (s :: TypeSpec.mapList forget ss) c'.lexemes) ∧
    (ss = [] → c.lexemes.head? ≠ some (.mark .bar)) := by
  rw [moreUnion]
  refine (c.mark?_tries .bar).elim (fun _ c₁ hlt hBar => ?_)
    fun hNone => .here ⟨.refl c, fun _ _ => .one, fun _ => hNone⟩
  refine .advance hBar.leads ((intersection_reads c₁).bind fun first c₂ hlt' ⟨hFirst, hRule⟩ => ?_)
  refine (moreUnion_reads c₂).bind fun more c₃ hlt'' ⟨hMore, hRules, _⟩ => ?_
  refine .here ⟨hBar.took.left (hFirst.append hMore), fun before s hs => ?_, by simp⟩
  rw [hBar.lexemes] at hs
  exact .more hs (hRules _ _ hRule)
termination_by c.left * 8

theorem intersection_reads (c : Cursor) : Reads c c.intersection fun s c' =>
    Took c c' [.spec s] ∧ IntersectionRule c.lexemes (s.map forget) c'.lexemes := by
  rw [intersection]
  refine (typeAtom_reads c).bind fun first c₁ hlt ⟨hFirst, hRule⟩ => ?_
  refine .ite (fun hMark => ?_) fun _ => .here ⟨hFirst, .one hRule⟩
  refine (moreInter_reads c₁).bind fun more c₂ hlt' ⟨hMore, hRules, hNil⟩ => ?_
  cases more with
  | nil => exact absurd (isAt_iff.1 hMark) (hNil rfl)
  | cons second more => exact .here ⟨(hFirst.append hMore).node, .inter (hRules _ _ hRule)⟩
termination_by c.left * 8 + 2

theorem moreInter_reads (c : Cursor) : Reads c c.moreInter fun ss c' => Took c c' (ss.map .spec) ∧
    (∀ before s, TypeAtomRule before s c.lexemes →
      Separated .ampersand TypeAtomRule before (s :: TypeSpec.mapList forget ss) c'.lexemes) ∧
    (ss = [] → c.lexemes.head? ≠ some (.mark .ampersand)) := by
  rw [moreInter]
  refine (c.mark?_tries .ampersand).elim (fun _ c₁ hlt hMark => ?_)
    fun hNone => .here ⟨.refl c, fun _ _ => .one, fun _ => hNone⟩
  refine .advance hMark.leads ((typeAtom_reads c₁).bind fun first c₂ hlt' ⟨hFirst, hRule⟩ => ?_)
  refine (moreInter_reads c₂).bind fun more c₃ hlt'' ⟨hMore, hRules, _⟩ => ?_
  refine .here ⟨hMark.took.left (hFirst.append hMore), fun before s hs => ?_, by simp⟩
  rw [hMark.lexemes] at hs
  exact .more hs (hRules _ _ hRule)
termination_by c.left * 8

theorem typeAtom_reads (c : Cursor) : Reads c c.typeAtom fun s c' =>
    Took c c' [.spec s] ∧ TypeAtomRule c.lexemes (s.map forget) c'.lexemes := by
  rw [typeAtom]
  refine (c.mark?_tries .openParen).elim (fun _ c₁ hlt₁ hOpen => ?_) fun _ => ?_
  · refine .advance hOpen.leads ((typeList_reads c₁).bind fun types c₂ hlt₂ ⟨hTypes, hList⟩ => ?_)
    refine (mark_reads c₂ _).bind fun _ c₃ hlt₃ hClose => ?_
    replace hTypes := (hOpen.took.left hTypes).right hClose.took
    replace hList := Listed.of_eq hOpen.lexemes hList hClose.lexemes
    dsimp only
    refine (c₃.mark?_tries .colon).elim (fun _ c₄ hlt₄ hColon => ?_) fun _ => ?_
    · refine .advance hColon.leads ((typeSpec_reads c₄).bind fun result c₅ hlt₅ ⟨hResult, hRule⟩ => ?_)
      exact .here ⟨(hTypes.append (hColon.took.left hResult)).node,
        .func hList (.of_eq hColon.lexemes hRule)⟩
    · dsimp only
      split
      · exact .here ⟨hTypes, .group hList⟩
      · exact .fail c₃ _
  · refine (qualifiedName_reads c).bind fun (name, _) c₁ hlt₁ hName => ?_
    dsimp only
    refine (c₁.mark?_tries .openBracket).elim (fun _ c₂ hlt₂ hOpen => ?_) fun _ => ?_
    · refine .advance hOpen.leads ((typeArgs_reads c₂).bind fun args c₃ hlt₃ ⟨hArgs, hRule⟩ => ?_)
      refine (mark_reads c₃ _).bind fun _ c₄ hlt₄ hClose => ?_
      exact .here ⟨((hName.took.left hOpen.took).left (hArgs.right hClose.took)).node hName.dotted,
        .name hName.rule (.written (.of_eq hOpen.lexemes hRule hClose.lexemes))⟩
    · exact .here ⟨hName.took.node hName.dotted, .name hName.rule (.omitted _)⟩
termination_by c.left * 8 + 1

theorem typeList_reads (c : Cursor) : Reads c c.typeList fun ss c' => Took c c' (ss.map .spec) ∧
    Optional [] (Items TypeSpecRule) c.lexemes (TypeSpec.mapList forget ss) c'.lexemes := by
  rw [typeList]
  refine .ite (fun _ => .here ⟨.refl c, .omitted _⟩) fun _ => ?_
  refine (typeSpec_reads c).bind fun first c₁ hlt₁ ⟨hFirst, hRule⟩ => ?_
  dsimp only
  refine (c₁.mark?_tries .comma).elim (fun _ c₂ hlt₂ hComma => ?_)
    fun _ => .here ⟨hFirst, .written (.one hRule)⟩
  refine .advance hComma.leads ((typeList_reads c₂).bind fun more c₃ hlt₃ ⟨hMore, hRules⟩ => ?_)
  rw [hComma.lexemes] at hRule
  exact .here ⟨hFirst.append (hComma.took.left hMore), .written (.of_optional hRule hRules)⟩
termination_by c.left * 8 + 4

theorem typeArgs_reads (c : Cursor) : Reads c c.typeArgs fun ss c' => Took c c' (ss.map .spec) ∧
    Separated .comma TypeSpecRule c.lexemes (TypeSpec.mapList forget ss) c'.lexemes := by
  rw [typeArgs]
  refine (typeSpec_reads c).bind fun first c₁ hlt₁ ⟨hFirst, hRule⟩ => ?_
  dsimp only
  refine (c₁.mark?_tries .comma).elim (fun _ c₂ hlt₂ hComma => ?_)
    fun _ => .here ⟨hFirst, .one hRule⟩
  refine .advance hComma.leads ((typeArgs_reads c₂).bind fun more c₃ hlt₃ ⟨hMore, hRules⟩ => ?_)
  rw [hComma.lexemes] at hRule
  exact .here ⟨hFirst.append (hComma.took.left hMore), .more hRule hRules⟩
termination_by c.left * 8 + 4

end

theorem optionalType_reads {default : TypeSpec Unit} (t : Token) (build : Extent → TypeSpec Extent)
    (c : Cursor) (h : ∀ e, (build e).map forget = default) (hAnn : ∀ e, (build e).ann = e)
    (hLeaf : ∀ e, (Node.spec (build e)).children = []) (hWord : ∀ e, (Node.spec (build e)).Worded) :
    Reads c (c.optionalType t build) fun s c' =>
      (∀ {c₀ xs text skip}, Took c₀ c xs → Holds c₀ c t text →
        (∀ stands : Spelling, stands t.start t.stop text →
          skip stands (.spec (build (c.extentOf t)))) → Took c₀ c' (xs ++ [.spec s]) skip) ∧
      OptionalTypeRule default c.lexemes (s.map forget) c'.lexemes := by
  unfold optionalType
  refine (c.mark?_tries .colon).elim (fun _ c₁ hlt₁ hColon => ?_) fun _ => ?_
  · refine .advance hColon.leads ((typeSpec_reads c₁).bind fun spec c₂ hlt₂ ⟨hSpec, hRule⟩ => ?_)
    exact .here ⟨fun hx _ _ => (hx.append (hColon.took.left hSpec)).skipping,
      .written (.of_eq hColon.lexemes hRule)⟩
  · refine .here ⟨fun hx ht hSkip => hx.omitted ht (hAnn _) (hLeaf _) (hWord _) hSkip, ?_⟩
    rw [h]
    exact .omitted _

theorem optionalInferred_reads (t : Token) (c : Cursor) :
    Reads c (c.optionalType t .inferred) fun s c' =>
      (∀ {c₀ xs text skip}, Took c₀ c xs → Holds c₀ c t text →
        (∀ stands : Spelling, stands t.start t.stop text →
          skip stands (.spec (.inferred (c.extentOf t)))) → Took c₀ c' (xs ++ [.spec s]) skip) ∧
      OptionalTypeRule (.inferred ()) c.lexemes (s.map forget) c'.lexemes :=
  optionalType_reads t _ c (fun _ => rfl) (fun _ => rfl) (fun _ => rfl) fun _ => trivial

theorem isDotted_objectName : Text.isDotted objectName := by decide +kernel

theorem optionalSuper_reads (t : Token) (c : Cursor) :
    Reads c (c.optionalType t (.simple · objectName [])) fun s c' =>
      (∀ {c₀ xs text skip}, Took c₀ c xs → Holds c₀ c t text →
        (∀ stands : Spelling, stands t.start t.stop text →
          skip stands (.spec (.simple (c.extentOf t) objectName []))) →
            Took c₀ c' (xs ++ [.spec s]) skip) ∧
      OptionalTypeRule (.simple () objectName []) c.lexemes (s.map forget) c'.lexemes :=
  optionalType_reads t _ c (fun _ => rfl) (fun _ => rfl) (fun _ => rfl) fun _ => isDotted_objectName

theorem typeParamList_reads (c : Cursor) : Reads c c.typeParamList fun ps c' =>
    Took c c' (ps.map .typeParam) ∧
      Separated .comma TypeParamRule c.lexemes (ps.map (.map forget)) c'.lexemes := by
  rw [typeParamList]
  refine (ident_reads c).bind ?_
  rintro ⟨name, t⟩ c₁ hlt₁ hName
  have hFirst : Took c c₁.bump [.typeParam ⟨c₁.extentOf t, name⟩] :=
    hName.took.node hName.isWord (s := hName.spans hlt₁ rfl)
  have hRule : TypeParamRule c.lexemes ⟨(), name⟩ c₁.bump.lexemes := by
    rw [hName.lexemes]
    exact .mk name _
  dsimp only [nodeOf]
  refine .advance (.bump c₁) ((c₁.bump.mark?_tries .comma).elim (fun _ c₂ hlt₂ hComma => ?_)
    fun _ => .here ⟨hFirst, .one hRule⟩)
  have : c₂.left < c₁.left := hlt₂
  refine .advance hComma.leads ((typeParamList_reads c₂).bind ?_)
  rintro more c₃ hlt₃ ⟨hMore, hRules⟩
  rw [hComma.lexemes] at hRule
  exact .here ⟨hFirst.append (hComma.took.left hMore), .more hRule hRules⟩
termination_by c.left

theorem typeParams_reads (c : Cursor) : Reads c c.typeParams fun ps c' =>
    Took c c' (ps.map .typeParam) ∧ TypeParamsRule c.lexemes (ps.map (.map forget)) c'.lexemes := by
  unfold typeParams
  refine (c.mark?_tries .openBracket).elim (fun _ c₁ hlt₁ hOpen => ?_)
    fun _ => .here ⟨.refl c, .omitted _⟩
  refine .advance hOpen.leads ((typeParamList_reads c₁).bind fun ps c₂ hlt₂ ⟨hParams, hRule⟩ => ?_)
  refine (mark_reads c₂ _).bind fun _ c₃ hlt₃ hClose => ?_
  exact .here ⟨hOpen.took.left (hParams.right hClose.took),
    .written (.of_eq hOpen.lexemes hRule hClose.lexemes)⟩

theorem paramList_reads (c : Cursor) : Reads c c.paramList fun ps c' =>
    Took c c' (ps.map .param) ∧
      Optional [] (Items ParamRule) c.lexemes (ps.map (.map forget)) c'.lexemes := by
  rw [paramList]
  refine .ite (fun _ => .here ⟨.refl c, .omitted _⟩) fun _ => ?_
  refine (ident_reads c).bind ?_
  rintro ⟨name, t⟩ c₁ hlt₁ hName
  refine (mark_reads c₁ _).bind ?_
  intro _ c₂ hlt₂ hColon
  refine (typeSpec_reads c₂).bind ?_
  rintro spec c₃ hlt₃ ⟨hSpec, hRule⟩
  have hFirst : Took c c₃.bump [.param ⟨c₃.extent c.start, name, spec⟩] :=
    hName.took.lead hlt₁ (hColon.took.left hSpec) hName.isWord
  have hRule : ParamRule c.lexemes ⟨(), name, spec.map forget⟩ c₃.bump.lexemes :=
    .mk hName.lexemes (.of_eq hColon.lexemes hRule)
  dsimp only [node]
  refine .advance (.bump c₃) ((c₃.bump.mark?_tries .comma).elim (fun _ c₄ hlt₄ hComma => ?_)
    fun _ => .here ⟨hFirst, .written (.one hRule)⟩)
  have : c₄.left < c₃.left := hlt₄
  refine .advance hComma.leads ((paramList_reads c₄).bind ?_)
  rintro more c₅ hlt₅ ⟨hMore, hRules⟩
  rw [hComma.lexemes] at hRule
  exact .here ⟨hFirst.append (hComma.took.left hMore), .written (.of_optional hRule hRules)⟩
termination_by c.left

theorem params_reads (c : Cursor) : Reads c c.params fun (ps, close) c' =>
    (Took c c' (ps.map .param) ∧ Holds c c' close ")") ∧
      Listed ParamRule c.lexemes (ps.map (.map forget)) c'.lexemes := by
  unfold params
  refine (mark_reads c _).bind fun _ c₁ hlt₁ hOpen => ?_
  refine (paramList_reads c₁).bind fun params c₂ hlt₂ ⟨hParams, hRule⟩ => ?_
  refine (mark_reads c₂ _).bind fun close c₃ hlt₃ hClose => ?_
  have hBefore := hOpen.took.left hParams
  exact .here ⟨⟨hBefore.right hClose.took, hBefore.holds_from hClose.holds⟩,
    .of_eq hOpen.lexemes hRule hClose.lexemes⟩

theorem mode_reads (c : Cursor) : Reads c c.mode fun mode c' =>
    Took c c' [] ∧ ModeRule c.lexemes mode c'.lexemes := by
  unfold mode
  refine (c.word?_tries .var).elim (fun _ c₁ hlt₁ hVar => .ok ⟨hVar.took, ?_⟩ hVar.leads)
    fun _ => (word_reads c _).bind fun _ c₁ hlt₁ hVal => .here ⟨hVal.took, ?_⟩
  · rw [hVar.lexemes]
    exact .var _
  · rw [hVal.lexemes]
    exact .val _

mutual

theorem value_reads (c : Cursor) : Reads c c.value fun v c' =>
    Took c c' [.value v] ∧ ValueRule true c.lexemes (v.map forget) c'.lexemes := by
  rw [value]
  refine (primary_reads c).bind fun first c₁ hlt₁ ⟨hFirst, hRule⟩ => ?_
  refine (members_reads c.start first c₁).bind fun all c₂ hlt₂ ⟨hAll, hDots⟩ => ?_
  exact .here ⟨hAll rfl hlt₁ hFirst, .mk hRule hDots⟩
termination_by c.left * 8 + 2

theorem members_reads (start : Nat) (outer : Value Extent) (c : Cursor) :
    Reads c (members start outer c) fun v c' =>
      (∀ {c₀ : Cursor}, start = c₀.start → c.left < c₀.left → Took c₀ c [.value outer] →
        Took c₀ c' [.value v]) ∧
      DotsRule true (outer.map forget) c.lexemes (v.map forget) c'.lexemes := by
  rw [members]
  refine (c.mark?_tries .dot).elim (fun _ c₁ hlt₁ hDot => ?_)
    fun _ => .here ⟨fun _ _ => id, .none _ _⟩
  refine .advance hDot.leads ((ident_reads c₁).bind fun (name, t) c₂ hlt₂ hName => ?_)
  have hRef (forward : Bool) : Took c₁ c₂.bump [.reference ⟨c₂.extentOf t, name, forward⟩] :=
    hName.took.lead hlt₂ (.refl c₂) hName.isWord (hName.spans hlt₂ rfl)
  rw [hDot.lexemes, hName.lexemes]
  dsimp only [nodeOf, id]
  refine .advance (.bump c₂) ((c₂.bump.mark?_tries .equals).elim (fun _ c₃ hlt₃ hEquals => ?_)
    fun _ => .ite (fun _ => ?_) fun _ => ?_)
  · have : c₃.left < c₂.left := hlt₃
    refine .advance hEquals.leads ((value_reads c₃).bind fun v c₄ hlt₄ ⟨hValue, hRule⟩ => ?_)
    refine .here ⟨fun {c₀} hFrom hlt hOuter => ?_, .assign (.of_eq hEquals.lexemes hRule) (.none _ _)⟩
    subst hFrom
    have hRest := hDot.took.left ((hRef false).append (hEquals.took.left hValue))
    exact (hOuter.append hRest).node
  · refine (call_reads t.start ⟨c₂.extentOf t, name, true⟩ rfl c₂.bump).bind
      fun inner c₄ hlt₄ ⟨hInner, types, args, hValue, hCall⟩ => ?_
    have : c₄.left < c₂.left := hlt₄
    refine .advance (.bump c₄)
      ((members_reads start _ c₄.bump).bind fun all c₅ hlt₅ ⟨hAll, hDots⟩ => ?_)
    rw [node, Value.map, hValue] at hDots
    refine .here ⟨fun {c₀} hFrom hlt hOuter => hAll hFrom (show c₄.left < c₀.left by omega) ?_,
      .call (by simp) hCall hDots⟩
    subst hFrom
    exact (hOuter.append (hDot.took.left (hInner hName.start hlt₂ (hRef true)))).node
  · refine .advance ((Leads.bump _).trans (.bump _)) ((members_reads start _
      c₂.bump.bump.bump).bind fun all c₅ hlt₅ ⟨hAll, hDots⟩ => ?_)
    refine .here ⟨fun {c₀} hFrom hlt hOuter => hAll hFrom (show c₂.left < c₀.left by omega) ?_,
      .member hDots⟩
    subst hFrom
    have hInner : Took c₁ c₂.bump.bump
        [.value (.ident (c₂.bump.extentOf t) ⟨c₂.extentOf t, name, false⟩)] :=
      (hRef false).node (s := .token hlt₂ hName.start hName.stop rfl)
    exact (hOuter.append (hDot.took.left hInner)).node
      (s := .extent (show c₂.left < c₀.left by omega) rfl)
termination_by c.left * 8

theorem primary_reads (c : Cursor) : Reads c c.primary fun v c' =>
    Took c c' [.value v] ∧ PrimaryRule true c.lexemes (v.map forget) c'.lexemes := by
  rw [primary]
  split
  · exact .fail c _
  · rename_i t after hlt hPop
    have hTakes := pop?_takes hPop
    have hLeads := hTakes.leads.trans (.bump after)
    split
    case h_6 => exact binding_reads c
    case h_7 => exact binding_reads c
    case h_8 => exact function_reads c
    case h_9 => exact function_reads c
    case h_11 => exact .fail c _
    all_goals
      rename_i hLexeme
      rw [hTakes.lexemes, show t.lexeme = _ from hLexeme]
    · exact .ok ⟨hTakes.took.node (s := hTakes.spans hlt rfl), .string _ _⟩ hLeads
    · exact .ok ⟨hTakes.took.node (s := hTakes.spans hlt rfl), .number _ _⟩ hLeads
    · exact .ok ⟨hTakes.took.node (s := hTakes.spans hlt rfl), .yes _⟩ hLeads
    · exact .ok ⟨hTakes.took.node (s := hTakes.spans hlt rfl), .no _⟩ hLeads
    · exact .ok ⟨hTakes.took.node (s := hTakes.spans hlt rfl), .nothing _⟩ hLeads
    · rename_i name
      have hRef (forward : Bool) : Took c after.bump [.reference ⟨after.extentOf t, name, forward⟩] :=
        hTakes.took.lead hlt (.refl after) (fun hc => hc t hTakes.mem name hLexeme)
          (hTakes.spans hlt rfl)
      dsimp only [nodeOf, id]
      refine .advance hLeads (.ite (fun _ => ?_) fun _ => ?_)
      · refine (call_reads t.start ⟨after.extentOf t, name, true⟩ rfl after.bump).bind
          fun v c₂ hlt₂ ⟨hCall, types, args, hValue, hRule⟩ => ?_
        refine .here ⟨hCall hTakes.start hlt (hRef true), ?_⟩
        rw [hValue]
        exact .call hRule
      · refine (after.bump.mark?_tries .equals).elim (fun _ c₂ hlt₂ hEquals => ?_)
          fun _ => .here ⟨(hRef false).node (s := .token hlt hTakes.start hTakes.stop rfl), .ident _ _⟩
        have : c₂.left < after.left := hlt₂
        refine .advance hEquals.leads ((value_reads c₂).bind fun v c₃ hlt₃ ⟨hValue, hRule⟩ => ?_)
        have hAll := (hRef false).append (hEquals.took.left hValue)
        exact .here ⟨hAll.node (s := .extent (show c₃.left < c.left by omega)
          (by rw [← hTakes.start]; rfl)), .assign (.of_eq hEquals.lexemes hRule)⟩
termination_by c.left * 8 + 1

theorem call_reads (start : Nat) (ref : Reference Extent) (hForward : ref.forward = true) (c : Cursor) :
    Reads c (call start ref c) fun v c' =>
      (∀ {c₀ : Cursor}, start = c₀.start → c.left < c₀.left → Took c₀ c [.reference ref] →
        Took c₀ c' [.value v]) ∧
      ∃ types args, v.map forget = .call () (ref.map forget) types args ∧
        CallRule true c.lexemes (types, args) c'.lexemes := by
  have hRest (typeArgs : List (TypeSpec Extent)) (c₁ : Cursor) (hlt₁ : c₁.left < c.left + 1)
      (hTypeArgs : Took c c₁ (typeArgs.map .spec))
      (hRule : TypeArgsRule c.lexemes (TypeSpec.mapList forget typeArgs) c₁.lexemes) :
      Reads c₁ (do
        let ⟨_, c₂, _⟩ ← c₁.mark .openParen
        let ⟨args, c₃, _⟩ ← c₂.arguments
        let ⟨_, c₄, _⟩ ← c₃.mark .closeParen
        return c₄.node start (.call · ref typeArgs args) : Parse (Value Extent) c.left) fun v c' =>
          (∀ {c₀ : Cursor}, start = c₀.start → c.left < c₀.left → Took c₀ c [.reference ref] →
            Took c₀ c' [.value v]) ∧
          ∃ types args, v.map forget = .call () (ref.map forget) types args ∧
            CallRule true c.lexemes (types, args) c'.lexemes := by
    refine (mark_reads c₁ _).bind fun _ c₂ hlt₂ hOpen => ?_
    refine (arguments_reads c₂).bind fun args c₃ hlt₃ ⟨hArgs, hItems⟩ => ?_
    refine (mark_reads c₃ _).bind fun _ c₄ hlt₄ hClose => ?_
    refine .here ⟨fun {c₀} hStart hlt hRef => ?_,
      _, _, rfl, .mk hRule (.of_eq hOpen.lexemes hItems hClose.lexemes)⟩
    subst hStart
    exact ((hRef.append hTypeArgs).append (hOpen.took.left (hArgs.right hClose.took))).node
      (f := hForward)
  rw [call]
  refine (c.mark?_tries .openBracket).elim (fun _ c₁ hlt₁ hOpen => ?_)
    fun _ => hRest [] c (by omega) (.refl c) (.omitted _)
  refine .advance hOpen.leads ((typeArgs_reads c₁).bind fun typeArgs c₂ hlt₂ ⟨hArgs, hRule⟩ => ?_)
  refine (mark_reads c₂ _).bind fun _ c₃ hlt₃ hClose => ?_
  exact hRest typeArgs c₃ (by omega) (hOpen.took.left (hArgs.right hClose.took))
    (.written (.of_eq hOpen.lexemes hRule hClose.lexemes))
termination_by c.left * 8

theorem arguments_reads (c : Cursor) : Reads c c.arguments fun vs c' => Took c c' (vs.map .value) ∧
    Optional [] (Items (ValueRule true)) c.lexemes (Value.mapList forget vs) c'.lexemes := by
  rw [arguments]
  refine .ite (fun _ => .here ⟨.refl c, .omitted _⟩) fun _ => ?_
  refine (value_reads c).bind fun first c₁ hlt₁ ⟨hFirst, hRule⟩ => ?_
  dsimp only
  refine (c₁.mark?_tries .comma).elim (fun _ c₂ hlt₂ hComma => ?_)
    fun _ => .here ⟨hFirst, .written (.one hRule)⟩
  refine .advance hComma.leads ((arguments_reads c₂).bind fun more c₃ hlt₃ ⟨hMore, hRules⟩ => ?_)
  rw [hComma.lexemes] at hRule
  exact .here ⟨hFirst.append (hComma.took.left hMore), .written (.of_optional hRule hRules)⟩
termination_by c.left * 8 + 3

theorem binding_reads (c : Cursor) : Reads c c.binding fun v c' =>
    Took c c' [.value v] ∧ PrimaryRule true c.lexemes (v.map forget) c'.lexemes := by
  rw [binding]
  refine (mode_reads c).bind fun mode c₁ hlt₁ ⟨hMode, hModeRule⟩ => ?_
  refine (ident_reads c₁).bind fun (name, t) c₂ hlt₂ hName => ?_
  refine (optionalInferred_reads t c₂).bind fun spec c₃ hlt₃ ⟨hSpec, hSpecRule⟩ => ?_
  refine (mark_reads c₃ _).bind fun _ c₄ hlt₄ hEquals => ?_
  refine (value_reads c₄).bind fun v c₅ hlt₅ ⟨hValue, hRule⟩ => ?_
  rw [hName.lexemes] at hModeRule
  exact .here ⟨hMode.lead hlt₁ ((hSpec hName.took hName.holds fun _ hStands => ⟨rfl, hStands⟩).append
    (hEquals.took.left hValue)) (fun hc => hName.isWord (hMode.worded hc)) (k := fun _ _ => id),
    .bind hModeRule hSpecRule (.of_eq hEquals.lexemes hRule)⟩
termination_by c.left * 8

theorem function_reads (c : Cursor) : Reads c c.function fun v c' =>
    Took c c' [.value v] ∧ PrimaryRule true c.lexemes (v.map forget) c'.lexemes := by
  rw [function]
  refine (typeParams_reads c).bind fun typeParams c₁ hlt₁ ⟨hTypeParams, hTypes⟩ => ?_
  refine (params_reads c₁).bind fun (params, close) c₂ hlt₂ ⟨⟨hParams, hHolds⟩, hList⟩ => ?_
  refine (optionalInferred_reads close c₂).bind fun result c₃ hlt₃ ⟨hResult, hRule⟩ => ?_
  refine (mark_reads c₃ _).bind fun _ c₄ hlt₄ hArrow => ?_
  refine (mark_reads c₄ _).bind fun _ c₅ hlt₅ hOpen => ?_
  refine (statements_reads c₅).bind fun body c₆ hlt₆ ⟨⟨hBody, hCloses⟩, hStatements⟩ => ?_
  refine (mark_reads c₆ _).bind fun _ c₇ hlt₇ hClose => ?_
  rw [hArrow.lexemes] at hRule
  exact .here ⟨Took.node ((hResult (hTypeParams.append hParams) (hTypeParams.holds_from hHolds)
    fun _ hStands => ⟨rfl, hStands⟩).append ((hArrow.took.left hOpen.took).left
      (hBody.right hClose.took))) (f := hCloses) (k := fun _ _ => id),
    .function hTypes hList hRule (.of_eq hOpen.lexemes hStatements hClose.lexemes)⟩
termination_by c.left * 8

theorem statements_reads (c : Cursor) : Reads c c.statements fun ss c' =>
    (Took c c' (ss.map .statement) ∧ Statement.Closes ss) ∧
      StatementsRule true c.lexemes (Statement.mapList forget ss) c'.lexemes := by
  rw [statements]
  refine .ite (fun _ => .here ⟨⟨.refl c, by simp [Statement.Closes]⟩, .none _⟩) fun _ => ?_
  refine (value_reads c).bind fun v c₁ hlt₁ ⟨hValue, hRule⟩ => ?_
  dsimp only [node, id]
  obtain ⟨hSkip, hEnded⟩ := skip_ended c₁.bump hRule
  have : (c₁.bump.skip .semicolon).rest.left < c₁.left + 1 := (c₁.bump.skip .semicolon).lt
  refine .advance ((Leads.bump c₁).trans hSkip.leads)
    ((statements_reads (c₁.bump.skip .semicolon).rest).bind
      fun more c₃ hlt₃ ⟨⟨hMore, hCloses⟩, hRules⟩ => ?_)
  have hFirst : Took c c₁.bump [.statement ⟨c₁.extent c.start, v, more.isEmpty⟩] := hValue.node
  have hLast : more.isEmpty = (Statement.mapList forget more).isEmpty := by cases more <;> rfl
  refine .here ⟨⟨hFirst.append (hSkip.left hMore), hCloses.cons rfl⟩, ?_⟩
  simp only [Statement.mapList, Statement.map, hLast]
  exact .more hEnded hRules
termination_by c.left * 8 + 3

end

theorem visibility_reads (default : Visibility) (c : Cursor) :
    Took c (c.visibility default).rest [] ∧ Optional default VisibilityRule c.lexemes
      (c.visibility default).value (c.visibility default).rest.lexemes := by
  have hWord {k : Keyword} {v : Visibility} {t : Token} {c' : Cursor}
      (h : Takes c c' t (.keyword k)) (hRule : ∀ ls, VisibilityRule (.keyword k :: ls) v ls) :
      Took c c' [] ∧ Optional default VisibilityRule c.lexemes v c'.lexemes := by
    rw [h.lexemes]
    exact ⟨h.took, .written (hRule _)⟩
  unfold visibility
  refine (c.word?_tries .everywhere).elim (fun _ _ _ h => hWord h .everywhere) fun _ => ?_
  refine (c.word?_tries .hidden).elim (fun _ _ _ h => hWord h .hidden) fun _ => ?_
  refine (c.word?_tries .namespaced).elim (fun _ _ _ h => hWord h .namespaced) fun _ => ?_
  exact ⟨.refl c, .omitted _⟩

theorem signature_reads (c : Cursor) : Reads c c.signature fun s c' =>
    Took c c' [.signature s] ∧ SignatureRule c.lexemes (s.map forget) c'.lexemes := by
  unfold signature
  obtain ⟨hVisibility, hVisible⟩ := visibility_reads .everywhere c
  refine .advance hVisibility.leads ((ident_reads _).bind fun (name, t) c₂ hlt₂ hName => ?_)
  have hLt : c₂.left < c.left := hlt₂.trans_le (Nat.le_of_lt_succ (c.visibility _).lt)
  refine (typeParams_reads c₂).bind fun typeParams c₃ hlt₃ ⟨hTypeParams, hTypes⟩ => ?_
  refine (params_reads c₃).bind fun (params, _) c₄ hlt₄ ⟨⟨hParams, _⟩, hList⟩ => ?_
  refine (optionalInferred_reads t c₄).bind fun result c₅ hlt₅ ⟨hResult, hRule⟩ => ?_
  have hHead := hTypeParams.append hParams
  have hBefore := hVisibility.left hName.took
  obtain ⟨first, more, hFirst⟩ := hBefore.exists_first hLt
  obtain ⟨taken, hTaken, hLeading⟩ := hHead.leading
  have hTokens : c.tokens = first :: (more ++ taken) ++ c₄.tokens := by simp [hFirst, hTaken]
  rw [hName.lexemes] at hVisible
  -- A result that is left out is placed on the name, in front of all that leads.
  refine .here ⟨Took.leadWith (hResult (hBefore.left hHead)
    (hHead.holds_until hBefore (hVisibility.holds_from hName.holds)) fun _ hStands => ⟨rfl, hStands⟩)
    (.extent (show c₅.left < c.left by omega) rfl) (.refl _) (List.forall_mem_singleton.2 (.refl _))
    (fun hc => hName.isWord (hVisibility.worded hc)) trivial rfl hTokens (Nat.le_of_lt_succ hlt₅) ?_,
    .mk hVisible hTypes hList hRule⟩
  rw [List.flatMap_append, List.flatMap_singleton, Node.leading_spec, List.append_nil, List.map_append]
  exact hLeading.trans (List.sublist_append_right _ _).subperm

theorem method_reads (c : Cursor) : Reads c c.method fun m c' =>
    Took c c' [.method m] ∧ MethodRule true c.lexemes (m.map forget) c'.lexemes := by
  unfold method
  refine (signature_reads c).bind fun signature c₁ hlt₁ ⟨hSignature, hRule⟩ => ?_
  refine (mark_reads c₁ _).bind fun _ c₂ hlt₂ hOpen => ?_
  refine (statements_reads c₂).bind fun body c₃ hlt₃ ⟨⟨hBody, hCloses⟩, hStatements⟩ => ?_
  refine (mark_reads c₃ _).bind fun _ c₄ hlt₄ hClose => ?_
  have hAll := hSignature.append (hOpen.took.left (hBody.right hClose.took))
  exact .here ⟨hAll.node (f := hCloses), .mk hRule (.of_eq hOpen.lexemes hStatements hClose.lexemes)⟩

theorem classAttribute_reads (c : Cursor) : Reads c c.classAttribute fun a c' =>
    Took c c' [.attribute a] ∧ Ended (AttributeRule true) c.lexemes (a.map forget) c'.lexemes := by
  unfold classAttribute
  refine (mode_reads c).bind fun mode c₁ hlt₁ ⟨hMode, hModeRule⟩ => ?_
  refine (ident_reads c₁).bind fun (name, t) c₂ hlt₂ hName => ?_
  refine (optionalInferred_reads t c₂).bind fun spec c₃ hlt₃ ⟨hSpec, hSpecRule⟩ => ?_
  rw [hName.lexemes] at hModeRule
  have hNode (v : Option (Value Extent)) (c₄ : Cursor) (hlt₄ : c₄.left < c₃.left + 1)
      (hValue : Took c₃ c₄ (v.toList.map .value)) :
      Took c c₄.bump [.attribute ⟨c₄.extent c.start, mode, name, spec, v⟩] :=
    hMode.lead hlt₁ ((hSpec hName.took hName.holds fun _ hStands => ⟨rfl, hStands⟩).append hValue)
      (fun hc => hName.isWord (hMode.worded hc)) (k := fun _ _ => id)
  dsimp only
  refine (c₃.mark?_tries .equals).elim (fun _ c₄ hlt₄ hEquals => ?_) fun _ => ?_
  · refine .advance hEquals.leads ((value_reads c₄).bind fun v c₅ hlt₅ ⟨hValue, hRule⟩ => ?_)
    obtain ⟨hSkip, hEnded⟩ := skip_ended c₅.bump
      (AttributeRule.valued hModeRule hSpecRule (.of_eq hEquals.lexemes hRule))
    exact .ok ⟨(hNode (some v) c₅ (by omega) (hEquals.took.left hValue)).right hSkip, hEnded⟩
      ((Leads.bump c₅).trans hSkip.leads)
  · have hBare : AttributeRule true c.lexemes ⟨(), mode, name, spec.map forget, none⟩ c₃.lexemes :=
      .bare hModeRule hSpecRule
    obtain ⟨hSkip, hEnded⟩ := skip_ended c₃.bump hBare
    exact .ok ⟨(hNode none c₃ (by omega) (.refl c₃)).right hSkip, hEnded⟩
      ((Leads.bump c₃).trans hSkip.leads)

theorem signatures_reads (c : Cursor) : Reads c c.signatures fun ss c' =>
    Took c c' (ss.map .signature) ∧
      Many (Ended SignatureRule) c.lexemes (ss.map (.map forget)) c'.lexemes := by
  rw [signatures]
  refine .ite (fun _ => .here ⟨.refl c, .none _⟩) fun _ => ?_
  refine (signature_reads c).bind ?_
  rintro first c₁ hlt₁ ⟨hFirst, hRule⟩
  obtain ⟨hSkip, hEnded⟩ := skip_ended c₁ hRule
  have : (c₁.skip .semicolon).rest.left < c₁.left + 1 := (c₁.skip .semicolon).lt
  refine .advance hSkip.leads ((signatures_reads (c₁.skip .semicolon).rest).bind ?_)
  rintro more c₃ hlt₃ ⟨hMore, hRules⟩
  exact .here ⟨hFirst.append (hSkip.left hMore), .more hEnded hRules⟩
termination_by c.left

theorem classMembers_reads (c : Cursor) : Reads c c.classMembers fun (attributes, methods) c' =>
    (∃ members, Took c c' members ∧
      members.Perm (attributes.map .attribute ++ methods.map .method) ∧
        (attributes.map .attribute).Sublist members ∧ (methods.map .method).Sublist members) ∧
    ClassMembersRule true c.lexemes (attributes.map (.map forget), methods.map (.map forget))
      c'.lexemes := by
  rw [classMembers]
  refine .ite (fun _ => .here ⟨⟨[], .refl c, .refl _, .refl _, .refl _⟩, .none _⟩) fun _ =>
    .ite (fun _ => ?_) fun _ => ?_
  · refine (classAttribute_reads c).bind ?_
    rintro first c₁ hlt₁ ⟨hFirst, hRule⟩
    refine (classMembers_reads c₁).bind ?_
    rintro ⟨attributes, methods⟩ c₂ hlt₂ ⟨⟨members, hMore, hPerm, hAttributes, hMethods⟩, hRules⟩
    exact .here ⟨⟨_, hFirst.append hMore, hPerm.cons _, hAttributes.cons_cons _, hMethods.cons _⟩,
      .ofAttribute hRule hRules⟩
  · refine (method_reads c).bind ?_
    rintro first c₁ hlt₁ ⟨hFirst, hRule⟩
    refine (classMembers_reads c₁).bind ?_
    rintro ⟨attributes, methods⟩ c₂ hlt₂ ⟨⟨members, hMore, hPerm, hAttributes, hMethods⟩, hRules⟩
    exact .here ⟨⟨_, hFirst.append hMore, (hPerm.cons _).trans List.perm_middle.symm,
      hAttributes.cons _, hMethods.cons_cons _⟩, .ofMethod hRule hRules⟩
termination_by c.left

theorem typeDecl_reads (start : Nat) (visibility : Visibility) (c : Cursor)
    (h : Optional .namespaced VisibilityRule ls visibility (.keyword .typeDecl :: c.lexemes)) :
    Reads c (c.typeDecl start visibility) fun t c' =>
      (∀ {c₀ : Cursor}, start = c₀.start → c.left < c₀.left → Took c₀ c [] →
        Took c₀ c' [.top t]) ∧ TopLevelRule true ls (t.map forget) c'.lexemes := by
  unfold typeDecl declaration
  refine (ident_reads c).bind fun (name, t) c₁ hlt₁ hName => ?_
  refine (typeParams_reads c₁).bind fun typeParams c₂ hlt₂ ⟨hTypeParams, hTypes⟩ => ?_
  refine (optionalSuper_reads t c₂).bind fun super c₃ hlt₃ ⟨hSuper, hRule⟩ => ?_
  refine (mark_reads c₃ _).bind fun _ c₄ hlt₄ hOpen => ?_
  refine (signatures_reads c₄).bind fun methods c₅ hlt₅ ⟨hMethods, hRules⟩ => ?_
  refine (mark_reads c₅ _).bind fun _ c₆ hlt₆ hClose => ?_
  rw [hName.lexemes] at h
  refine .here ⟨fun {c₀} hStart hlt hBefore => ?_,
    .ofType h hTypes hRule (.of_eq hOpen.lexemes hRules hClose.lexemes)⟩
  subst hStart
  have hHolds := hTypeParams.holds_until (hBefore.left hName.took) (hBefore.holds_from hName.holds)
  exact Took.node ((hSuper (hBefore.left (hName.took.left hTypeParams)) hHolds
    fun _ hStands => ⟨rfl, hStands⟩).append (hOpen.took.left (hMethods.right hClose.took)))
    (fun hc => hName.isWord (hBefore.worded hc)) (k := fun _ _ => id)

theorem classDecl_reads (start : Nat) (visibility : Visibility) (c : Cursor)
    (h : Optional .namespaced VisibilityRule ls visibility (.keyword .classDecl :: c.lexemes)) :
    Reads c (c.classDecl start visibility) fun t c' =>
      (∀ {c₀ : Cursor}, start = c₀.start → c.left < c₀.left → Took c₀ c [] →
        Took c₀ c' [.top t]) ∧ TopLevelRule true ls (t.map forget) c'.lexemes := by
  unfold classDecl declaration
  refine (ident_reads c).bind fun (name, t) c₁ hlt₁ hName => ?_
  refine (typeParams_reads c₁).bind fun typeParams c₂ hlt₂ ⟨hTypeParams, hTypes⟩ => ?_
  refine (optionalSuper_reads t c₂).bind fun super c₃ hlt₃ ⟨hSuper, hRule⟩ => ?_
  refine (mark_reads c₃ _).bind fun _ c₄ hlt₄ hOpen => ?_
  refine (classMembers_reads c₄).bind fun (attributes, methods) c₅ hlt₅
    ⟨⟨members, hMembers, hPerm, hAttributes, hMethods⟩, hRules⟩ => ?_
  refine (mark_reads c₅ _).bind fun _ c₆ hlt₆ hClose => ?_
  rw [hName.lexemes] at h
  refine .here ⟨fun {c₀} hStart hlt hBefore => ?_,
    .ofClass h hTypes hRule (.of_eq hOpen.lexemes hRules hClose.lexemes)⟩
  subst hStart
  have hHolds := hTypeParams.holds_until (hBefore.left hName.took) (hBefore.holds_from hName.holds)
  refine Took.nodeOver ((hSuper (hBefore.left (hName.took.left hTypeParams)) hHolds
    fun _ hStands => ⟨rfl, hStands⟩).append (hOpen.took.left (hMembers.right hClose.took)))
    (.extent (show c₆.left < c₀.left by omega) rfl) ?_ ?_
    (fun hc => hName.isWord (hBefore.worded hc)) trivial rfl
  · exact (hPerm.append_left _).trans (by rw [← List.append_assoc]; exact .refl _)
  · refine List.forall_mem_cons.2 ⟨hAttributes.append_left _, List.forall_mem_singleton.2 ?_⟩
    exact hMethods.append_left _

theorem topLevel_reads (c : Cursor) : Reads c c.topLevel fun t c' =>
    Took c c' [.top t] ∧ TopLevelRule true c.lexemes (t.map forget) c'.lexemes := by
  unfold topLevel
  obtain ⟨hVisibility, hVisible⟩ := visibility_reads .namespaced c
  have hlt₁ : (c.visibility .namespaced).rest.left < c.left + 1 := (c.visibility .namespaced).lt
  refine .advance hVisibility.leads ?_
  dsimp only
  refine (Cursor.word?_tries _ .typeDecl).elim (fun _ c₂ hlt₂ hWord => ?_) fun _ => ?_
  · rw [hWord.lexemes] at hVisible
    exact .advance hWord.leads ((typeDecl_reads c.start _ c₂ hVisible).bind
      fun decl c₃ hlt₃ ⟨hDecl, hRule⟩ =>
        .here ⟨hDecl rfl (by omega) (hVisibility.left hWord.took), hRule⟩)
  · dsimp only
    refine (Cursor.word?_tries _ .classDecl).elim (fun _ c₂ hlt₂ hWord => ?_) fun _ => .fail _ _
    rw [hWord.lexemes] at hVisible
    exact .advance hWord.leads ((classDecl_reads c.start _ c₂ hVisible).bind
      fun decl c₃ hlt₃ ⟨hDecl, hRule⟩ =>
        .here ⟨hDecl rfl (by omega) (hVisibility.left hWord.took), hRule⟩)

theorem uses_reads (c : Cursor) : Reads c c.uses fun us c' => Took c c' (us.map .use) ∧
    Many (Ended UseRule) c.lexemes (us.map fun u => ⟨(), u.source, u.name⟩) c'.lexemes := by
  rw [uses]
  refine (c.word?_tries .use).elim (fun _ c₁ hlt₁ hUse => ?_) fun _ => .here ⟨.refl c, .none _⟩
  refine .advance hUse.leads ((qualifiedName_reads c₁).bind ?_)
  rintro ⟨source, t⟩ c₂ hlt₂ hSource
  have hFirst (name : Text) (c₃ : Cursor) (hlt₃ : c₃.left < c₂.left + 1) (hName : Took c₁ c₃ [])
      (hText : Token.Worded c.tokens → Text.isWord name) :
      Took c c₃.bump [.use ⟨c₃.extent c.start, source, name⟩] :=
    hUse.took.lead hlt₁ hName fun hc => ⟨hSource.dotted (hUse.took.worded hc), hText hc⟩
  have hRule := hSource.rule
  rw [hUse.lexemes]
  dsimp only
  refine (c₂.mark?_tries .colon).elim (fun _ c₃ hlt₃ hColon => ?_) fun _ => ?_
  · refine .advance hColon.leads ((ident_reads c₃).bind ?_)
    rintro ⟨name, _⟩ c₄ hlt₄ hName
    rw [hColon.lexemes, hName.lexemes] at hRule
    obtain ⟨hSkip, hEnded⟩ := skip_ended c₄.bump (UseRule.renamed hRule)
    have : (c₄.bump.skip .semicolon).rest.left < c₄.left + 1 := (c₄.bump.skip .semicolon).lt
    refine .advance ((Leads.bump c₄).trans hSkip.leads)
      ((uses_reads (c₄.bump.skip .semicolon).rest).bind ?_)
    rintro more c₅ hlt₅ ⟨hMore, hRules⟩
    have hBefore := hSource.took.left hColon.took
    exact .here ⟨(hFirst name c₄ (by omega) (hBefore.left hName.took)
      fun hc => hName.isWord (hBefore.worded (hUse.took.worded hc))).append (hSkip.left hMore),
      .more hEnded hRules⟩
  · obtain ⟨hSkip, hEnded⟩ := skip_ended c₂.bump (UseRule.plain hRule)
    have : (c₂.bump.skip .semicolon).rest.left < c₂.left + 1 := (c₂.bump.skip .semicolon).lt
    refine .advance ((Leads.bump c₂).trans hSkip.leads)
      ((uses_reads (c₂.bump.skip .semicolon).rest).bind ?_)
    rintro more c₅ hlt₅ ⟨hMore, hRules⟩
    exact .here ⟨(hFirst t.lexeme.text c₂ (by omega) hSource.took
      fun hc => hSource.word (hUse.took.worded hc)).append (hSkip.left hMore), .more hEnded hRules⟩
termination_by c.left

/-- What is known of a source that was read in a namespace from a cursor on. -/
structure Rooted (c : Cursor) (space : Text) (r : Root Extent) (next : Nat) : Prop where
  space : r.space = space
  span : Span c.next next (Node.root r).extentIds
  words : Token.Worded c.tokens → (Node.root r).All Node.Worded
  formed : (Node.root r).All Node.Formed
  leading : ((Node.root r).leading Extent.start).Subperm (c.tokens.map (·.start))
  nested : ∀ stands, c.Orderly stands → (Node.root r).All (Node.Nested stands)
  within : ∀ stands, c.Orderly stands → (Node.root r).All (·.ann.stop ≤ c.size)

theorem Took.rooted {uses : List (Use Extent)} {top : TopLevel Extent}
    (h : Took c c' (uses.map .use ++ [.top top])) (space : Text) :
    c.Rooted space ⟨⟨c'.next, 0, c'.size⟩, space, uses, top⟩ (c'.next + 1) := by
  refine ⟨rfl, ?_, fun hc => Node.all_iff.2 ⟨trivial, h.words hc⟩,
    Node.all_iff.2 ⟨trivial, h.formed⟩, ?_, fun stands hc => ?_, fun stands hc => ?_⟩
  · rw [Node.extentIds_eq]
    exact (h.span.append (.one c'.next)).perm (List.perm_append_singleton _ _)
  · obtain ⟨taken, hTaken, hLeading⟩ := h.leading
    rw [hTaken, List.map_append, Node.leading_eq]
    exact hLeading.trans (List.sublist_append_left _ _).subperm
  · have hCovers := h.covers stands hc
    exact (hCovers.mono fun _ => False.elim).nests (Nat.zero_le _) hCovers.orderly.last (.refl _)
      (List.forall_mem_singleton.2 (.refl _))
  · have hCovers := h.covers stands hc
    refine Node.all_iff.2 ⟨h.size.le, fun k hk j hj => ?_⟩
    obtain ⟨-, hProper, hStop, hNested⟩ := hCovers.within k hk
    have hLast := Node.last_le_of_nested hNested hj
    have hEnd : c'.last ≤ c'.size := hCovers.orderly.last
    have hSize : c'.size = c.size := h.size
    simp only [Extent.last] at hLast
    omega

theorem root_spec (space : Text) (c : Cursor) :
    match c.root space with
    | .ok (r, next) => c.Rooted space r next ∧ RootRule true space c.lexemes (r.map forget)
    | .error e => c.Marks e.offset := by
  unfold root
  have hUses := uses_reads c
  cases hu : c.uses with
  | error e =>
    rw [hu] at hUses
    exact hUses
  | ok r =>
    obtain ⟨uses, c₁, hlt₁⟩ := r
    rw [hu] at hUses
    obtain ⟨hLeads, hUses, hRules⟩ := hUses
    have hTop := topLevel_reads c₁
    simp only [bind, Except.bind]
    cases ht : c₁.topLevel with
    | error e =>
      rw [ht] at hTop
      exact hLeads.marks hTop
    | ok r =>
      obtain ⟨top, c₂, hlt₂⟩ := r
      rw [ht] at hTop
      obtain ⟨hLeads', hTop, hRule⟩ := hTop
      simp only
      by_cases hEnd : c₂.tokens.isEmpty
      · rw [if_pos hEnd]
        have hNil : c₂.lexemes = [] := by simpa [lexemes] using hEnd
        simp only [hNil] at hRule
        exact ⟨(hUses.append hTop).rooted space, .mk hRules hRule⟩
      · rw [if_neg hEnd]
        exact (hLeads.trans hLeads').marks c₂.marks_start

theorem root_reads (space : Text) (c : Cursor) :
    match c.root space with
    | .ok (r, _) => RootRule true space c.lexemes (r.map forget)
    | .error e => c.Marks e.offset := by
  have hSpec := root_spec space c
  cases h : c.root space with
  | error e => rwa [h] at hSpec
  | ok result =>
    rw [h] at hSpec
    exact hSpec.2

end Cursor

namespace Root

theorem parse_took (space text : Text) (next : Nat) :
    Yields (parse space text next) fun (r, next') => ∃ tokens, Token.lex text = .ok tokens ∧
      Cursor.Rooted ⟨tokens, 0, text.length, next⟩ space r next' :=
  Yields.bind (fun _ => id) fun tokens hLex (r, next') h => by
    have hSpec := Cursor.root_spec space ⟨tokens, 0, text.length, next⟩
    rw [h] at hSpec
    exact ⟨tokens, hLex, hSpec.1⟩

/-- The tree of a text has the given namespace; its nodes are numbered from `next` up to the number
that is given back, each by one of its own; and its names are words. -/
theorem parse_spec (space text : Text) (next : Nat) :
    Yields (parse space text next) fun (r, next') =>
      r.space = space ∧ Span next next' (Node.root r).extentIds ∧
        (Node.root r).All Node.Worded := by
  intro (r, next') h
  obtain ⟨tokens, hLex, hTook⟩ := parse_took space text next _ h
  exact ⟨hTook.space, hTook.span, hTook.words (Token.worded_of_readAll hLex)⟩

theorem parse_within (space text : Text) (next : Nat) :
    Yields (parse space text next) fun (r, _) =>
      (Node.root r).All (·.ann.stop ≤ text.length) := by
  intro (r, next') h
  obtain ⟨tokens, hLex, hTook⟩ := parse_took space text next _ h
  obtain ⟨hSorted, hLaid⟩ := Token.laid_of_readAll (Nat.le_refl _) hLex
  refine hTook.within (fun _ _ _ => True) ⟨Nat.zero_le _, hSorted, fun t ht => ?_⟩
  exact ⟨Nat.zero_le _, (hLaid t ht).2, (Token.within_of_readAll hLex t ht).2, trivial⟩

theorem parse_formed (space text : Text) (next : Nat) :
    Yields (parse space text next) fun (r, _) => (Node.root r).All Node.Formed := by
  intro (r, next') h
  obtain ⟨tokens, hLex, hTook⟩ := parse_took space text next _ h
  exact hTook.formed

theorem parse_leading (space text : Text) (next : Nat) :
    Yields (parse space text next) fun (r, _) => ((Node.root r).leading Extent.start).Nodup := by
  intro (r, next') h
  obtain ⟨tokens, hLex, hTook⟩ := parse_took space text next _ h
  obtain ⟨hSorted, hLaid⟩ := Token.laid_of_readAll (Nat.le_refl _) hLex
  have hStarts : (tokens.map (·.start)).Nodup := by
    rw [List.nodup_iff_pairwise_ne, List.pairwise_map]
    refine hSorted.imp_of_mem fun {a b} ha _ hab => ?_
    exact ((hLaid a ha).2.trans_le hab).ne
  obtain ⟨starts, hPerm, hSublist⟩ := hTook.leading
  exact hPerm.nodup_iff.1 (hStarts.sublist hSublist)

end Root

/-- The tree of a text is that of a derivation of its tokens. -/
theorem Root.parse_derives {space text : Text} {next after : Nat} {r : Root Extent}
    (h : Root.parse space text next = .ok (r, after)) :
    ∃ tokens, Token.lex text = .ok tokens ∧
      RootRule true space (tokens.map (·.lexeme)) (r.map forget) := by
  unfold Root.parse at h
  cases hLex : Token.lex text with
  | error e =>
    rw [hLex] at h
    cases h
  | ok tokens =>
    rw [hLex] at h
    have hRead := Cursor.root_reads space ⟨tokens, 0, text.length, next⟩
    rw [show Cursor.root space _ = _ from h] at hRead
    exact ⟨tokens, rfl, hRead⟩

/-- An attribute whose value calls a member with a type argument. -/
def memberCall : Text := "class C \x7b val y = x.g[A]() \x7d"

def afterMember : List Lexeme :=
  [.mark .openBracket, .ident "A", .mark .closeBracket, .mark .openParen, .mark .closeParen,
    .mark .closeBrace]

def afterOuter : List Lexeme := .mark .dot :: .ident "g" :: afterMember

theorem lexemes_memberCall : (Token.lex memberCall).map (·.map (·.lexeme)) =
    .ok ([.keyword .classDecl, .ident "C", .mark .openBrace, .keyword .val, .ident "y",
      .mark .equals, .ident "x"] ++ afterOuter) := by
  decide +kernel

theorem parse_memberCall : ∃ r after, Root.parse "p" memberCall 1 = .ok (r, after) := by
  have hOk : (Root.parse "p" memberCall 1).isOk := by decide +kernel
  cases h : Root.parse "p" memberCall 1 with
  | error e =>
    rw [h] at hOk
    cases hOk
  | ok result => exact ⟨result.1, result.2, rfl⟩

theorem derivation_of_memberCall : ∃ r after, Root.parse "p" memberCall 1 = .ok (r, after) ∧
    ∃ tokens, Token.lex memberCall = .ok tokens ∧
      RootRule true "p" (tokens.map (·.lexeme)) (r.map forget) := by
  obtain ⟨r, after, h⟩ := parse_memberCall
  exact ⟨r, after, h, Root.parse_derives h⟩

theorem rest_of_memberCall {v : Value Unit} (h : ValueRule false (.ident "x" :: afterOuter) v rest) :
    rest = afterOuter ∨ rest = afterMember := by
  obtain ⟨hFirst, hDots⟩ := h
  unfold afterOuter at hFirst
  cases hFirst with
  | bind hMode => cases hMode
  | function hTypeParams hParams =>
    obtain _ | ⟨⟨_⟩⟩ := hTypeParams
    cases hParams
  | call hCall =>
    obtain ⟨_ | ⟨⟨_⟩⟩, hArgs⟩ := hCall
    cases hArgs
  | assign h => cases h
  | ident =>
    cases hDots with
    | none => exact .inl rfl
    | member h =>
      cases h
      exact .inr rfl
    | assign h => cases h
    | call hTypes hCall =>
      obtain rfl := hTypes rfl
      obtain ⟨_ | ⟨⟨⟨⟩⟩⟩, ⟨⟩⟩ := hCall

theorem classMembers_of_mark {generic : Bool} {members : List (Attribute Unit) × List (Method Unit)}
    (h : ClassMembersRule generic (.mark m :: ls) members rest) : rest = .mark m :: ls := by
  cases h with
  | none => rfl
  | ofAttribute hFirst => obtain ⟨⟨⟨⟩⟩ | ⟨⟨⟩⟩⟩ | ⟨⟨⟨⟩⟩ | ⟨⟨⟩⟩⟩ := hFirst
  | ofMethod hFirst => obtain ⟨⟨⟨⟩ | ⟨⟨⟩⟩⟩⟩ := hFirst

theorem rest_of_attribute {a : Attribute Unit} (h : AttributeRule false ([.keyword .val, .ident "y",
      .mark .equals, .ident "x"] ++ afterOuter) a rest) :
    rest = .mark .equals :: .ident "x" :: afterOuter ∨ rest = afterOuter ∨ rest = afterMember := by
  cases h with
  | bare hMode hSpec =>
    cases hMode
    obtain _ | ⟨⟨⟩⟩ := hSpec
    exact .inl rfl
  | valued hMode hSpec hValue =>
    cases hMode
    obtain _ | ⟨⟨⟩⟩ := hSpec
    obtain ⟨hValue⟩ := hValue
    exact .inr (rest_of_memberCall hValue)

theorem not_classMembers_memberCall {members : List (Attribute Unit) × List (Method Unit)} :
    ¬ClassMembersRule false ([.keyword .val, .ident "y", .mark .equals, .ident "x"] ++ afterOuter)
      members (.mark .closeBrace :: rest) := by
  intro h
  cases h with
  | ofMethod hFirst => obtain ⟨⟨⟨⟩ | ⟨⟨⟩⟩⟩⟩ := hFirst
  | ofAttribute hFirst hOthers =>
    cases hFirst with
    | bare h =>
      rcases rest_of_attribute h with rfl | rfl | rfl <;> cases classMembers_of_mark hOthers
    | closed h => rcases rest_of_attribute h with h | h | h <;> cases h

/-- Type arguments of a member are read, though not by a grammar without them. -/
theorem memberCall_read_but_not_derived :
    (∃ r after, Root.parse "p" memberCall 1 = .ok (r, after)) ∧
    ∃ tokens, Token.lex memberCall = .ok tokens ∧
      ∀ r, ¬RootRule false "p" (tokens.map (·.lexeme)) r := by
  refine ⟨parse_memberCall, ?_⟩
  have hLexemes := lexemes_memberCall
  cases hLex : Token.lex memberCall with
  | error e =>
    rw [hLex] at hLexemes
    cases hLexemes
  | ok tokens =>
    rw [hLex] at hLexemes
    refine ⟨tokens, rfl, ?_⟩
    rw [show tokens.map (·.lexeme) = _ from Except.ok.inj hLexemes]
    rintro _ ⟨hUses, hTop⟩
    obtain _ | ⟨⟨⟨⟩⟩ | ⟨⟨⟩⟩, _⟩ := hUses
    cases hTop with
    | ofType hVisibility => obtain _ | ⟨⟨⟩⟩ := hVisibility
    | ofClass hVisibility hTypeParams hSuper hBody =>
      obtain _ | ⟨⟨⟩⟩ := hVisibility
      obtain _ | ⟨⟨_⟩⟩ := hTypeParams
      obtain _ | ⟨⟨_⟩⟩ := hSuper
      obtain ⟨hBody⟩ := hBody
      exact not_classMembers_memberCall hBody

end Assay
