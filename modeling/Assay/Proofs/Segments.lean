import Mathlib
import Assay.Proofs.Entered
import Assay.Proofs.Spaced

/-! Reading never stops too late: what comes before the place of an error is the start of a text that
is read. What a reader takes is a segment, which says also what may come after it and what the
shortest text of its kind is. A reader that stops in one segment has taken all of those before it, and
these are taken again in front of whatever completes the text; what is missing of the segment, and all
of the segments after it, is then filled in by their shortest texts. -/

namespace Assay

variable {m : Mark} {l : Lexeme} {ms : List Mark}

/-- Whether a lexeme may stand in a text that is filled in. -/
def Lexeme.isPlain : Lexeme → Bool
  | .mark _ => true
  | .keyword _ => true
  | .ident name => name = "a"
  | _ => false

/-- A part of a text: where it ends, what may come after it, and the shortest part of its kind. -/
structure Segment where
  Takes : List Lexeme → List Lexeme → Prop
  Before : Option Lexeme → Prop
  sample : List Lexeme
  /-- Whether the part may start with a dot. -/
  dotted : Bool
  plain : sample.all Lexeme.isPlain
  takes_sample : ∀ {rest : List Lexeme}, Before rest.head? → Takes (sample ++ rest) rest

namespace Segment

theorem plain_nil : ([] : List Lexeme).all Lexeme.isPlain := rfl

theorem plain_ident : [Lexeme.ident "a"].all Lexeme.isPlain := by decide

/-- The segment ends in front of the list, as it does in front of what was left: either list starts
with the same lexeme, or with one that may come after the segment. A dot counts only in the second
case, since it is the lexeme after a dot that says whether a name ends there. -/
def Fits (S : Segment) (left rest : List Lexeme) : Prop :=
  S.Before rest.head? ∨ rest.head? = left.head? ∧ rest.head? ≠ some (.mark .dot)

/-- The second segment may come after the first. -/
structure Joins (S T : Segment) : Prop where
  before : ∀ l, T.Before l → S.Before (T.sample.head?.or l)
  dotted : T.dotted → S.Before (some (.mark .dot))

def andThen (S T : Segment) (h : S.Joins T) : Segment where
  Takes ls rest := ∃ mid, S.Takes ls mid ∧ T.Takes mid rest
  Before := T.Before
  sample := S.sample ++ T.sample
  dotted := S.dotted || (S.sample.isEmpty && T.dotted)
  plain := by
    rw [List.all_append, S.plain, T.plain]
    rfl
  takes_sample hRest := by
    refine ⟨_, ?_, T.takes_sample hRest⟩
    rw [List.append_assoc]
    refine S.takes_sample ?_
    rw [List.head?_append]
    exact h.before _ hRest

/-- What is a part of the first kind is one of the second kind too. -/
structure Within (S T : Segment) : Prop where
  sample : (!S.sample.isEmpty || T.sample.isEmpty) = true
  dotted : (!S.dotted || T.dotted) = true
  takes : ∀ {ls rest : List Lexeme}, S.Takes ls rest → T.Takes ls rest
  before : ∀ {l}, T.Before l → S.Before l

/-- From `c` to `c'` a segment was taken, and it is taken again in front of every list that fits. -/
structure Took (S : Segment) (c c' : Cursor) : Prop where
  leads : Cursor.Leads c c'
  again : ∃ taken, c.lexemes = taken ++ c'.lexemes ∧
    (taken.head? = some (.mark .dot) → S.dotted) ∧ (taken = [] → S.sample = []) ∧
    ∀ rest, S.Fits c'.lexemes rest → S.Takes (taken ++ rest) rest

/-- From `c` to `c'` the start of a segment was taken, which can be completed. -/
structure Stuck (S : Segment) (c c' : Cursor) : Prop where
  leads : Cursor.Leads c c'
  again : ∃ taken missing, c.lexemes = taken ++ c'.lexemes ∧
    (taken.head? = some (.mark .dot) → S.dotted) ∧ missing.all Lexeme.isPlain ∧
    ∀ rest, S.Before rest.head? → S.Takes (taken ++ (missing ++ rest)) rest

variable {S T : Segment} {c c₁ c₂ : Cursor}

theorem andThen_dotted {first second : List Lexeme} (h : S.Joins T)
    (hFirst : first.head? = some (.mark .dot) → S.dotted) (hNil : first = [] → S.sample = [])
    (hSecond : second.head? = some (.mark .dot) → T.dotted)
    (hHead : (first ++ second).head? = some (.mark .dot)) : (S.andThen T h).dotted := by
  cases first with
  | nil => simp [Segment.andThen, hNil rfl, hSecond hHead]
  | cons l first => simp [Segment.andThen, hFirst hHead]

theorem Took.andThen (hS : S.Took c c₁) (hT : T.Took c₁ c₂) (h : S.Joins T) :
    (S.andThen T h).Took c c₂ := by
  obtain ⟨hLeads, first, hc, hDot, hNil, hFirst⟩ := hS
  obtain ⟨hLeads', second, hc₁, hDot', hNil', hSecond⟩ := hT
  refine ⟨hLeads.trans hLeads', first ++ second, by rw [hc, hc₁, List.append_assoc],
    andThen_dotted h hDot hNil hDot', ?_, ?_⟩
  · intro hBoth
    obtain ⟨hFirst, hSecond⟩ := List.append_eq_nil_iff.1 hBoth
    exact List.append_eq_nil_iff.2 ⟨hNil hFirst, hNil' hSecond⟩
  · intro rest hFits
    refine ⟨second ++ rest, ?_, hSecond rest hFits⟩
    rw [List.append_assoc]
    refine hFirst _ ?_
    cases second with
    | nil =>
      rcases hFits with hBefore | hSame
      · have hJoins := h.before _ hBefore
        rw [hNil' rfl] at hJoins
        exact .inl hJoins
      · rw [hc₁]
        exact .inr hSame
    | cons l second =>
      by_cases hl : l = .mark .dot
      · subst hl
        exact .inl (h.dotted (hDot' rfl))
      · rw [hc₁]
        exact .inr ⟨rfl, by simpa using hl⟩

theorem Took.stuck (hS : S.Took c c₁) (hT : T.Stuck c₁ c₂) (h : S.Joins T) :
    (S.andThen T h).Stuck c c₂ := by
  obtain ⟨hLeads, first, hc, hDot, hNil, hFirst⟩ := hS
  obtain ⟨hLeads', second, missing, hc₁, hDot', hPlain, hSecond⟩ := hT
  cases second with
  | nil =>
    -- nothing of the second segment was taken, so all of it is filled in
    refine ⟨hLeads.trans hLeads', first, T.sample, by rw [hc, hc₁]; rfl, fun hHead => Bool.or_eq_true_iff.2 (.inl (hDot hHead)),
      T.plain, fun rest hRest => ⟨T.sample ++ rest, hFirst _ (.inl ?_), T.takes_sample hRest⟩⟩
    rw [List.head?_append]
    exact h.before _ hRest
  | cons l second =>
    refine ⟨hLeads.trans hLeads', first ++ l :: second, missing, by rw [hc, hc₁, List.append_assoc],
      andThen_dotted h hDot hNil hDot', hPlain,
      fun rest hRest => ⟨l :: second ++ (missing ++ rest), ?_, hSecond rest hRest⟩⟩
    rw [List.append_assoc]
    refine hFirst _ ?_
    by_cases hl : l = .mark .dot
    · subst hl
      exact .inl (h.dotted (hDot' rfl))
    · rw [hc₁]
      exact .inr ⟨rfl, by simpa using hl⟩

theorem Stuck.andThen (hS : S.Stuck c c₁) (h : S.Joins T) : (S.andThen T h).Stuck c c₁ := by
  obtain ⟨hLeads, taken, missing, hc, hDot, hPlain, hTakes⟩ := hS
  refine ⟨hLeads, taken, missing ++ T.sample, hc, fun hHead => Bool.or_eq_true_iff.2 (.inl (hDot hHead)), ?_,
    fun rest hRest => ⟨T.sample ++ rest, ?_, T.takes_sample hRest⟩⟩
  · rw [List.all_append, hPlain, T.plain]
    rfl
  · rw [List.append_assoc]
    refine hTakes _ ?_
    rw [List.head?_append]
    exact h.before _ hRest

theorem Took.bump (h : S.Took c c₁) : S.Took c c₁.bump :=
  ⟨h.leads.trans (.bump c₁), h.again⟩

theorem Took.of_bump (h : S.Took c.bump c₁) : S.Took c c₁ :=
  ⟨(Cursor.Leads.bump c).trans h.leads, h.again⟩

theorem Stuck.of_bump (h : S.Stuck c.bump c₁) : S.Stuck c c₁ :=
  ⟨(Cursor.Leads.bump c).trans h.leads, h.again⟩

theorem stuck_here (S : Segment) (c : Cursor) : S.Stuck c c :=
  ⟨.refl c, [], S.sample, rfl, by simp, S.plain, fun _ hRest => S.takes_sample hRest⟩

theorem Within.isDotted (h : S.Within T) (hDot : S.dotted) : T.dotted := by
  simpa [hDot] using h.dotted

theorem Took.within (hS : S.Took c c₁) (h : S.Within T) : T.Took c c₁ := by
  obtain ⟨hLeads, taken, hc, hDot, hNil, hTakes⟩ := hS
  refine ⟨hLeads, taken, hc, fun hHead => h.isDotted (hDot hHead), fun hTaken => ?_,
    fun rest hFits => h.takes (hTakes rest (hFits.imp_left h.before))⟩
  simpa [hNil hTaken] using h.sample

theorem Stuck.within (hS : S.Stuck c c₁) (h : S.Within T) : T.Stuck c c₁ := by
  obtain ⟨hLeads, taken, missing, hc, hDot, hPlain, hTakes⟩ := hS
  exact ⟨hLeads, taken, missing, hc, fun hHead => h.isDotted (hDot hHead), hPlain,
    fun rest hRest => h.takes (hTakes rest (h.before hRest))⟩

def only (S : Segment) (B : Option Lexeme → Prop) (h : ∀ l, B l → S.Before l) : Segment :=
  { S with Before := B, takes_sample := fun hRest => S.takes_sample (h _ hRest) }

theorem within_only {B : Option Lexeme → Prop} {h : ∀ l, B l → S.Before l} :
    S.Within (S.only B h) :=
  .mk (Bool.not_or_self _) (Bool.not_or_self _) id (h _)

def lexeme (l : Lexeme) (h : l.isPlain) : Segment where
  Takes ls rest := ls = l :: rest
  Before _ := True
  sample := [l]
  dotted := l = .mark .dot
  plain := by simpa using h
  takes_sample _ := rfl

/-- A mark. -/
abbrev mark (m : Mark) : Segment := lexeme (.mark m) rfl

/-- A keyword. -/
abbrev word (k : Keyword) : Segment := lexeme (.keyword k) rfl

theorem lexeme_took (hl : l.isPlain) (hLeads : Cursor.Leads c c₁) (h : c.lexemes = l :: c₁.lexemes) :
    (lexeme l hl).Took c c₁ := by
  refine ⟨hLeads, [l], h, ?_, by simp, fun rest _ => rfl⟩
  intro hHead
  simpa [lexeme] using hHead

theorem Took.at_end (hAt : c.isAt m) (hBefore : ∀ l, S.Before l → l = some (.mark m))
    (hSample : S.sample = []) (hTakes : ∀ rest, S.Takes (.mark m :: rest) (.mark m :: rest)) :
    S.Took c c := by
  refine ⟨.refl c, [], rfl, by simp, fun _ => hSample, fun rest hFits => ?_⟩
  have hHead : rest.head? = some (.mark m) :=
    hFits.elim (hBefore _) fun hSame => hSame.1.trans (Cursor.isAt_iff.1 hAt)
  obtain ⟨rest, rfl⟩ := List.head?_eq_some_iff.1 hHead
  exact hTakes rest

/-- The same segment where it starts with none of the marks. -/
def guarded (S : Segment) (ms : List Mark) (h : S.sample = []) : Segment where
  Takes ls rest := Free ms ls.head? ∧ S.Takes ls rest
  Before l := S.Before l ∧ Free ms l
  sample := []
  dotted := S.dotted
  plain := plain_nil
  takes_sample hRest := by
    have hTakes := S.takes_sample hRest.1
    rw [h] at hTakes
    exact ⟨hRest.2, hTakes⟩

theorem Took.guarded (hS : S.Took c c₁) (h : S.sample = []) (hc : Free ms c.lexemes.head?) :
    (S.guarded ms h).Took c c₁ := by
  obtain ⟨hLeads, taken, hTaken, hDot, -, hTakes⟩ := hS
  refine ⟨hLeads, taken, hTaken, hDot, fun _ => rfl, fun rest hFits => ⟨?_, hTakes rest ?_⟩⟩
  · cases taken with
    | nil =>
      rcases hFits with hBefore | hSame
      · exact hBefore.2
      · rw [List.nil_append, hSame.1]
        rwa [hTaken] at hc
    | cons l taken =>
      rw [hTaken] at hc
      exact hc
  · exact hFits.imp_left And.left

theorem Stuck.guarded (hS : S.Stuck c c₁) (h : S.sample = []) (hc : Free ms c.lexemes.head?) :
    (S.guarded ms h).Stuck c c₁ := by
  obtain ⟨hLeads, taken, missing, hTaken, hDot, hPlain, hTakes⟩ := hS
  cases taken with
  | nil =>
    refine ⟨hLeads, [], [], hTaken, hDot, rfl, fun rest hRest => ?_⟩
    exact (S.guarded ms h).takes_sample hRest
  | cons l taken =>
    refine ⟨hLeads, l :: taken, missing, hTaken, hDot, hPlain, fun rest hRest => ⟨?_, hTakes rest hRest.1⟩⟩
    rw [hTaken] at hc
    exact hc

def optional (m : Mark) (S : Segment) : Segment where
  Takes ls rest := ls = rest ∧ rest.head? ≠ some (.mark m) ∨
    ∃ ls', ls = .mark m :: ls' ∧ S.Takes ls' rest
  Before l := S.Before l ∧ l ≠ some (.mark m)
  sample := []
  dotted := m = .dot
  plain := plain_nil
  takes_sample hRest := .inl ⟨rfl, hRest.2⟩

theorem optional_absent (S : Segment) (h : c.mark? m = none) : (S.optional m).Took c c := by
  refine ⟨.refl c, [], rfl, by simp, fun _ => rfl, fun rest hFits => .inl ⟨rfl, ?_⟩⟩
  rcases hFits with ⟨-, hBefore⟩ | ⟨hSame, -⟩
  · exact hBefore
  · rw [hSame]
    exact Cursor.take?_eq_none h

theorem mark?_took {r : Reply c.left Token} (h : c.mark? m = some r) : (mark m).Took c r.rest := by
  obtain ⟨hLeads, hEq⟩ := Cursor.mark?_eq_some h
  exact lexeme_took rfl hLeads hEq

theorem Joins.of_head (hSample : T.sample.head? = some l) (hDot : T.dotted = false)
    (h : S.Before (some l)) : S.Joins T := by
  refine ⟨fun l' _ => ?_, fun hDotted => ?_⟩
  · rw [hSample]
    exact h
  · rw [hDot] at hDotted
    cases hDotted

theorem Joins.of_empty (hSample : T.sample = []) (hDot : T.dotted = false)
    (h : ∀ l, T.Before l → S.Before l) : S.Joins T := by
  refine ⟨fun l hl => ?_, fun hDotted => ?_⟩
  · rw [hSample]
    exact h l hl
  · rw [hDot] at hDotted
    cases hDotted

theorem Joins.after_lexeme (hl : l.isPlain) (T : Segment) : (lexeme l hl).Joins T :=
  ⟨fun _ _ => trivial, fun _ => trivial⟩

end Segment

namespace Cursor

def Resumes {β : Type} {n : Nat} (c : Cursor) (p : Parse β n) (S : Segment) : Prop :=
  match p with
  | .ok r => S.Took c r.rest
  | .error e => ∃ c', S.Stuck c c' ∧ e.offset = c'.start

namespace Resumes

variable {β γ : Type} {n k : Nat} {c c₁ : Cursor} {p q : Parse β n} {S T : Segment}

theorem fail (wants : List Want) : Resumes c (c.fail wants : Parse β n) S :=
  ⟨c, S.stuck_here c, rfl⟩

theorem after (hS : S.Took c c₁) (hq : Resumes c₁ q T) (h : S.Joins T) :
    Resumes c q (S.andThen T h) := by
  cases q with
  | ok r => exact hS.andThen hq h
  | error e =>
    obtain ⟨c', hStuck, hOffset⟩ := hq
    exact ⟨c', hS.stuck hStuck h, hOffset⟩

theorem bind_of_eq {f : Reply n β → Parse γ k} (hp : Resumes c p S) (h : S.Joins T)
    (hf : ∀ r : Reply n β, p = .ok r → Resumes r.rest (f r) T) :
    Resumes c (p >>= f) (S.andThen T h) := by
  cases p with
  | ok r => exact after hp (hf r rfl) h
  | error e =>
    obtain ⟨c', hStuck, hOffset⟩ := hp
    exact ⟨c', hStuck.andThen h, hOffset⟩

theorem bind {f : Reply n β → Parse γ k} (hp : Resumes c p S) (h : S.Joins T)
    (hf : ∀ r : Reply n β, Resumes r.rest (f r) T) : Resumes c (p >>= f) (S.andThen T h) :=
  hp.bind_of_eq h fun r _ => hf r

theorem last_of_eq {f : Reply n β → Parse γ k} (hp : Resumes c p S)
    (hf : ∀ r : Reply n β, p = .ok r → ∃ r', f r = .ok r' ∧ r'.rest.tokens = r.rest.tokens ∧
      r'.rest.size = r.rest.size) : Resumes c (p >>= f) S := by
  cases p with
  | ok r =>
    obtain ⟨r', hr', hTokens, hSize⟩ := hf r rfl
    change Resumes c (f r) S
    rw [hr']
    obtain ⟨hLeads, taken, hc, hRest⟩ := hp
    have hSame : r'.rest.lexemes = r.rest.lexemes := by rw [lexemes, lexemes, hTokens]
    refine ⟨hLeads.trans ⟨by rw [hTokens], hSize⟩, taken, ?_⟩
    rw [hSame]
    exact ⟨hc, hRest⟩
  | error e => exact hp

theorem last {f : Reply n β → Parse γ k} (hp : Resumes c p S)
    (hf : ∀ r : Reply n β, ∃ r', f r = .ok r' ∧ r'.rest.tokens = r.rest.tokens ∧
      r'.rest.size = r.rest.size) : Resumes c (p >>= f) S :=
  hp.last_of_eq fun r _ => hf r

theorem within (hp : Resumes c p S) (h : S.Within T) : Resumes c p T := by
  cases p with
  | ok r => exact hp.within h
  | error e =>
    obtain ⟨c', hStuck, hOffset⟩ := hp
    exact ⟨c', hStuck.within h, hOffset⟩

theorem of_bump (hp : Resumes c.bump p S) : Resumes c p S := by
  cases p with
  | ok r => exact hp.of_bump
  | error e =>
    obtain ⟨c', hStuck, hOffset⟩ := hp
    exact ⟨c', hStuck.of_bump, hOffset⟩

theorem guarded (hp : Resumes c p S) (h : S.sample = []) (hc : Free ms c.lexemes.head?) :
    Resumes c p (S.guarded ms h) := by
  cases p with
  | ok r => exact hp.guarded h hc
  | error e =>
    obtain ⟨c', hStuck, hOffset⟩ := hp
    exact ⟨c', hStuck.guarded h hc, hOffset⟩

theorem ite {b : Prop} [Decidable b] (hp : b → Resumes c p S) (hq : ¬b → Resumes c q S) :
    Resumes c (if b then p else q) S := by
  split
  · exact hp ‹_›
  · exact hq ‹_›

theorem optional {r : Reply c.left Token} (h : c.mark? m = some r) (hS : S.dotted = false)
    (hq : Resumes r.rest q S) : Resumes c q (S.optional m) := by
  refine (after (Segment.mark?_took h) hq (.after_lexeme rfl S)).within (.mk rfl ?_ ?_ And.left)
  · simp [Segment.andThen, Segment.mark, Segment.lexeme, Segment.optional, hS]
  · rintro ls rest ⟨mid, rfl, hTakes⟩
    exact .inr ⟨mid, rfl, hTakes⟩

end Resumes

end Cursor

namespace Segment

open Cursor

def ident : Segment where
  Takes ls rest := ∃ name, ls = .ident name :: rest
  Before _ := True
  sample := [.ident "a"]
  dotted := false
  plain := plain_ident
  takes_sample _ := ⟨"a", rfl⟩

def name : Segment where
  Takes := Accepts qualifiedName
  Before := Free [.dot]
  sample := [.ident "a"]
  dotted := false
  plain := plain_ident
  takes_sample h := qualifiedName_accepts "a" [] (h .dot (by decide))

def atom : Segment where
  Takes := Accepts typeAtom
  Before := Free typeMarks
  sample := [.ident "a"]
  dotted := false
  plain := plain_ident
  takes_sample h :=
    typeAtom_of_name (qualifiedName_accepts "a" [] (h .dot (by decide))) (h .openBracket (by decide))

def moreInter : Segment where
  Takes := Accepts Cursor.moreInter
  Before := Free typeMarks
  sample := []
  dotted := false
  plain := plain_nil
  takes_sample h := moreInter_none (h .ampersand (by decide))

def inter : Segment where
  Takes := Accepts intersection
  Before := Free typeMarks
  sample := [.ident "a"]
  dotted := false
  plain := plain_ident
  takes_sample h := intersection_accepts (atom.takes_sample h) (moreInter.takes_sample h)

def moreUnion : Segment where
  Takes := Accepts Cursor.moreUnion
  Before := Free typeMarks
  sample := []
  dotted := false
  plain := plain_nil
  takes_sample h := moreUnion_none (h .bar (by decide))

def type : Segment where
  Takes := Accepts typeSpec
  Before := Free typeMarks
  sample := [.ident "a"]
  dotted := false
  plain := plain_ident
  takes_sample h := typeSpec_accepts (inter.takes_sample h) (moreUnion.takes_sample h)

def typeArgs : Segment where
  Takes := Accepts Cursor.typeArgs
  Before := Free (.comma :: typeMarks)
  sample := [.ident "a"]
  dotted := false
  plain := plain_ident
  takes_sample h := typeArgs_one (type.takes_sample (h.mono (by decide))) (h .comma (by decide))

def types (n : Nat) : Segment where
  Takes := Lists n
  Before l := l = some (.mark .closeParen)
  sample := (List.replicate n [.ident "a", .mark .comma]).flatten
  dotted := false
  plain := by
    induction n with
    | zero => rfl
    | succ n ih => exact ih
  takes_sample h := by
    induction n with
    | zero =>
      obtain ⟨rest, rfl⟩ := List.head?_eq_some_iff.1 h
      exact lists_none rest
    | succ n ih => exact lists_more (type.takes_sample (.mark (by decide))) ih

/-- What comes after so many types in parentheses: the result of a function, which may be missing if
there is one type only. -/
def result (n : Nat) : Segment where
  Takes ls rest := (n = 1 ∧ ls = rest ∧ rest.head? ≠ some (.mark .colon)) ∨
    ∃ ls', ls = .mark .colon :: ls' ∧ Accepts typeSpec ls' rest
  Before := Free typeMarks
  sample := if n = 1 then [] else [.mark .colon, .ident "a"]
  dotted := false
  plain := by
    split
    · rfl
    · decide
  takes_sample h := by
    by_cases hn : n = 1
    · rw [if_pos hn]
      exact .inl ⟨hn, rfl, h .colon (by decide)⟩
    · rw [if_neg hn]
      exact .inr ⟨_, rfl, type.takes_sample h⟩

def args : Segment :=
  ((typeArgs.andThen (.mark .closeBracket) (.of_head rfl rfl (.mark (by decide)))).optional .openBracket).only
    (Free typeMarks) fun _ h => ⟨trivial, h .openBracket (by decide)⟩

end Segment

namespace Cursor

theorem ident_resumes (c : Cursor) : Resumes c c.ident Segment.ident := by
  unfold ident
  split
  · rename_i t c₁ hlt₁ hPop
    obtain ⟨hLeads, hc⟩ := pop?_eq_some hPop
    split
    · rename_i name hName
      refine ⟨hLeads, [.ident name], ?_, by simp, by simp, fun rest _ => ⟨name, rfl⟩⟩
      rw [hc]
      exact congrArg (· :: c₁.lexemes) hName
    · exact .fail _
  · exact .fail _

theorem mark_resumes (c : Cursor) (m : Mark) : Resumes c (c.mark m) (.mark m) := by
  unfold mark
  split
  · rename_i hMark
    exact Segment.mark?_took hMark
  · exact .fail _

theorem ident_error {c : Cursor} {e : SyntaxError} (h : c.ident = .error e) : e.offset = c.start := by
  unfold ident at h
  split at h
  · split at h
    · cases h
    · cases h
      rfl
  · cases h
    rfl

theorem qualifiedName_resumes (c : Cursor) : Resumes c c.qualifiedName Segment.name := by
  have hReads := qualifiedName_reads c
  cases hName : c.qualifiedName with
  | ok r =>
    rw [hName] at hReads
    obtain ⟨hLeads, hNames⟩ := hReads
    obtain ⟨first, parts, hc⟩ := qname_lexemes hNames.rule
    refine ⟨hLeads, .ident first :: dotLexemes parts, hc, by simp, by simp, fun rest hFits => ?_⟩
    refine qualifiedName_accepts first parts ?_
    rcases hFits with hBefore | hSame
    · exact hBefore .dot (by decide)
    · exact hSame.2
  | error e =>
    refine ⟨c, Segment.name.stuck_here c, ident_error ?_⟩
    unfold qualifiedName at hName
    cases hi : c.ident with
    | error e' =>
      rw [hi] at hName
      exact hName
    | ok r =>
      rw [hi] at hName
      cases hName

theorem ok_bind {α β : Type} (x : α) (f : α → Except SyntaxError β) : (.ok x >>= f) = f x := rfl

mutual

theorem typeSpec_resumes (c : Cursor) : Resumes c c.typeSpec Segment.type := by
  have hJoins : Segment.inter.Joins .moreUnion := .of_empty rfl rfl fun _ h => h
  refine Resumes.within (S := Segment.inter.andThen .moreUnion hJoins) ?_
    (.mk rfl rfl (fun ⟨_, hFirst, hMore⟩ => typeSpec_accepts hFirst hMore) id)
  rw [typeSpec]
  refine (intersection_resumes c).bind hJoins fun ⟨first, c₁, hlt₁⟩ => .ite (fun _ => ?_) fun hAt => ?_
  · exact (moreUnion_resumes c₁).last fun r => ⟨_, rfl, rfl, rfl⟩
  · have hMore := moreUnion_resumes c₁
    rwa [moreUnion_of_head fun h => hAt (isAt_iff.2 h)] at hMore
termination_by c.left * 8 + 3

theorem moreUnion_resumes (c : Cursor) : Resumes c c.moreUnion Segment.moreUnion := by
  have hJoins : Segment.inter.Joins .moreUnion := .of_empty rfl rfl fun _ h => h
  refine Resumes.within (S := (Segment.inter.andThen .moreUnion hJoins).optional .bar) ?_ (.mk rfl rfl ?_ ?_)
  · rw [moreUnion]
    cases hBar : c.mark? .bar with
    | none => exact Segment.optional_absent _ hBar
    | some r =>
      obtain ⟨_, c₁, hlt₁⟩ := r
      refine .optional hBar rfl ((intersection_resumes c₁).bind hJoins fun ⟨first, c₂, hlt₂⟩ => ?_)
      exact (moreUnion_resumes c₂).last fun r => ⟨_, rfl, rfl, rfl⟩
  · rintro ls rest (⟨rfl, hRest⟩ | ⟨ls', rfl, mid, hFirst, hMore⟩)
    · exact moreUnion_none hRest
    · exact moreUnion_more hFirst hMore
  · exact fun h => ⟨h, h .bar (by decide)⟩
termination_by c.left * 8

theorem intersection_resumes (c : Cursor) : Resumes c c.intersection Segment.inter := by
  have hJoins : Segment.atom.Joins .moreInter := .of_empty rfl rfl fun _ h => h
  refine Resumes.within (S := Segment.atom.andThen .moreInter hJoins) ?_
    (.mk rfl rfl (fun ⟨_, hFirst, hMore⟩ => intersection_accepts hFirst hMore) id)
  rw [intersection]
  refine (typeAtom_resumes c).bind hJoins fun ⟨first, c₁, hlt₁⟩ => .ite (fun _ => ?_) fun hAt => ?_
  · exact (moreInter_resumes c₁).last fun r => ⟨_, rfl, rfl, rfl⟩
  · have hMore := moreInter_resumes c₁
    rwa [moreInter_of_head fun h => hAt (isAt_iff.2 h)] at hMore
termination_by c.left * 8 + 2

theorem moreInter_resumes (c : Cursor) : Resumes c c.moreInter Segment.moreInter := by
  have hJoins : Segment.atom.Joins .moreInter := .of_empty rfl rfl fun _ h => h
  refine Resumes.within (S := (Segment.atom.andThen .moreInter hJoins).optional .ampersand) ?_
    (.mk rfl rfl ?_ ?_)
  · rw [moreInter]
    cases hMark : c.mark? .ampersand with
    | none => exact Segment.optional_absent _ hMark
    | some r =>
      obtain ⟨_, c₁, hlt₁⟩ := r
      refine .optional hMark rfl ((typeAtom_resumes c₁).bind hJoins fun ⟨first, c₂, hlt₂⟩ => ?_)
      exact (moreInter_resumes c₂).last fun r => ⟨_, rfl, rfl, rfl⟩
  · rintro ls rest (⟨rfl, hRest⟩ | ⟨ls', rfl, mid, hFirst, hMore⟩)
    · exact moreInter_none hRest
    · exact moreInter_more hFirst hMore
  · exact fun h => ⟨h, h .ampersand (by decide)⟩
termination_by c.left * 8

theorem typeAtom_resumes (c : Cursor) : Resumes c c.typeAtom Segment.atom := by
  rw [typeAtom]
  cases hOpen : c.mark? .openParen with
  | some r =>
    obtain ⟨_, c₁, hlt₁⟩ := r
    obtain ⟨n, hTypes, hCount⟩ := typeList_resumes c₁
    have hResult : (Segment.mark .closeParen).Joins (.result n) := .after_lexeme rfl _
    have hClose : (Segment.types n).Joins ((Segment.mark .closeParen).andThen (.result n) hResult) :=
      .of_head rfl rfl rfl
    refine Resumes.within (S := (Segment.mark .openParen).andThen _ (.after_lexeme rfl
      ((Segment.types n).andThen _ hClose))) ?_ (.mk rfl rfl ?_ id)
    · refine .after (Segment.mark?_took hOpen) (hTypes.bind_of_eq hClose fun ⟨types, c₂, hlt₂⟩ hList => ?_) _
      refine (mark_resumes c₂ _).bind hResult fun ⟨_, c₃, hlt₃⟩ => ?_
      have hLength : types.length = n := hCount _ hList
      cases hColon : c₃.mark? .colon with
      | some r =>
        obtain ⟨_, c₄, hlt₄⟩ := r
        simp only [hColon]
        refine Resumes.within (S := (Segment.mark .colon).andThen .type (.after_lexeme rfl _)) ?_
          (.mk rfl rfl (fun ⟨ls', hColon, hSpec⟩ => .inr ⟨ls', hColon, hSpec⟩) id)
        refine .after (Segment.mark?_took hColon) ?_ _
        exact (typeSpec_resumes c₄).last fun r => ⟨_, rfl, rfl, rfl⟩
      | none =>
        simp only [hColon]
        split
        · refine ⟨.refl _, [], rfl, by simp, fun _ => if_pos hLength.symm, fun rest hFits => ?_⟩
          refine .inl ⟨hLength.symm, rfl, ?_⟩
          rcases hFits with hBefore | hSame
          · exact hBefore .colon (by decide)
          · rw [hSame.1]
            exact take?_eq_none hColon
        · exact .fail _
    · rintro ls rest ⟨_, rfl, _, hTypes, _, rfl, ⟨rfl, rfl, hRest⟩ | ⟨ls', rfl, hResult⟩⟩
      · exact typeAtom_of_group hTypes hRest
      · exact typeAtom_of_func hTypes.accepts hResult
  | none =>
    have hArgs : Segment.name.Joins .args := .of_empty rfl rfl fun _ h => h.mono (by decide)
    refine Resumes.within (S := Segment.name.andThen .args hArgs) ?_ (.mk rfl rfl ?_ id)
    · refine (qualifiedName_resumes c).bind hArgs fun ⟨⟨name, _⟩, c₁, hlt₁⟩ => ?_
      refine Resumes.within ?_ Segment.within_only
      cases hBracket : c₁.mark? .openBracket with
      | none =>
        simp only [hBracket]
        exact (Segment.optional_absent _ hBracket).bump
      | some r =>
        obtain ⟨_, c₂, hlt₂⟩ := r
        simp only [hBracket]
        refine .optional hBracket rfl ((typeArgs_resumes c₂).bind _ fun ⟨args, c₃, hlt₃⟩ => ?_)
        exact (mark_resumes c₃ _).last fun r => ⟨_, rfl, rfl, rfl⟩
    · rintro ls rest ⟨_, hName, ⟨rfl, hRest⟩ | ⟨ls', rfl, _, hArgs, rfl⟩⟩
      · exact typeAtom_of_name hName hRest
      · exact typeAtom_of_args hName hArgs
termination_by c.left * 8 + 1

theorem typeList_resumes (c : Cursor) : ∃ n, Resumes c c.typeList (.types n) ∧
    ∀ r, c.typeList = .ok r → r.value.length = n := by
  have hFirst := typeSpec_resumes c
  have hOne : Segment.type.Joins ((Segment.types 0).optional .comma) :=
    .of_empty rfl rfl fun _ h => .of_head (by decide) h.1
  have hWithin : (Segment.type.andThen _ hOne).Within (.types 1) := .mk rfl rfl (by
    rintro ls rest ⟨_, hFirst, ⟨rfl, hRest⟩ | ⟨ls', rfl, hMore⟩⟩
    · exact lists_one hFirst hRest
    · exact lists_more hFirst hMore) fun h => ⟨h, by simp [show _ = _ from h]⟩
  rw [typeList]
  by_cases hAt : c.isAt .closeParen
  · rw [if_pos hAt]
    refine ⟨0, Segment.Took.at_end hAt (fun _ h => h) rfl lists_none, ?_⟩
    rintro _ ⟨⟩
    rfl
  · rw [if_neg hAt]
    cases hSpec : c.typeSpec with
    | error e =>
      rw [hSpec] at hFirst
      obtain ⟨c', hStuck, hOffset⟩ := hFirst
      exact ⟨1, ⟨c', (hStuck.andThen hOne).within hWithin, hOffset⟩, fun _ h => by cases h⟩
    | ok r =>
      obtain ⟨first, c₁, hlt₁⟩ := r
      rw [hSpec] at hFirst
      rw [ok_bind]
      cases hComma : c₁.mark? .comma with
      | none =>
        simp only [hComma]
        refine ⟨1, (Segment.Took.andThen hFirst (Segment.optional_absent _ hComma) hOne).within hWithin, ?_⟩
        rintro _ ⟨⟩
        rfl
      | some r =>
        obtain ⟨_, c₂, hlt₂⟩ := r
        obtain ⟨n, hMore, hCount⟩ := typeList_resumes c₂
        have hComma' : Segment.type.Joins ((Segment.mark .comma).andThen (.types n) (.after_lexeme rfl _)) :=
          .of_head rfl rfl (.mark (by decide))
        simp only [hComma]
        refine ⟨n + 1, Resumes.within (S := Segment.type.andThen _ hComma') ?_ (.mk rfl rfl ?_ id), ?_⟩
        · refine .after hFirst (.after (Segment.mark?_took hComma) ?_ _) _
          exact hMore.last fun r => ⟨_, rfl, rfl, rfl⟩
        · rintro ls rest ⟨_, hFirst, _, rfl, hMore⟩
          exact lists_more hFirst hMore
        · intro r hr
          cases hMore : c₂.typeList with
          | error e =>
            rw [hMore] at hr
            cases hr
          | ok more =>
            rw [hMore] at hr
            cases hr
            exact congrArg (· + 1) (hCount _ hMore)
termination_by c.left * 8 + 4

theorem typeArgs_resumes (c : Cursor) : Resumes c c.typeArgs Segment.typeArgs := by
  have hJoins : Segment.type.Joins (Segment.typeArgs.optional .comma) :=
    .of_empty rfl rfl fun _ h => h.1.mono (by decide)
  refine Resumes.within (S := Segment.type.andThen _ hJoins) ?_ (.mk rfl rfl ?_ fun h => ⟨h, h .comma (by decide)⟩)
  · rw [typeArgs]
    refine (typeSpec_resumes c).bind hJoins fun ⟨first, c₁, hlt₁⟩ => ?_
    cases hComma : c₁.mark? .comma with
    | none =>
      simp only [hComma]
      exact Segment.optional_absent _ hComma
    | some r =>
      obtain ⟨_, c₂, hlt₂⟩ := r
      simp only [hComma]
      exact .optional hComma rfl ((typeArgs_resumes c₂).last fun r => ⟨_, rfl, rfl, rfl⟩)
  · rintro ls rest ⟨mid, hFirst, ⟨rfl, hRest⟩ | ⟨ls', rfl, hMore⟩⟩
    · exact typeArgs_one hFirst hRest
    · exact typeArgs_more hFirst hMore
termination_by c.left * 8 + 4

end

end Cursor

end Assay
