import Mathlib
import Assay.Proofs.Spaced

/-! The tokens of a text and the gaps between them. No token could be longer, for no longer lexeme
stands where it starts, and the gaps are white space and comments. Where a text cannot be cut any
further, a rune starts no token or a quote is not closed. -/

namespace Assay

namespace Text

def IsDigits (t : Text) : Prop := t ≠ [] ∧ ∀ r ∈ Rune.ofText t, r.isDigit

/-- Digits, or digits with a fraction, which is a dot and digits of which the first is ASCII. -/
def IsNumber (t : Text) : Prop :=
  IsDigits t ∨ ∃ whole d more, t = whole ++ 46 :: d :: more ∧ IsDigits whole ∧
    IsDigits (d :: more) ∧ 48 ≤ d ∧ d ≤ 57

def IsLiteral (t : Text) : Prop := ∃ body, Inside body ∧ t = 34 :: (body ++ [34])

end Text

def Lexeme.Formed : Lexeme → Prop
  | .keyword k => Text.isWord k.text
  | .ident name => Text.isWord name ∧ Keyword.ofText? name = none
  | .number digits => Text.IsNumber digits
  | .quoted literal => Text.IsLiteral literal
  | .mark _ => True

/-- A text from the offset `start` on is tokens with gaps between them, each token as long as it can be,
and then the text `left`. -/
inductive Token.Cuts : Nat → Text → List Token → Text → Prop where
  | nil (start : Nat) (left : Text) : Cuts start left [] left
  | cons {start : Nat} {gap rest left : Text} {l : Lexeme} {tokens : List Token} (hGap : gap.Gap false)
    (hSome : l.text ≠ []) (hFormed : l.Formed)
    (hLongest : ∀ l' : Lexeme, l'.Formed → l'.text <+: l.text ++ rest → l'.text.length ≤ l.text.length)
    (h : Cuts (start + gap.length + l.text.length) rest tokens left) :
    Cuts start (gap ++ (l.text ++ rest))
      (⟨l, start + gap.length, start + gap.length + l.text.length⟩ :: tokens) left

namespace Rune

variable {p : Rune → Bool} {b : UInt8} {rest t : Text}

/-- Whether no range of one list meets one of the other, by one pass over both. -/
def apart : List (Nat × Nat) → List (Nat × Nat) → Bool
  | [], _ => true
  | d :: ds, ls =>
    let later := ls.dropWhile (·.2 < d.1)
    later.head?.all (d.2 < ·.1) && apart ds later

theorem apart_ranges : apart digitRanges letterRanges = true := by decide +kernel

theorem inRanges_dropWhile {r n : Nat} (hn : n ≤ r) {ls : List (Nat × Nat)} (h : inRanges r ls) :
    inRanges r (ls.dropWhile (·.2 < n)) := by
  induction ls with
  | nil => exact h
  | cons l ls ih =>
    rw [List.dropWhile_cons]
    split
    · rename_i hLess
      refine ih ?_
      simp only [inRanges, decide_eq_true_eq] at h hLess
      grind
    · exact h

theorem not_inRanges_of_apart {r : Nat} {ds ls : List (Nat × Nat)} (h : apart ds ls)
    (hds : inRanges r ds) : inRanges r ls = false := by
  by_contra hls
  rw [Bool.not_eq_false] at hls
  induction ds generalizing ls with
  | nil => cases hds
  | cons d ds ih =>
    simp only [apart, Bool.and_eq_true] at h
    simp only [inRanges] at hds
    have hLater := inRanges_dropWhile (n := d.1) (by grind) hls
    refine ih h.2 ?_ hLater
    cases hl : ls.dropWhile (·.2 < d.1) with
    | nil =>
      rw [hl] at hLater
      cases hLater
    | cons l more =>
      simp only [hl, List.head?_cons, Option.all_some, decide_eq_true_eq] at h
      simp only [hl, inRanges] at hLater
      grind
theorem isDigit_eq_false_of_startsWord {r : Rune} (h : startsWord r) : isDigit r = false := by
  by_contra hDigit
  rw [Bool.not_eq_false] at hDigit
  rw [startsWord, Bool.or_eq_true, decide_eq_true_eq] at h
  rcases h with rfl | h
  · exact absurd hDigit (by decide)
  · rw [isLetter, not_inRanges_of_apart apart_ranges hDigit] at h
    cases h

theorem decode_of_prefix (hp : p replacement = false) {r : Rune} {more : List Rune}
    (ht : ofText t = r :: more) (hr : p r) (h : t <+: b :: rest) : p (decode b rest).1 := by
  obtain ⟨s, hs⟩ := h
  cases t with
  | nil => simp [ofText] at ht
  | cons c t =>
    obtain ⟨rfl, rfl⟩ := List.cons.inj hs
    rw [ofText] at ht
    obtain ⟨rfl, -⟩ := List.cons.inj ht
    rw [show decode c (t.append s) = decode c t from decode_append hp hr s]
    exact hr

theorem length_le_span (hp : p replacement = false) (ht : ∀ r ∈ ofText t, p r) {u : Text}
    (h : t <+: u) : t.length ≤ (span p u).1.length := by
  obtain ⟨s, rfl⟩ := h
  rw [span_append hp ht, List.length_append]
  exact Nat.le_add_right _ _

end Rune

namespace Lexeme

variable {b : UInt8} {rest left : Text} {l : Lexeme}

theorem read_of_startsWord (h : Rune.startsWord (Rune.decode b rest).1) :
    read b rest = .ok (ofWord (Rune.span Rune.isWord (b :: rest)).1,
      (Rune.span Rune.isWord (b :: rest)).2) := by
  rw [read, Rune.span]
  simp [h, Rune.isWord_of_startsWord h]

theorem read_of_isDigit (h : Rune.isDigit (Rune.decode b rest).1) :
    read b rest = .ok (.number ((Rune.span Rune.isDigit (b :: rest)).1 ++
        (readFraction (Rune.span Rune.isDigit (b :: rest)).2).1),
      (readFraction (Rune.span Rune.isDigit (b :: rest)).2).2) := by
  have hStart : ¬Rune.startsWord (Rune.decode b rest).1 := fun hs => by
    rw [Rune.isDigit_eq_false_of_startsWord hs] at h
    cases h
  rw [read, Rune.span]
  simp [h, hStart]

theorem readFraction_cases (t : Text) : (readFraction t).1 = [] ∨
    ∃ d more, (readFraction t).1 = 46 :: d :: more ∧ Text.IsDigits (d :: more) ∧ 48 ≤ d ∧ d ≤ 57 := by
  by_cases h : HasFraction t
  · obtain ⟨d, rest, rfl, hLow, hHigh⟩ := h
    obtain ⟨digits, hDigits⟩ := span_of_digit rest hLow hHigh
    have hAll := Rune.span_prop Rune.isDigit_replacement (d :: rest)
    rw [hDigits] at hAll
    refine .inr ⟨d, digits, ?_, ⟨List.cons_ne_nil _ _, hAll⟩, hLow, hHigh⟩
    rw [readFraction_of_digit rest hLow hHigh, hDigits]
  · exact .inl (by rw [readFraction_of_not h])

theorem formed_ofWord {word : Text} (h : Text.isWord word) : (ofWord word).Formed := by
  have hText := text_ofWord word
  unfold ofWord at hText ⊢
  cases hk : Keyword.ofText? word with
  | none => exact ⟨h, hk⟩
  | some k =>
    rw [hk] at hText
    exact (congrArg (fun t => Text.isWord t = true) hText).mpr h

theorem read_formed (h : read b rest = .ok (l, left)) : l.Formed := by
  by_cases hStart : Rune.startsWord (Rune.decode b rest).1
  · rw [read_of_startsWord hStart] at h
    cases h
    refine formed_ofWord ?_
    have hWord := Text.isWord_of_startsWord hStart
    rw [Rune.span]
    simpa [Rune.isWord_of_startsWord hStart] using hWord
  by_cases hDigit : Rune.isDigit (Rune.decode b rest).1
  · rw [read_of_isDigit hDigit] at h
    cases h
    have hAll : Text.IsDigits (Rune.span Rune.isDigit (b :: rest)).1 := by
      refine ⟨?_, Rune.span_prop Rune.isDigit_replacement _⟩
      rw [Rune.span]
      simp [hDigit]
    rcases readFraction_cases (Rune.span Rune.isDigit (b :: rest)).2 with hNone | ⟨d, more, hMore, hDigits⟩
    · rw [hNone, List.append_nil]
      exact .inl hAll
    · rw [hMore]
      exact .inr ⟨_, d, more, rfl, hAll, hDigits⟩
  unfold read at h
  simp only [hStart, hDigit, if_false, Bool.false_eq_true] at h
  split at h
  · rename_i hQuote
    split at h
    · rename_i hRead
      cases h
      obtain ⟨body, hBody, rfl, -⟩ := readQuoted?_eq hRead
      exact ⟨body, hBody, by rw [Rune.eq_quote hQuote]⟩
    · cases h
  · split at h
    · cases h
      trivial
    · cases h

theorem decode_of_isDigits {t : Text} (ht : t.IsDigits) (h : t <+: b :: rest) :
    Rune.isDigit (Rune.decode b rest).1 := by
  cases hRunes : Rune.ofText t with
  | nil =>
    cases t with
    | nil => exact absurd rfl ht.1
    | cons c t =>
      rw [Rune.ofText] at hRunes
      cases hRunes
  | cons r more =>
    exact Rune.decode_of_prefix Rune.isDigit_replacement hRunes
      (ht.2 r (hRunes ▸ List.mem_cons_self)) h

theorem read_longest (h : read b rest = .ok (l, left)) {l' : Lexeme} (hFormed : l'.Formed)
    (hPrefix : l'.text <+: b :: rest) : l'.text.length ≤ l.text.length := by
  have hWord {word : Text} (hWord : Text.isWord word) (hPrefix : word <+: b :: rest) :
      word.length ≤ l.text.length := by
    obtain ⟨r, more, hRunes, hStart, hMore⟩ := Text.isWord_runes hWord
    rw [read_of_startsWord (Rune.decode_of_prefix (Rune.classes_of_apart (by decide)).1 hRunes hStart
      hPrefix)] at h
    cases h
    rw [text_ofWord]
    refine Rune.length_le_span Rune.isWord_replacement ?_ hPrefix
    rw [hRunes]
    exact List.forall_mem_cons.2 ⟨Rune.isWord_of_startsWord hStart, hMore⟩
  cases l' with
  | keyword k => exact hWord hFormed hPrefix
  | ident name => exact hWord hFormed.1 hPrefix
  | number digits =>
    obtain hWhole | ⟨whole, d, more, rfl, hWhole, hMore, hLow, hHigh⟩ := hFormed
    · rw [read_of_isDigit (decode_of_isDigits hWhole hPrefix)] at h
      cases h
      exact (Rune.length_le_span Rune.isDigit_replacement hWhole.2 hPrefix).trans
        (by rw [Lexeme.text, List.length_append]; exact Nat.le_add_right _ _)
    · obtain ⟨s, hs⟩ := hPrefix
      have hText : b :: rest = whole ++ 46 :: d :: (more ++ s) := by
        rw [← hs, Lexeme.text, List.append_assoc]
        rfl
      rw [read_of_isDigit (decode_of_isDigits hWhole ⟨_, hText.symm⟩), hText,
        Rune.span_append Rune.isDigit_replacement hWhole.2, Rune.span_of_stops, List.append_nil,
        readFraction_of_digit _ hLow hHigh, ← List.cons_append,
        Rune.span_append Rune.isDigit_replacement hMore.2] at h
      · cases h
        simp only [Lexeme.text, List.length_append, List.length_cons]
        omega
      · rintro c rest' hEq
        obtain ⟨rfl, rfl⟩ := List.cons.inj hEq
        rw [Rune.decode_ascii (by decide)]
        decide
  | quoted literal =>
    obtain ⟨body, hBody, rfl⟩ := hFormed
    obtain ⟨s, hs⟩ := hPrefix
    obtain ⟨rest', hText, -, hRead⟩ := quoted_readsBack (readQuoted?_inside hBody []) s
    obtain ⟨rfl, rfl⟩ := List.cons.inj (hs.symm.trans hText)
    rw [hRead] at h
    cases h
    exact le_refl _
  | mark m =>
    by_cases hm : m = .equals
    · have hText := congrArg List.length (read_readsBack h).1
      have hLeft := read_length h
      rw [List.length_cons, List.length_append] at hText
      rw [hm, show (Lexeme.mark .equals).text.length = 1 from rfl]
      omega
    · obtain ⟨s, hs⟩ := hPrefix
      obtain ⟨b', rest', hText, -, -, -, -, hRead⟩ := read_mark hm s
      obtain ⟨rfl, rfl⟩ := List.cons.inj (hs.symm.trans hText)
      rw [hRead] at h
      cases h
      exact le_refl _

end Lexeme

namespace Token

theorem Cuts.read {size : Nat} {t gap rest left left' : Text} {b : UInt8} {l : Lexeme}
    {tokens : List Token} (hSize : t.length ≤ size) (hText : t = gap ++ b :: rest)
    (hGap : gap.Gap false) (hRead : Lexeme.read b rest = .ok (l, left))
    (h : Cuts (size - left.length) left tokens left') :
    Cuts (size - t.length) t (⟨l, size - (rest.length + 1), size - left.length⟩ :: tokens) left' := by
  have hToken := (Lexeme.read_readsBack hRead).1
  have hLength := congrArg List.length hToken
  rw [hText, List.length_append] at hSize
  rw [List.length_append, List.length_cons] at hLength
  rw [List.length_cons] at hSize
  have hStart : size - (rest.length + 1) = size - (gap.length + (rest.length + 1)) + gap.length := by
    omega
  have hStop : size - left.length =
      size - (gap.length + (rest.length + 1)) + gap.length + l.text.length := by omega
  rw [hText, List.length_append, List.length_cons, hStart, hStop, hToken]
  have hSome : l.text ≠ [] := by
    have := Lexeme.read_length hRead
    exact List.ne_nil_of_length_pos (by omega)
  refine .cons hGap hSome (Lexeme.read_formed hRead) (fun l' hFormed hPrefix => ?_) (hStop ▸ h)
  exact Lexeme.read_longest hRead hFormed (hToken ▸ hPrefix)

theorem readAll_cuts {size : Nat} {t : Text} (hSize : t.length ≤ size) :
    (∃ tokens gap, readAll size t = .ok tokens ∧ Cuts (size - t.length) t tokens gap ∧ gap.Gap true) ∨
    ∃ e tokens gap rest, readAll size t = .error e ∧ Cuts (size - t.length) t tokens (gap ++ rest) ∧
      gap.Gap false ∧ e.offset + rest.length = size ∧ (rest.Unlexable ∨ rest.Unclosed) := by
  fun_induction readAll size t with
  | case1 t hBlank =>
    obtain ⟨gap, hText, hGap⟩ := Lexeme.exists_gap t
    rw [hBlank, List.append_nil] at hText
    rw [hBlank, ← hText] at hGap
    exact .inl ⟨[], t, rfl, .nil _ t, hGap⟩
  | case2 t b rest hBlank start want hRead =>
    obtain ⟨gap, hText, hGap⟩ := Lexeme.exists_gap t
    rw [hBlank] at hText hGap
    have hLength := congrArg List.length hText
    rw [List.length_append, List.length_cons] at hLength
    refine .inr ⟨_, [], gap, b :: rest, rfl, hText ▸ .nil _ t, hGap, ?_,
      Lexeme.read_error hRead ((Lexeme.skipBlanks_suffix t).2 b rest hBlank)⟩
    simp only [start, List.length_cons]
    omega
  | case3 t b rest hBlank start l left hRead hShorter ih =>
    obtain ⟨gap, hText, hGap⟩ := Lexeme.exists_gap t
    rw [hBlank] at hText hGap
    rcases ih (by omega) with ⟨tokens, last, hMore, hCuts, hLast⟩ |
      ⟨e, tokens, last, left', hMore, hCuts, hLast, hOffset, hStops⟩
    · exact .inl ⟨_, last, by rw [hMore]; rfl, .read hSize hText hGap hRead hCuts, hLast⟩
    · exact .inr ⟨e, _, last, left', by rw [hMore]; rfl, .read hSize hText hGap hRead hCuts, hLast,
        hOffset, hStops⟩

/-- A text is tokens with gaps between them, each token as long as it can be, and a last gap. Or it is
so up to an offset where a rune starts no token, or where a quote is not closed. -/
theorem lex_partitions (text : Text) :
    (∃ tokens gap, lex text = .ok tokens ∧ Cuts 0 text tokens gap ∧ gap.Gap true) ∨
    ∃ e tokens gap rest, lex text = .error e ∧ Cuts 0 text tokens (gap ++ rest) ∧ gap.Gap false ∧
      e.offset + rest.length = text.length ∧ (rest.Unlexable ∨ rest.Unclosed) := by
  have h := readAll_cuts (le_refl text.length)
  rwa [Nat.sub_self] at h

end Token

end Assay
