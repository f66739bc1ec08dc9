import Mathlib
import Assay.Proofs.Stopped

/-! Where a token ends depends on what comes right after it only. If a blank, or the end of the text,
is put behind a token or anywhere later, the tokens in front of it are read as before. So the texts of
the tokens with spaces between them have the same lexemes as the text they come from, and a text that
is cut off in front of a token can be continued on a new line. -/

namespace Assay

variable {inside left rest t : Text} {r : Rune} {width : Nat} {d : UInt8}

/-- A text that is empty, or starts with a space or a line end. -/
def Text.Blank (w : Text) : Prop := ∀ b ∈ w.head?, b = 32 ∨ b = 10

theorem Text.Blank.nil : Text.Blank [] := by simp [Text.Blank]

theorem Text.Blank.space (t : Text) : Text.Blank (32 :: t) := by simp [Text.Blank]

theorem Text.Blank.line (t : Text) : Text.Blank (10 :: t) := by simp [Text.Blank]

/-- What can stand between quotes: no quote and no line end but those that a backslash takes. -/
inductive Text.Inside : Text → Prop where
  | nil : Inside []
  | escape (b : UInt8) {rest : Text} (h : Inside rest) : Inside (92 :: b :: rest)
  | plain {b : UInt8} {rest : Text} (hQuote : b ≠ 34) (hLine : b ≠ 10) (hSlash : b ≠ 92)
    (h : Inside rest) : Inside (b :: rest)

namespace Rune

variable {p : Rune → Bool} {b : UInt8} {u v w : Text}

theorem width_le_of_blank (hw : w.Blank) (h : encoded? b (u ++ w) = some (r, width)) :
    width - 1 ≤ u.length := by
  by_contra hLt
  have hLe := (encoded?_width h).2
  rw [List.length_append] at hLe
  cases w with
  | nil =>
    rw [List.length_nil] at hLe
    omega
  | cons c w =>
    have hMem : c ∈ (u ++ c :: w).take (width - 1) := by
      rw [List.take_append, List.take_of_length_le (by omega)]
      refine List.mem_append_right _ ?_
      rw [show width - 1 - u.length = width - 2 - u.length + 1 by omega, List.take_succ_cons]
      exact List.mem_cons_self
    have hHigh := continuation_of_encoded? h c hMem
    rcases hw c rfl with rfl | rfl <;> exact absurd hHigh (by decide)

theorem decode_of_blank (hp : p replacement = false) (hw : w.Blank)
    (h : p (decode b (u ++ w)).1) : decode b (u ++ v) = decode b (u ++ w) := by
  have he := encoded?_of_prop hp h
  generalize decode b (u ++ w) = result at he ⊢
  obtain ⟨r, width⟩ := result
  have hSame := encoded?_append he (u.drop (width - 1) ++ v)
  rw [List.take_append_of_le_length (width_le_of_blank hw he), ← List.append_assoc,
    List.take_append_drop] at hSame
  rw [decode, hSame, Option.getD_some]

theorem span_stops (t : Text) : ∀ b rest, (span p t).2 = b :: rest → p (decode b rest).1 = false := by
  fun_induction span p t with
  | case1 => simp
  | case2 b rest r width hDecode hr taken left hSpan ih =>
    rw [hSpan] at ih
    exact ih
  | case3 b rest r width hDecode hr =>
    intro c rest' hEq
    obtain ⟨rfl, rfl⟩ := List.cons.inj hEq
    rw [hDecode]
    simpa using hr

theorem stops_of_blank (hp : p replacement = false) (hSpace : p 32 = false) (hLine : p 10 = false)
    (hw : w.Blank) (h : ∀ b rest, u ++ v = b :: rest → p (decode b rest).1 = false) :
    ∀ b rest, u ++ w = b :: rest → p (decode b rest).1 = false := by
  cases u with
  | nil =>
    rintro c w' rfl
    rcases hw c rfl with rfl | rfl <;> simpa [decode_ascii] using by assumption
  | cons c u =>
    intro b rest hEq
    obtain ⟨rfl, rfl⟩ := List.cons.inj hEq
    by_contra hRune
    rw [Bool.not_eq_false] at hRune
    have hSame : decode c (u ++ v) = decode c (u ++ w) := decode_of_blank hp hw hRune
    have hBound := h c (u ++ v) rfl
    rw [hSame, show p (decode c (u ++ w)).1 = true from hRune] at hBound
    cases hBound

theorem span_blank (hp : p replacement = false) (hSpace : p 32 = false) (hLine : p 10 = false)
    (hw : w.Blank) (h : (span p t).2 = u ++ v) :
    span p ((span p t).1 ++ (u ++ w)) = ((span p t).1, u ++ w) := by
  have hStops := stops_of_blank hp hSpace hLine hw (h ▸ span_stops t)
  rw [span_append hp (span_prop hp t), span_of_stops hStops, List.append_nil]

theorem isDigit_space : isDigit 32 = false := (classes_of_apart (by decide)).2

theorem isDigit_line : isDigit 10 = false := (classes_of_apart (by decide)).2

theorem append_span (p : Rune → Bool) (t : Text) : (span p t).1 ++ (span p t).2 = t := by
  fun_induction span p t with
  | case1 => rfl
  | case2 b rest r width hDecode hr taken left hSpan ih =>
    rw [hSpan] at ih
    simp only [List.cons_append, List.append_assoc, ih, List.take_append_drop]
  | case3 => rfl

end Rune

namespace Lexeme

variable {b : UInt8} {u v w : Text}

def HasFraction (t : Text) : Prop := ∃ d rest, t = 46 :: d :: rest ∧ 48 ≤ d ∧ d ≤ 57

theorem readFraction_of_not (h : ¬HasFraction t) : readFraction t = ([], t) := by
  unfold readFraction
  split
  · rename_i d rest
    refine if_neg fun hDigit => h ⟨d, rest, rfl, ?_⟩
    simpa using hDigit
  · rfl

theorem readFraction_of_digit (rest : Text) (hLow : 48 ≤ d) (hHigh : d ≤ 57) :
    readFraction (46 :: d :: rest) =
      (46 :: (Rune.span Rune.isDigit (d :: rest)).1, (Rune.span Rune.isDigit (d :: rest)).2) := by
  rw [readFraction, if_pos (by simp [hLow, hHigh])]

theorem isDigit_of_byte (hLow : 48 ≤ d) (hHigh : d ≤ 57) : Rune.isDigit d.toNat := by
  have := UInt8.le_iff_toNat_le.1 hLow
  have := UInt8.le_iff_toNat_le.1 hHigh
  simp only [Rune.isDigit, Rune.digitRanges, Rune.inRanges]
  grind

theorem span_of_digit (rest : Text) (hLow : 48 ≤ d) (hHigh : d ≤ 57) :
    ∃ digits, (Rune.span Rune.isDigit (d :: rest)).1 = d :: digits := by
  have hAscii : d < 0x80 := UInt8.lt_of_le_of_lt hHigh (by decide)
  rw [Rune.span]
  simp [Rune.decode_ascii hAscii, isDigit_of_byte hLow hHigh]

theorem append_readFraction (t : Text) : (readFraction t).1 ++ (readFraction t).2 = t := by
  by_cases h : HasFraction t
  · obtain ⟨d, rest, rfl, hLow, hHigh⟩ := h
    rw [readFraction_of_digit rest hLow hHigh, List.cons_append, Rune.append_span]
  · rw [readFraction_of_not h]
    rfl

theorem hasFraction_of_blank (hw : w.Blank) (h : HasFraction (u ++ w)) : HasFraction (u ++ v) := by
  obtain ⟨d, rest, hText, hLow, hHigh⟩ := h
  rcases u with _ | ⟨c, _ | ⟨d', u⟩⟩
  · rcases hw 46 (by rw [show w = _ from hText]; rfl) with h | h <;> cases h
  · have hMore : w = d :: rest := (List.cons.inj hText).2
    rcases hw d (by rw [hMore]; rfl) with rfl | rfl <;> exact absurd hLow (by decide)
  · obtain ⟨rfl, hMore⟩ := List.cons.inj hText
    obtain ⟨rfl, -⟩ := List.cons.inj hMore
    exact ⟨_, _, rfl, hLow, hHigh⟩

theorem readFraction_blank (hw : w.Blank) (h : (readFraction t).2 = u ++ v) :
    readFraction ((readFraction t).1 ++ (u ++ w)) = ((readFraction t).1, u ++ w) := by
  by_cases hFraction : HasFraction t
  · obtain ⟨d, rest, rfl, hLow, hHigh⟩ := hFraction
    rw [readFraction_of_digit rest hLow hHigh] at h ⊢
    have hSpan := Rune.span_blank Rune.isDigit_replacement Rune.isDigit_space Rune.isDigit_line
      hw h
    obtain ⟨digits, hDigits⟩ := span_of_digit rest hLow hHigh
    rw [hDigits] at hSpan ⊢
    simp only [List.cons_append] at hSpan ⊢
    rw [readFraction_of_digit _ hLow hHigh, hSpan]
  · rw [readFraction_of_not hFraction] at h ⊢
    refine readFraction_of_not fun hMore => hFraction ?_
    rw [show t = u ++ v from h]
    exact hasFraction_of_blank hw hMore

theorem readQuoted?_eq (h : readQuoted? t = some (inside, left)) :
    ∃ body, body.Inside ∧ inside = body ++ [34] ∧ t = body ++ 34 :: left := by
  fun_induction readQuoted? t generalizing inside left with
  | case1 => cases h
  | case2 =>
    cases h
    exact ⟨[], .nil, rfl, rfl⟩
  | case3 => cases h
  | case4 c rest =>
    cases h
    exact ⟨[], .nil, rfl, rfl⟩
  | case5 => cases h
  | case6 c rest h1 h2 ih =>
    obtain ⟨⟨inner, left'⟩, hMore, he⟩ := Option.map_eq_some_iff.1 h
    cases he
    obtain ⟨body, hBody, rfl, rfl⟩ := ih hMore
    exact ⟨92 :: c :: body, .escape c hBody, rfl, rfl⟩
  | case7 b c rest h1 h2 h3 ih =>
    obtain ⟨⟨inner, left'⟩, hMore, he⟩ := Option.map_eq_some_iff.1 h
    cases he
    obtain ⟨body, hBody, rfl, hText⟩ := ih hMore
    exact ⟨b :: body, .plain h1 h2 h3 hBody, rfl, by rw [hText, List.cons_append]⟩

theorem readQuoted?_inside {body : Text} (h : body.Inside) (s : Text) :
    readQuoted? (body ++ 34 :: s) = some (body ++ [34], s) := by
  induction h with
  | nil => cases s <;> rfl
  | escape b h ih =>
    rw [List.cons_append, List.cons_append, readQuoted?, if_neg (by decide), if_neg (by decide),
      if_pos rfl, ih]
    rfl
  | @plain b rest hQuote hLine hSlash h ih =>
    obtain ⟨c, more, hMore⟩ := List.exists_cons_of_ne_nil (show rest ++ 34 :: s ≠ [] by simp)
    rw [hMore] at ih
    rw [List.cons_append, hMore, readQuoted?, if_neg hQuote, if_neg hLine, if_neg hSlash, ih]
    rfl

theorem append_readQuoted? (h : readQuoted? t = some (inside, left)) : inside ++ left = t := by
  obtain ⟨body, -, rfl, rfl⟩ := readQuoted?_eq h
  rw [List.append_assoc, List.singleton_append]

theorem readQuoted?_append (h : readQuoted? t = some (inside, left)) (s : Text) :
    readQuoted? (inside ++ s) = some (inside, s) := by
  obtain ⟨body, hBody, rfl, -⟩ := readQuoted?_eq h
  rw [List.append_assoc, List.singleton_append, readQuoted?_inside hBody]

/-- Tokens start with no blank and no comment, and they are read back in front of a blank. -/
def ReadsBack (l : Lexeme) (b : UInt8) (s : Text) : Prop :=
  ∃ rest, l.text ++ s = b :: rest ∧ skipBlanks (b :: rest) = b :: rest ∧ read b rest = .ok (l, s)

theorem text_ofWord (word : Text) : (ofWord word).text = word := by
  unfold ofWord
  split
  · rename_i k hk
    have hText := List.find?_some hk
    exact of_decide_eq_true hText
  · rfl

theorem word_readsBack (hDecode : Rune.decode b rest = (r, width)) (hStart : r.startsWord)
    {word : Text} (hSpan : Rune.span Rune.isWord (rest.drop (width - 1)) = (word, u ++ v))
    (hw : w.Blank) : ReadsBack (ofWord (b :: rest.take (width - 1) ++ word)) b (u ++ w) := by
  have hBounds := @Rune.span_stops Rune.isWord (rest.drop (width - 1))
  have hWord := Text.isWord_of_startsWord (show (Rune.decode b rest).1.startsWord by rw [hDecode]; exact hStart)
  simp only [hDecode, hSpan] at hBounds hWord
  exact ⟨_, by rw [text_ofWord]; rfl, skipBlanks_word hWord _,
    read_word hWord (Rune.stops_of_blank Rune.isWord_replacement (Rune.isWord_of_apart _ (by decide))
      (Rune.isWord_of_apart _ (by decide)) hw hBounds)⟩

theorem isSpace_eq_false_of_isDigit (h : r.isDigit) : r.isSpace = false := by
  have hSpaces : ∀ r ∈ Rune.spaces, Rune.isDigit r = false := by decide +kernel
  by_contra hs
  rw [Bool.not_eq_false] at hs
  rw [hSpaces r (Rune.mem_spaces hs)] at h
  cases h

theorem number_readsBack (hDecode : Rune.decode b rest = (r, width)) (hStart : ¬r.startsWord)
    (hDigit : r.isDigit) {digits more : Text}
    (hSpan : Rune.span Rune.isDigit (rest.drop (width - 1)) = (digits, more))
    (hLeft : (readFraction more).2 = u ++ v) (hw : w.Blank) :
    ReadsBack (.number (b :: rest.take (width - 1) ++ digits ++ (readFraction more).1)) b
      (u ++ w) := by
  have he : Rune.encoded? b rest = some (r, width) := by
    rw [Rune.encoded?_of_prop Rune.isDigit_replacement (by rw [hDecode]; exact hDigit), hDecode]
  have hTake : (rest.take (width - 1)).length = width - 1 := by
    have := (Rune.encoded?_width he).2
    rw [List.length_take]
    omega
  have hMore : more = ((readFraction more).1 ++ u) ++ v := by
    rw [List.append_assoc, ← hLeft, append_readFraction]
  have hDigits := Rune.span_blank (t := rest.drop (width - 1)) Rune.isDigit_replacement
    Rune.isDigit_space Rune.isDigit_line hw (by rw [hSpan]; exact hMore)
  rw [hSpan, List.append_assoc] at hDigits
  have hAgain := Rune.encoded?_append he (digits ++ ((readFraction more).1 ++ (u ++ w)))
  have hDecode' : Rune.decode b (rest.take (width - 1) ++
      (digits ++ ((readFraction more).1 ++ (u ++ w)))) = (r, width) := by
    rw [Rune.decode, hAgain, Option.getD_some]
  refine ⟨rest.take (width - 1) ++ (digits ++ ((readFraction more).1 ++ (u ++ w))), ?_,
    skipBlanks_of_visible ?_ (by rw [hDecode']; exact isSpace_eq_false_of_isDigit hDigit), ?_⟩
  · simp only [Lexeme.text, List.cons_append, List.append_assoc]
  · rintro rfl
    rw [Rune.decode_ascii (by decide)] at hDecode
    cases hDecode
    rw [(Rune.classes_of_apart (by decide)).2] at hDigit
    cases hDigit
  · rw [read]
    simp only [hDecode', hStart, hDigit, if_true, if_false, List.drop_left' hTake,
      List.take_left' hTake, hDigits, readFraction_blank hw hLeft, Bool.false_eq_true]

theorem quoted_readsBack (h : readQuoted? rest = some (inside, left)) (s : Text) :
    ReadsBack (.quoted (34 :: inside)) 34 s := by
  have hAscii : (34 : UInt8) < 0x80 := by decide
  refine ⟨inside ++ s, rfl, skipBlanks_of_visible (by decide) ?_, ?_⟩
  · rw [Rune.decode_ascii hAscii]
    decide
  · unfold read
    simp only [Rune.decode_ascii hAscii, readQuoted?_append h]
    rw [if_neg, if_neg]
    · rfl
    · rw [(Rune.classes_of_apart (by decide)).2]
      exact Bool.false_ne_true
    · rw [(Rune.classes_of_apart (by decide)).1]
      exact Bool.false_ne_true

theorem equals_readsBack {s : Text} (hs : s.head? ≠ some 62) : ReadsBack (.mark .equals) 61 s := by
  have hArrow : Mark.arrow.text.isPrefixOf (61 :: s) = false := by
    cases s with
    | nil => rfl
    | cons c s =>
      have hc : (62 == c) = false := beq_eq_false_iff_ne.2 fun h => hs (by rw [← h]; rfl)
      change ((61 == 61) && ((62 == c) && true)) = false
      rw [hc]
      rfl
  have hFind : Mark.all.find? (·.text.isPrefixOf (61 :: s)) =
      match Mark.arrow.text.isPrefixOf (61 :: s) with
      | true => some .arrow
      | false => some .equals := rfl
  rw [hArrow] at hFind
  have hClasses := Rune.classes_of_apart (r := 61) (by decide)
  refine ⟨s, rfl, skipBlanks_of_visible (by decide) ?_,
    read_of_find (by decide) ⟨hClasses.1, hClasses.2, by decide⟩ hFind⟩
  rw [Rune.decode_ascii (by decide)]
  decide

theorem append_mark {m : Mark} (hFind : Mark.all.find? (·.text.isPrefixOf (b :: rest)) = some m) :
    m.text ++ rest.drop (m.text.length - 1) = b :: rest := by
  have hFound := List.find?_some hFind
  obtain ⟨left, hText⟩ : m.text <+: b :: rest := List.isPrefixOf_iff_prefix.1 hFound
  have hNil : m.text ≠ [] := by cases m <;> decide
  obtain ⟨c, more, hMore⟩ := List.exists_cons_of_ne_nil hNil
  rw [hMore] at hText ⊢
  obtain ⟨rfl, rfl⟩ := List.cons.inj hText
  simp

theorem mark_readsBack {m : Mark} (hFind : Mark.all.find? (·.text.isPrefixOf (b :: rest)) = some m)
    (hLeft : rest.drop (m.text.length - 1) = u ++ v) (hw : w.Blank) :
    ReadsBack (.mark m) b (u ++ w) := by
  have hText := append_mark hFind
  rw [hLeft] at hText
  by_cases hm : m = .equals
  · subst hm
    obtain ⟨rfl, rfl⟩ := List.cons.inj hText
    refine equals_readsBack fun hHead => ?_
    cases u with
    | nil => rcases hw 62 hHead with h | h <;> cases h
    | cons c u =>
      obtain rfl : c = 62 := Option.some.inj hHead
      cases hFind
  · obtain ⟨b', rest', hText', hAscii, hSlash, hSpace, -, hRead⟩ := read_mark hm (u ++ w)
    have hFirst : b' = b := by
      have hNil : m.text ≠ [] := by cases m <;> decide
      obtain ⟨c, more, hMore⟩ := List.exists_cons_of_ne_nil hNil
      rw [hMore] at hText hText'
      exact (List.cons.inj hText').1.symm.trans (List.cons.inj hText).1
    subst hFirst
    refine ⟨rest', hText', skipBlanks_of_visible hSlash ?_, hRead⟩
    rw [Rune.decode_ascii hAscii]
    exact hSpace

/-- A text starts with the lexeme that is read from it, and this is read back in front of a blank,
wherever in the rest of the text the blank is put. -/
theorem read_readsBack {l : Lexeme} (h : read b rest = .ok (l, left)) :
    b :: rest = l.text ++ left ∧
      ∀ u v w, left = u ++ v → w.Blank → ReadsBack l b (u ++ w) := by
  unfold read at h
  cases hDecode : Rune.decode b rest with
  | mk r width =>
    simp only [hDecode] at h
    split at h
    · rename_i hStart
      cases hSpan : Rune.span Rune.isWord (rest.drop (width - 1)) with
      | mk word more =>
        simp only [hSpan, Except.ok.injEq, Prod.mk.injEq] at h
        obtain ⟨rfl, rfl⟩ := h
        have hAppend := Rune.append_span Rune.isWord (rest.drop (width - 1))
        rw [hSpan] at hAppend
        refine ⟨?_, fun u v w hLeft hw => word_readsBack hDecode hStart (hLeft ▸ hSpan) hw⟩
        rw [text_ofWord, List.append_assoc, hAppend, List.cons_append, List.take_append_drop]
    · rename_i hStart
      split at h
      · rename_i hDigit
        cases hSpan : Rune.span Rune.isDigit (rest.drop (width - 1)) with
        | mk digits more =>
          simp only [hSpan, Except.ok.injEq, Prod.mk.injEq] at h
          obtain ⟨rfl, rfl⟩ := h
          have hAppend := Rune.append_span Rune.isDigit (rest.drop (width - 1))
          rw [hSpan] at hAppend
          refine ⟨?_, fun u v w hLeft hw => number_readsBack hDecode hStart hDigit hSpan hLeft hw⟩
          rw [Lexeme.text, List.append_assoc, append_readFraction, List.append_assoc, hAppend,
            List.cons_append, List.take_append_drop]
      · split at h
        · rename_i hQuote
          obtain rfl := Rune.eq_quote (show (Rune.decode b rest).1 = 34 by rw [hDecode, hQuote])
          split at h
          · rename_i hRead
            simp only [Except.ok.injEq, Prod.mk.injEq] at h
            obtain ⟨rfl, rfl⟩ := h
            refine ⟨?_, fun u v w _ _ => quoted_readsBack hRead _⟩
            rw [Lexeme.text, List.cons_append, append_readQuoted? hRead]
          · cases h
        · split at h
          · rename_i m hFind
            simp only [Except.ok.injEq, Prod.mk.injEq] at h
            obtain ⟨rfl, rfl⟩ := h
            exact ⟨(append_mark hFind).symm, fun u v w hLeft hw => mark_readsBack hFind hLeft hw⟩
          · cases h

end Lexeme

namespace Lexeme

theorem skipLine_append {line : Text} (h : 10 ∉ line) (s : Text) :
    skipLine (line ++ 10 :: s) = s := by
  induction line with
  | nil => exact if_pos rfl
  | cons b line ih =>
    rw [List.mem_cons, not_or] at h
    rw [List.cons_append, skipLine, if_neg (Ne.symm h.1), ih h.2]

theorem skipLine_cases (t : Text) :
    (∃ line, 10 ∉ line ∧ t = line ++ 10 :: skipLine t) ∨ 10 ∉ t ∧ skipLine t = [] := by
  fun_induction skipLine t with
  | case1 => exact .inr ⟨List.not_mem_nil, rfl⟩
  | case2 rest => exact .inl ⟨[], List.not_mem_nil, rfl⟩
  | case3 b rest hb ih =>
    rcases ih with ⟨line, hLine, hRest⟩ | ⟨hRest, hNil⟩
    · exact .inl ⟨b :: line, by simp [hLine, Ne.symm hb], by rw [List.cons_append, ← hRest]⟩
    · exact .inr ⟨by simp [hRest, Ne.symm hb], hNil⟩

theorem skipBlanks_line (t : Text) : skipBlanks (10 :: t) = skipBlanks t := by
  rw [skipBlanks, if_neg (by simp [List.isPrefixOf])]
  simp [Rune.decode_ascii (show (10 : UInt8) < 0x80 by decide), show Rune.isSpace 10 from by decide]

theorem skipBlanks_comment (t : Text) : skipBlanks (47 :: 47 :: t) = skipBlanks (skipLine t) := by
  rw [skipBlanks, if_pos (by simp [List.isPrefixOf]), skipLine, if_neg (by decide)]

theorem skipBlanks_rune {b : UInt8} (he : Rune.encoded? b rest = some (r, width)) (hs : r.isSpace)
    (s : Text) : skipBlanks (b :: (rest.take (width - 1) ++ s)) = skipBlanks s := by
  have hb : b ≠ 47 := by
    rintro rfl
    cases he
    exact absurd hs (by decide)
  have hTake : (rest.take (width - 1)).length = width - 1 := by
    have := (Rune.encoded?_width he).2
    rw [List.length_take]
    omega
  rw [skipBlanks, if_neg (by simp [List.isPrefixOf, Ne.symm hb]), Rune.decode,
    Rune.encoded?_append he, Option.getD_some]
  simp only [hs, if_true, List.drop_left' hTake]

end Lexeme

/-- What separates tokens: white space, and comments up to and with their line ends. At the end of a
text a comment needs no line end. -/
inductive Text.Gap (atEnd : Bool) : Text → Prop where
  | nil : Gap atEnd []
  | space {b : UInt8} {rest : Text} (hSpace : (Rune.decode b rest).1.isSpace)
    (h : Gap atEnd (rest.drop ((Rune.decode b rest).2 - 1))) : Gap atEnd (b :: rest)
  | comment {line rest : Text} (hLine : 10 ∉ line) (h : Gap atEnd rest) :
    Gap atEnd (47 :: 47 :: (line ++ 10 :: rest))
  | lastComment {line : Text} (hEnd : atEnd = true) (hLine : 10 ∉ line) : Gap atEnd (47 :: 47 :: line)

namespace Lexeme

theorem exists_gap (t : Text) : ∃ gap, t = gap ++ skipBlanks t ∧ gap.Gap (skipBlanks t).isEmpty := by
  fun_induction skipBlanks t with
  | case1 => exact ⟨[], rfl, .nil⟩
  | case2 b rest h ih =>
    obtain ⟨rest, rfl, rfl⟩ : ∃ rest', b = 47 ∧ rest = 47 :: rest' := by
      obtain ⟨left, hText⟩ := List.isPrefixOf_iff_prefix.1 h
      obtain ⟨rfl, rfl⟩ := List.cons.inj hText
      exact ⟨left, rfl, rfl⟩
    rw [skipLine, if_neg (by decide)] at ih ⊢
    obtain ⟨gap, hText, hGap⟩ := ih
    rcases skipLine_cases rest with ⟨line, hLine, hRest⟩ | ⟨hRest, hNil⟩
    · refine ⟨47 :: 47 :: (line ++ 10 :: gap), ?_, .comment hLine hGap⟩
      rw [List.cons_append, List.cons_append, List.append_assoc, List.cons_append, ← hText, ← hRest]
    · have hBlank : skipBlanks (skipLine rest) = [] := by rw [hNil, skipBlanks]
      rw [hBlank]
      exact ⟨47 :: 47 :: rest, (List.append_nil _).symm, .lastComment rfl hRest⟩
  | case3 b rest h r width hDecode hs ih =>
    have he : Rune.encoded? b rest = some (r, width) := by
      rw [Rune.encoded?_of_prop (p := Rune.isSpace) (by decide) (by rw [hDecode]; exact hs), hDecode]
    have hTake : (rest.take (width - 1)).length = width - 1 := by
      have := (Rune.encoded?_width he).2
      rw [List.length_take]
      omega
    obtain ⟨gap, hText, hGap⟩ := ih
    have hAgain : Rune.decode b (rest.take (width - 1) ++ gap) = (r, width) := by
      rw [Rune.decode, Rune.encoded?_append he, Option.getD_some]
    refine ⟨b :: (rest.take (width - 1) ++ gap), ?_, .space (by rw [hAgain]; exact hs) ?_⟩
    · rw [List.cons_append, List.append_assoc, ← hText, List.take_append_drop]
    · rwa [hAgain, List.drop_left' hTake]
  | case4 b rest h r width hDecode hs => exact ⟨[], rfl, .nil⟩

/-- Blanks in front of a text are skipped. Only a comment that has no line end goes on into the text,
and it ends with the line. -/
theorem skipBlanks_append {atEnd : Bool} {gap : Text} (h : gap.Gap atEnd) {s : Text}
    (hs : atEnd = true → s.head? = some 10) : skipBlanks (gap ++ s) = skipBlanks s := by
  induction h with
  | nil => rfl
  | @space b rest hSpace h ih =>
    have he := Rune.encoded?_of_prop (p := Rune.isSpace) (by decide) hSpace
    have hText : b :: rest ++ s = b :: (rest.take ((Rune.decode b rest).2 - 1) ++
        (rest.drop ((Rune.decode b rest).2 - 1) ++ s)) := by
      rw [← List.append_assoc, List.take_append_drop, List.cons_append]
    rw [hText]
    exact (skipBlanks_rune he hSpace _).trans ih
  | comment hLine h ih =>
    rw [List.cons_append, List.cons_append, List.append_assoc, List.cons_append, skipBlanks_comment,
      skipLine_append hLine, ih]
  | lastComment hEnd hLine =>
    obtain ⟨s, rfl⟩ : ∃ s', s = 10 :: s' := List.head?_eq_some_iff.1 (hs hEnd)
    rw [List.cons_append, List.cons_append, skipBlanks_comment, skipLine_append hLine, skipBlanks_line]

end Lexeme

namespace Text

variable {s t : Text} {ls : List Lexeme}

theorem Lexes.congr (h : Lexes t ls) (hSkip : Lexeme.skipBlanks s = Lexeme.skipBlanks t) :
    Lexes s ls := by
  intro size
  obtain ⟨tokens, hRead, hMap⟩ := h size
  exact ⟨tokens, (Token.readAll_congr hSkip).trans hRead, hMap⟩

theorem lexes_spaced {size : Nat} {tokens : List Token} (h : Token.readAll size t = .ok tokens) :
    Lexes (join " " (tokens.map (·.lexeme.text))) (tokens.map (·.lexeme)) := by
  fun_induction Token.readAll size t generalizing tokens with
  | case1 =>
    cases h
    exact .nil
  | case2 => cases h
  | case3 t b rest hBlank start lexeme left hRead hShorter =>
    rename_i ih
    cases hMore : Token.readAll size left with
    | error e =>
      rw [hMore] at h
      cases h
    | ok more =>
      rw [hMore] at h
      cases h
      have hLexes := ih hMore
      have hBack := (Lexeme.read_readsBack hRead).2 [] left
      cases more with
      | nil =>
        obtain ⟨rest', hText, hVisible, hAgain⟩ := hBack [] rfl .nil
        rw [List.append_nil, List.append_nil] at hText
        exact .cons ((congrArg Lexeme.skipBlanks hText).trans hVisible) hAgain .nil
      | cons next more =>
        obtain ⟨rest', hText, hVisible, hAgain⟩ := hBack _ rfl (.space _)
        rw [List.map_cons, List.map_cons, join, List.append_assoc]
        · exact .cons ((congrArg Lexeme.skipBlanks hText).trans hVisible) hAgain hLexes.space
        · exact List.cons_ne_nil _ _

end Text

/-- The offset of the token with the given index, which for the index behind the last token is the end
of a text of `size` bytes. -/
def Token.offsetAt (tokens : List Token) (size i : Nat) : Nat := (tokens[i]?.map (·.start)).getD size

namespace Text

variable {s t : Text} {ls : List Lexeme}

theorem lexes_cut {size : Nat} {tokens : List Token} (h : Token.readAll size t = .ok tokens)
    {i : Nat} (hi : i ≤ tokens.length) :
    ∃ u v, t = u ++ v ∧ Token.offsetAt tokens size i = size - v.length ∧
      ∀ s ls, Lexes s ls → Lexes (u ++ 10 :: s) ((tokens.take i).map (·.lexeme) ++ ls) := by
  fun_induction Token.readAll size t generalizing tokens i with
  | case1 t hBlank =>
    cases h
    obtain rfl : i = 0 := Nat.le_zero.1 hi
    obtain ⟨gap, hText, hGap⟩ := Lexeme.exists_gap t
    refine ⟨gap, [], by rw [← hBlank]; exact hText, rfl, fun s ls hs => ?_⟩
    exact hs.congr ((Lexeme.skipBlanks_append hGap fun _ => rfl).trans (Lexeme.skipBlanks_line s))
  | case2 => cases h
  | case3 t b rest hBlank start lexeme left hRead hShorter =>
    rename_i ih
    obtain ⟨gap, hText, hGap⟩ := Lexeme.exists_gap t
    rw [hBlank] at hText hGap
    cases hMore : Token.readAll size left with
    | error e =>
      rw [hMore] at h
      cases h
    | ok more =>
      rw [hMore] at h
      cases h
      cases i with
      | zero =>
        refine ⟨gap, b :: rest, hText, rfl, fun s ls hs => ?_⟩
        exact hs.congr ((Lexeme.skipBlanks_append hGap fun _ => rfl).trans (Lexeme.skipBlanks_line s))
      | succ i =>
        obtain ⟨u, v, rfl, hOffset, hLexes⟩ := ih hMore (Nat.le_of_succ_le_succ hi)
        obtain ⟨hToken, hBack⟩ := Lexeme.read_readsBack hRead
        refine ⟨gap ++ (lexeme.text ++ u), v, ?_, hOffset, fun s ls hs => ?_⟩
        · rw [List.append_assoc, List.append_assoc, ← hToken]
          exact hText
        · obtain ⟨rest', hAgain, hVisible, hRead'⟩ := hBack u v (10 :: s) rfl (.line s)
          rw [List.append_assoc, List.append_assoc]
          refine .cons ?_ hRead' (hLexes s ls hs)
          rw [Lexeme.skipBlanks_append hGap (fun h => by cases h), hAgain, hVisible]

end Text

end Assay
