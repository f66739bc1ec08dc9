import Mathlib
import Assay.Proofs.Word

/-! Lexing a text from its front: a word, a mark or a space in front of a text adds its lexeme, or
nothing, to the lexemes of the text. What follows a word must not go on with it. -/

namespace Assay

variable {b : UInt8} {rest s : Text} {m : Mark}

def Text.Bounds (t : Text) : Prop :=
  ∀ b rest, t = b :: rest → Rune.isWord (Rune.decode b rest).1 = false

namespace Rune

theorem decode_ascii (h : b < 0x80) (rest : Text) : decode b rest = (b.toNat, 1) := by
  simp [decode, encoded?, h]

variable {p : Rune → Bool}

theorem decode_append (hp : p replacement = false) (h : p (decode b rest).1) (s : Text) :
    decode b (rest ++ s) = decode b rest := by
  have he := encoded?_of_prop hp h
  have hText : rest ++ s = rest.take ((decode b rest).2 - 1) ++
      (rest.drop ((decode b rest).2 - 1) ++ s) := by
    rw [← List.append_assoc, List.take_append_drop]
  rw [hText, decode, encoded?_append (r := (decode b rest).1) (w := (decode b rest).2) he,
    Option.getD_some]

theorem drop_append (rest s : Text) :
    (rest ++ s).drop ((decode b rest).2 - 1) = rest.drop ((decode b rest).2 - 1) ++ s := by
  have := decode_width b rest
  rw [List.drop_append_of_le_length (by omega)]

theorem take_append (rest s : Text) :
    (rest ++ s).take ((decode b rest).2 - 1) = rest.take ((decode b rest).2 - 1) := by
  have := decode_width b rest
  rw [List.take_append_of_le_length (by omega)]

theorem span_append (hp : p replacement = false) {t : Text} (ht : ∀ r ∈ ofText t, p r) (s : Text) :
    span p (t ++ s) = (t ++ (span p s).1, (span p s).2) := by
  fun_induction ofText t with
  | case1 => rfl
  | case2 b rest ih =>
    obtain ⟨hFirst, hRest⟩ := List.forall_mem_cons.1 ht
    rw [List.cons_append, span]
    simp only [decode_append hp hFirst, hFirst, if_true, drop_append, take_append, ih hRest]
    rw [← List.append_assoc, List.cons_append, List.take_append_drop]

theorem span_of_stops (hs : ∀ b rest, s = b :: rest → p (decode b rest).1 = false) :
    span p s = ([], s) := by
  cases s with
  | nil => rw [span]
  | cons b rest => simp [span, hs b rest rfl]

end Rune

namespace Lexeme

theorem read_word (h : Text.isWord (b :: rest)) (hs : s.Bounds) :
    read b (rest ++ s) = .ok (ofWord (b :: rest), s) := by
  obtain ⟨r, more, hr, hStart, hMore⟩ := Text.isWord_runes h
  rw [Rune.ofText] at hr
  obtain ⟨rfl, rfl⟩ := List.cons.inj hr
  have hFirst := Rune.isWord_of_startsWord hStart
  unfold read
  simp only [Rune.decode_append Rune.isWord_replacement hFirst, hStart, if_true, Rune.drop_append,
    Rune.take_append, Rune.span_append Rune.isWord_replacement hMore, Rune.span_of_stops hs]
  rw [List.append_nil, List.cons_append, List.take_append_drop]

theorem read_of_find (hb : b < 0x80)
    (hOther : Rune.startsWord b.toNat = false ∧ Rune.isDigit b.toNat = false ∧ b.toNat ≠ 34)
    (hFind : Mark.all.find? (·.text.isPrefixOf (b :: rest)) = some m) :
    read b rest = .ok (.mark m, rest.drop (m.text.length - 1)) := by
  unfold read
  simp only [Rune.decode_ascii hb, hOther, hFind, if_false, Bool.false_eq_true]

theorem read_mark (hm : m ≠ .equals) (s : Text) :
    ∃ b rest, m.text ++ s = b :: rest ∧ b < 0x80 ∧ b ≠ 47 ∧ Rune.isSpace b.toNat = false ∧
      Rune.isWord b.toNat = false ∧ read b rest = .ok (.mark m, s) := by
  cases m with
  | equals => exact absurd rfl hm
  | arrow =>
    exact ⟨61, 62 :: s, rfl, by decide, by decide, by decide, by decide +kernel,
      read_of_find (by decide) (by decide +kernel) rfl⟩
  | _ =>
    exact ⟨_, s, rfl, by decide, by decide, by decide, by decide +kernel,
      read_of_find (by decide) (by decide +kernel) rfl⟩

theorem skipBlanks_of_visible (hb : b ≠ 47) (h : Rune.isSpace (Rune.decode b rest).1 = false) :
    skipBlanks (b :: rest) = b :: rest := by
  have hSlash : List.isPrefixOf [47, 47] (b :: rest) = false := by
    simp [List.isPrefixOf, Ne.symm hb]
  rw [skipBlanks, if_neg (by simp [hSlash])]
  simp [h]

theorem skipBlanks_word (h : Text.isWord (b :: rest)) (s : Text) :
    skipBlanks (b :: (rest ++ s)) = b :: (rest ++ s) := by
  refine skipBlanks_of_visible ?_ ?_
  · rintro rfl
    exact Text.not_mem_of_isWord h (by decide) (by decide +kernel) List.mem_cons_self
  · obtain ⟨r, more, hr, hStart, -⟩ := Text.isWord_runes h
    rw [Rune.ofText] at hr
    obtain ⟨rfl, -⟩ := List.cons.inj hr
    rw [Rune.decode_append Rune.isWord_replacement (Rune.isWord_of_startsWord hStart) s]
    exact Rune.isSpace_eq_false_of_startsWord hStart

theorem skipBlanks_space (t : Text) : skipBlanks (32 :: t) = skipBlanks t := by
  rw [skipBlanks, if_neg (by simp [List.isPrefixOf])]
  simp [Rune.decode_ascii (show (32 : UInt8) < 0x80 by decide), show Rune.isSpace 32 from by decide]

end Lexeme

namespace Token

variable {size : Nat} {t left rest : Text} {b : UInt8}

theorem readAll_blank (h : Lexeme.skipBlanks t = []) : readAll size t = .ok [] := by
  rw [readAll]
  split
  · rfl
  · rename_i hb
    rw [h] at hb
    cases hb

theorem readAll_ok {l : Lexeme} (h : Lexeme.skipBlanks t = b :: rest)
    (hRead : Lexeme.read b rest = .ok (l, left)) : readAll size t =
      (readAll size left).map (⟨l, size - (rest.length + 1), size - left.length⟩ :: ·) := by
  rw [readAll]
  split
  · rename_i hb
    rw [h] at hb
    cases hb
  · rename_i hb
    obtain ⟨rfl, rfl⟩ := List.cons.inj (h.symm.trans hb)
    simp only
    split
    · rename_i hr
      rw [hRead] at hr
      cases hr
    · rename_i hr
      rw [hRead] at hr
      cases hr
      rfl

theorem readAll_error {want : Want} (h : Lexeme.skipBlanks t = b :: rest)
    (hRead : Lexeme.read b rest = .error want) :
    readAll size t = .error ⟨size - (rest.length + 1), [want]⟩ := by
  rw [readAll]
  split
  · rename_i hb
    rw [h] at hb
    cases hb
  · rename_i hb
    obtain ⟨rfl, rfl⟩ := List.cons.inj (h.symm.trans hb)
    simp only
    split
    · rename_i hr
      rw [hRead] at hr
      cases hr
      rfl
    · rename_i hr
      rw [hRead] at hr
      cases hr

theorem readAll_congr (h : Lexeme.skipBlanks s = Lexeme.skipBlanks t) :
    readAll size s = readAll size t := by
  cases ht : Lexeme.skipBlanks t with
  | nil => rw [readAll_blank ht, readAll_blank (h.trans ht)]
  | cons b rest =>
    cases hr : Lexeme.read b rest with
    | error want => rw [readAll_error ht hr, readAll_error (h.trans ht) hr]
    | ok result => rw [readAll_ok ht hr, readAll_ok (h.trans ht) hr]

end Token

def Text.Lexes (t : Text) (ls : List Lexeme) : Prop :=
  ∀ size, ∃ tokens, Token.readAll size t = .ok tokens ∧ tokens.map (·.lexeme) = ls

namespace Text

variable {s t : Text} {ls : List Lexeme}

theorem Bounds.nil : Bounds [] := by
  intro b rest h
  cases h

theorem Bounds.cons (hb : b < 0x80) (h : Rune.isWord b.toNat = false) (t : Text) :
    Bounds (b :: t) := by
  intro c rest hEq
  obtain ⟨rfl, rfl⟩ := List.cons.inj hEq
  rw [Rune.decode_ascii hb]
  exact h

theorem Bounds.mark (hm : m ≠ .equals) (t : Text) : Bounds (m.text ++ t) := by
  obtain ⟨b, rest, hText, hb, -, -, hWord, -⟩ := Lexeme.read_mark hm t
  rw [hText]
  exact .cons hb hWord rest

theorem Bounds.space (t : Text) : Bounds (32 :: t) := .cons (by decide) (by decide +kernel) t

theorem Lexes.nil : Lexes [] [] := by
  intro size
  exact ⟨[], Token.readAll_blank (by rw [Lexeme.skipBlanks]), rfl⟩

theorem Lexes.space (h : Lexes t ls) : Lexes (32 :: t) ls := by
  intro size
  obtain ⟨tokens, hRead, hMap⟩ := h size
  exact ⟨tokens, (Token.readAll_congr (Lexeme.skipBlanks_space t)).trans hRead, hMap⟩

theorem Lexes.cons {l : Lexeme} (hBlank : Lexeme.skipBlanks s = b :: rest)
    (hRead : Lexeme.read b rest = .ok (l, t)) (h : Lexes t ls) : Lexes s (l :: ls) := by
  intro size
  obtain ⟨tokens, hTokens, rfl⟩ := h size
  rw [Token.readAll_ok hBlank hRead, hTokens]
  exact ⟨_, rfl, rfl⟩

theorem Lexes.mark (hm : m ≠ .equals) (h : Lexes t ls) : Lexes (m.text ++ t) (.mark m :: ls) := by
  obtain ⟨b, rest, hText, hb, hSlash, hSpace, -, hRead⟩ := Lexeme.read_mark hm t
  refine h.cons ?_ hRead
  rw [hText]
  exact Lexeme.skipBlanks_of_visible hSlash (by rw [Rune.decode_ascii hb]; exact hSpace)

theorem Lexes.word (hs : isWord s) (ht : t.Bounds) (h : Lexes t ls) :
    Lexes (s ++ t) (.ofWord s :: ls) := by
  cases s with
  | nil => exact absurd rfl (ne_nil_of_isWord hs)
  | cons b rest => exact h.cons (Lexeme.skipBlanks_word hs t) (Lexeme.read_word hs ht)

end Text

end Assay
