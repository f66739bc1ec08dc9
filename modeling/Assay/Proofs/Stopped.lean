import Mathlib
import Assay.Proofs.Derived
import Assay.Proofs.Lexed
import Assay.Proofs.Located

/-! Reading a text always ends, with a tree or with an error. An error is at a token, at the end of
the text, or where no token starts; it has a place in the file of the text, as every node has. -/

namespace Assay

variable {b : UInt8} {rest t text : Text}

namespace Text

/-- What follows an opening quote closes it: before any line end there is a quote that no backslash
takes. -/
inductive Closes : Text → Prop where
  | quote (rest : Text) : Closes (34 :: rest)
  | escape (b : UInt8) {rest : Text} (h : Closes rest) : Closes (92 :: b :: rest)
  | plain {b : UInt8} {rest : Text} (hLine : b ≠ 10) (hSlash : b ≠ 92) (h : Closes rest) :
    Closes (b :: rest)

def Unclosed (t : Text) : Prop := ∃ rest, t = 34 :: rest ∧ ¬Closes rest

def Unlexable (t : Text) : Prop :=
  ∃ b rest, t = b :: rest ∧ b ≠ 34 ∧ (∀ m : Mark, ¬m.text <+: t) ∧
    Rune.startsWord (Rune.decode b rest).1 = false ∧ Rune.isDigit (Rune.decode b rest).1 = false ∧
    Rune.isSpace (Rune.decode b rest).1 = false

theorem readQuoted?_of_closes (h : Closes t) : (Lexeme.readQuoted? t).isSome := by
  induction h with
  | quote rest => cases rest <;> simp [Lexeme.readQuoted?]
  | escape b h ih => simpa [Lexeme.readQuoted?] using ih
  | @plain b rest hLine hSlash h ih =>
    cases rest with
    | nil => cases h
    | cons c rest =>
      rw [Lexeme.readQuoted?, if_neg hLine, if_neg hSlash]
      split
      · rfl
      · simpa using ih

end Text

namespace Rune

theorem le_of_encoded? {r w : Nat} (h : encoded? b rest = some (r, w)) (hb : ¬b < 0x80) :
    0x80 ≤ r := by
  have hByte {n : UInt8} (hn : ¬b < n) : n.toNat ≤ b.toNat :=
    Nat.not_lt.1 fun hlt => hn (UInt8.lt_iff_toNat_lt.2 hlt)
  have hNe {n : UInt8} (hn : b ≠ n) : b.toNat ≠ n.toNat := fun hEq => hn (UInt8.toNat_inj.1 hEq)
  unfold encoded? at h
  rw [if_neg hb] at h
  by_cases hTwo : b < 0xC2
  · rw [if_pos hTwo] at h
    cases h
  rw [if_neg hTwo] at h
  have h₂ : 194 ≤ b.toNat := hByte hTwo
  by_cases hThree : b < 0xE0
  · rw [if_pos hThree] at h
    rcases rest with _ | ⟨c, rest⟩
    · cases h
    · simp only [Option.ite_none_right_eq_some, Option.some.injEq, Prod.mk.injEq] at h
      obtain ⟨-, rfl, -⟩ := h
      omega
  rw [if_neg hThree] at h
  have h₃ : 224 ≤ b.toNat := hByte hThree
  by_cases hFour : b < 0xF0
  · rw [if_pos hFour] at h
    rcases rest with _ | ⟨c, _ | ⟨d, rest⟩⟩
    · cases h
    · cases h
    · simp only [Option.ite_none_right_eq_some, Option.some.injEq, Prod.mk.injEq, Bool.and_eq_true,
        decide_eq_true_eq] at h
      obtain ⟨⟨⟨hLow, -⟩, -⟩, rfl, -⟩ := h
      by_cases hb : b = 0xE0
      · rw [if_pos hb] at hLow
        have : 160 ≤ c.toNat := UInt8.le_iff_toNat_le.1 hLow
        omega
      · have : b.toNat ≠ 224 := hNe hb
        omega
  rw [if_neg hFour] at h
  have h₄ : 240 ≤ b.toNat := hByte hFour
  by_cases hFive : b < 0xF5
  · rw [if_pos hFive] at h
    rcases rest with _ | ⟨c, _ | ⟨d, _ | ⟨e, rest⟩⟩⟩
    · cases h
    · cases h
    · cases h
    · simp only [Option.ite_none_right_eq_some, Option.some.injEq, Prod.mk.injEq, Bool.and_eq_true,
        decide_eq_true_eq] at h
      obtain ⟨⟨⟨⟨hLow, -⟩, -⟩, -⟩, rfl, -⟩ := h
      by_cases hb : b = 0xF0
      · rw [if_pos hb] at hLow
        have : 144 ≤ c.toNat := UInt8.le_iff_toNat_le.1 hLow
        omega
      · have : b.toNat ≠ 240 := hNe hb
        omega
  · rw [if_neg hFive] at h
    cases h

theorem eq_of_decode_ascii (h : (decode b rest).1 < 0x80) : b.toNat = (decode b rest).1 := by
  unfold decode at *
  cases he : encoded? b rest with
  | none =>
    rw [he] at h
    exact absurd h (by decide)
  | some result =>
    obtain ⟨r, w⟩ := result
    rw [he, Option.getD_some] at h
    by_cases hb : b < 0x80
    · unfold encoded? at he
      rw [if_pos hb] at he
      cases he
      rfl
    · exact absurd h (Nat.not_lt.2 (le_of_encoded? he hb))

theorem eq_quote (h : (decode b rest).1 = 34) : b = 34 := by
  have hByte := eq_of_decode_ascii (show (decode b rest).1 < 0x80 by rw [h]; decide)
  exact UInt8.toNat_inj.1 (hByte.trans h)

theorem span_suffix (p : Rune → Bool) (t : Text) : (span p t).2 <:+ t := by
  fun_induction span p t with
  | case1 => exact List.suffix_rfl
  | case2 b rest r width hdecode hp taken left hspan ih =>
    rw [hspan] at ih
    exact ih.trans ((List.drop_suffix _ _).trans (List.suffix_cons b rest))
  | case3 => exact List.suffix_rfl

end Rune

namespace Lexeme

theorem skipLine_suffix (t : Text) : skipLine t <:+ t := by
  fun_induction skipLine t with
  | case1 => exact List.suffix_rfl
  | case2 => exact List.suffix_cons _ _
  | case3 b rest h ih => exact ih.trans (List.suffix_cons _ _)

theorem skipBlanks_suffix (t : Text) : skipBlanks t <:+ t ∧
    ∀ b rest, skipBlanks t = b :: rest → Rune.isSpace (Rune.decode b rest).1 = false := by
  fun_induction skipBlanks t with
  | case1 => simp
  | case2 b rest h ih =>
    exact ⟨ih.1.trans ((skipLine_suffix rest).trans (List.suffix_cons b rest)), ih.2⟩
  | case3 b rest h r width hdecode hs ih =>
    exact ⟨ih.1.trans ((List.drop_suffix _ _).trans (List.suffix_cons b rest)), ih.2⟩
  | case4 b rest h r width hdecode hs =>
    refine ⟨List.suffix_rfl, fun b' rest' hEq => ?_⟩
    obtain ⟨rfl, rfl⟩ := List.cons.inj hEq
    rw [hdecode]
    simpa using hs

theorem readQuoted?_suffix {inside left : Text} (h : readQuoted? t = some (inside, left)) :
    left <:+ t := by
  fun_induction readQuoted? t generalizing inside left with
  | case1 => simp at h
  | case2 =>
    cases h
    exact List.suffix_cons _ _
  | case3 => simp at h
  | case4 c rest =>
    cases h
    exact List.suffix_cons _ _
  | case5 => simp at h
  | case6 c rest h1 h2 ih =>
    obtain ⟨⟨inner, rest'⟩, hq, he⟩ := Option.map_eq_some_iff.1 h
    cases he
    exact (ih hq).trans ((List.suffix_cons _ _).trans (List.suffix_cons _ _))
  | case7 b c rest h1 h2 h3 ih =>
    obtain ⟨⟨inner, rest'⟩, hq, he⟩ := Option.map_eq_some_iff.1 h
    cases he
    exact (ih hq).trans (List.suffix_cons _ _)

theorem readFraction_suffix (t : Text) : (readFraction t).2 <:+ t := by
  unfold readFraction
  split
  · split
    · exact (Rune.span_suffix _ _).trans (List.suffix_cons _ _)
    · exact List.suffix_rfl
  · exact List.suffix_rfl

theorem read_suffix {left : Text} {l : Lexeme} (h : read b rest = .ok (l, left)) :
    left <:+ rest := by
  unfold read at h
  simp only at h
  split at h
  · simp only [Except.ok.injEq, Prod.mk.injEq] at h
    rw [← h.2]
    exact (Rune.span_suffix _ _).trans (List.drop_suffix _ _)
  · split at h
    · simp only [Except.ok.injEq, Prod.mk.injEq] at h
      rw [← h.2]
      exact (readFraction_suffix _).trans ((Rune.span_suffix _ _).trans (List.drop_suffix _ _))
    · split at h
      · split at h
        · rename_i hq
          simp only [Except.ok.injEq, Prod.mk.injEq] at h
          rw [← h.2]
          exact readQuoted?_suffix hq
        · cases h
      · split at h
        · simp only [Except.ok.injEq, Prod.mk.injEq] at h
          rw [← h.2]
          exact List.drop_suffix _ _
        · cases h

theorem read_error {want : Want} (h : read b rest = .error want)
    (hSpace : Rune.isSpace (Rune.decode b rest).1 = false) :
    Text.Unlexable (b :: rest) ∨ Text.Unclosed (b :: rest) := by
  unfold read at h
  simp only at h
  split at h
  · cases h
  · split at h
    · cases h
    · split at h
      · rename_i hQuote
        split at h
        · cases h
        · rename_i hNone
          right
          refine ⟨rest, by rw [Rune.eq_quote hQuote], fun hCloses => ?_⟩
          have hSome := Text.readQuoted?_of_closes hCloses
          rw [hNone] at hSome
          cases hSome
      · rename_i hWord hDigit hQuote
        split at h
        · cases h
        · rename_i hNone
          left
          have hb : b ≠ 34 := by
            rintro rfl
            exact hQuote (by rw [Rune.decode_ascii (by decide)]; rfl)
          refine ⟨b, rest, rfl, hb, fun m hm => ?_, by simpa using hWord, by simpa using hDigit,
            hSpace⟩
          have hAll : ∀ m : Mark, m ∈ Mark.all := by
            intro m
            cases m <;> decide
          exact absurd (List.isPrefixOf_iff_prefix.2 hm) (List.find?_eq_none.1 hNone m (hAll m))

end Lexeme

theorem Token.readAll_stops {e : SyntaxError} (ht : t <:+ text)
    (h : Token.readAll text.length t = .error e) :
    Text.Unlexable (text.drop e.offset) ∨ Text.Unclosed (text.drop e.offset) := by
  fun_induction Token.readAll text.length t with
  | case1 => cases h
  | case2 t b rest hBlank start want hRead =>
    cases h
    obtain ⟨hSuffix, hSpace⟩ := Lexeme.skipBlanks_suffix t
    rw [hBlank] at hSuffix
    have hDrop : b :: rest = text.drop start := List.suffix_iff_eq_drop.1 (hSuffix.trans ht)
    rw [show text.drop _ = b :: rest from hDrop.symm]
    exact Lexeme.read_error hRead (hSpace b rest hBlank)
  | case3 t b rest hBlank start lexeme left hRead hShorter =>
    rename_i ih
    have hSuffix := (Lexeme.skipBlanks_suffix t).1
    rw [hBlank] at hSuffix
    have hLeft : left <:+ text :=
      (Lexeme.read_suffix hRead).trans ((List.suffix_cons b rest).trans (hSuffix.trans ht))
    cases hMore : Token.readAll text.length left with
    | ok tokens =>
      rw [hMore] at h
      cases h
    | error e' =>
      rw [hMore] at h
      cases h
      exact ih hLeft hMore

/-- The offsets where a text can stop being readable: the starts of its tokens, its end, and where
it cannot be lexed. -/
inductive Text.Stops (text : Text) : Nat → Prop where
  | token {tokens : List Token} {t : Token} (hLex : Token.lex text = .ok tokens) (ht : t ∈ tokens) :
    Stops text t.start
  | finish : Stops text text.length
  | unlexable {offset : Nat} (h : Unlexable (text.drop offset)) : Stops text offset
  | unclosed {offset : Nat} (h : Unclosed (text.drop offset)) : Stops text offset

theorem Text.Stops.le {offset : Nat} (h : text.Stops offset) : offset ≤ text.length := by
  have hDrop {left : Text} (hLeft : text.drop offset = left) (hNil : left ≠ []) :
      offset ≤ text.length := by
    by_contra hlt
    exact hNil (hLeft ▸ List.drop_eq_nil_of_le (by omega))
  cases h with
  | token hLex ht => exact (Token.within_of_readAll hLex _ ht).1
  | finish => exact Nat.le_refl _
  | unlexable h =>
    obtain ⟨b, rest, hText, -⟩ := h
    exact hDrop hText (List.cons_ne_nil _ _)
  | unclosed h =>
    obtain ⟨rest, hText, -⟩ := h
    exact hDrop hText (List.cons_ne_nil _ _)

theorem Root.parse_stops {space : Text} {next : Nat} {e : SyntaxError}
    (h : Root.parse space text next = .error e) : text.Stops e.offset := by
  unfold Root.parse at h
  cases hLex : Token.lex text with
  | error e' =>
    rw [hLex] at h
    cases h
    rcases Token.readAll_stops List.suffix_rfl hLex with h | h
    · exact .unlexable h
    · exact .unclosed h
  | ok tokens =>
    rw [hLex] at h
    have hRead := Cursor.root_reads space ⟨tokens, 0, text.length, next⟩
    rw [show Cursor.root space _ = _ from h] at hRead
    rcases hRead with hEnd | ⟨t, ht, hStart⟩
    · rw [show e.offset = text.length from hEnd]
      exact .finish
    · rw [hStart]
      exact .token hLex ht

namespace Reader

/-- A tree is added whose nodes have positions in the file of the given path. -/
def Accepts (p p' : Reader) (path : Text) : Prop :=
  ∃ r, p'.roots = p.roots ++ [r] ∧
    (Node.root r).All fun n => ∃ pos, n.ann.position = some pos ∧ pos.location.path = path

/-- No tree is added, and the error is where the text stops being readable, with its position. -/
def Rejects (p p' : Reader) (path text : Text) (m : Misread) : Prop :=
  p'.roots = p.roots ∧ m.path = path ∧ m.error.offset ≤ text.length ∧ text.Stops m.error.offset ∧
    ∃ pos, m.position = some pos ∧ pos.location.path = path

/-- Reading a text ends, and the text is then among the files, in which each of its ranges has a
position. Either it has a tree, which is added to the trees, or it has an error. -/
theorem read_ends (p : Reader) (hFiles : p.files.Built) (path text : Text) :
    ∃ p' failed, p.read path text = (p', failed) ∧ p'.space = p.space ∧
      p'.files = p.files.add path text ∧
      (∀ start stop, stop ≤ text.length → ∃ pos,
        p'.files.position ⟨(p.files.size + start : Nat), (p.files.size + stop : Nat)⟩ =
          .ok (some pos) ∧ pos.location.path = path) ∧
      ((failed = none ∧ p.Accepts p' path) ∨ ∃ m, failed = some m ∧ p.Rejects p' path text m) := by
  have hPositions (start stop : Nat) (hStop : stop ≤ text.length) :=
    hFiles.position_add path text start hStop
  unfold read
  cases hParse : Root.parse p.space text p.next with
  | ok result =>
    obtain ⟨root, next⟩ := result
    have hRead : Root.read p.files p.space path text p.next =
        (p.files.add path text, .ok (root.map (Extent.place (p.files.add path text) p.files.size)),
          next) := by
      simp only [Root.read, hParse]
    rw [hRead]
    exact ⟨_, _, rfl, rfl, rfl, hPositions, .inl ⟨rfl, _, rfl, Root.read_placed hFiles hRead⟩⟩
  | error e =>
    have hStops := Root.parse_stops hParse
    have hRead : Root.read p.files p.space path text p.next = (p.files.add path text,
        .error ⟨path, text, e, (p.files.add path text).positionOf (p.files.size + e.offset)
          (p.files.size + e.offset)⟩, p.next) := by
      simp only [Root.read, hParse]
    rw [hRead]
    exact ⟨_, _, rfl, rfl, rfl, hPositions, .inr ⟨_, rfl, rfl, rfl, hStops.le, hStops,
      hFiles.positionOf_add path text hStops.le⟩⟩

def afterEmpty : Reader := ⟨"n", Files.add [] "A.th" [], 1, []⟩

def unclosedClass : Text := "class A \x7b val x = \""

theorem read_unclosedClass :
    (afterEmpty.read "B.th" unclosedClass).2.map (·.error.offset) = some 18 := by
  decide +kernel

theorem read_ends_at_quote : afterEmpty.files.Built ∧
    ∃ p' m, afterEmpty.read "B.th" unclosedClass = (p', some m) ∧ m.error.offset = 18 ∧
      afterEmpty.Rejects p' "B.th" unclosedClass m := by
  have hFiles : afterEmpty.files.Built := .added "A.th" [] .empty
  have hOffset := read_unclosedClass
  obtain ⟨p', failed, hRead, -, -, -, hOutcome⟩ :=
    read_ends afterEmpty hFiles "B.th" unclosedClass
  rw [hRead] at hOffset
  rcases hOutcome with ⟨rfl, -⟩ | ⟨m, rfl, hRejects⟩
  · cases hOffset
  · exact ⟨hFiles, p', m, hRead, Option.some.inj hOffset, hRejects⟩

end Reader

end Assay
