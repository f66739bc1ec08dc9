import Assay.Token

/-! Cutting a text into tokens. White space and comments, from two slashes to the end of the line,
separate tokens and are left out. -/

namespace Assay

namespace Rune

theorem span_length_le (p : Rune → Bool) (t : Text) : (Rune.span p t).2.length ≤ t.length := by
  fun_induction Rune.span p t with
  | case1 => simp
  | case2 b rest r width hdecode hp taken left hspan ih =>
    simp only [hspan] at ih
    simp at ih ⊢
    omega
  | case3 => simp

/-- Whether a rune can start a word. -/
def startsWord (r : Rune) : Bool := r = 95 || r.isLetter

/-- Whether a rune can stand inside a word. -/
def isWord (r : Rune) : Bool := r = 95 || r.isLetter || r.isDigit

end Rune

namespace Lexeme

/-- The text after the line that a comment ends with. -/
def skipLine : Text → Text
  | [] => []
  | b :: rest => if b = 10 then rest else skipLine rest

theorem skipLine_length_le (t : Text) : (skipLine t).length ≤ t.length := by
  fun_induction skipLine t with
  | case1 => simp
  | case2 => simp
  | case3 b rest h ih =>
    simp
    omega

/-- The text without the white space and the comments it starts with. -/
def skipBlanks : Text → Text
  | [] => []
  | b :: rest =>
    if List.isPrefixOf [47, 47] (b :: rest) then skipBlanks (skipLine rest)
    else
      let (r, width) := Rune.decode b rest
      if r.isSpace then skipBlanks (rest.drop (width - 1)) else b :: rest
termination_by t => t.length
decreasing_by
  · have := skipLine_length_le rest
    rw [List.length_cons]
    omega
  · exact Text.length_drop_lt ..

theorem skipBlanks_length_le (t : Text) : (skipBlanks t).length ≤ t.length := by
  fun_induction skipBlanks t with
  | case1 => simp
  | case2 b rest h ih =>
    have := skipLine_length_le rest
    simp
    omega
  | case3 b rest h r width hdecode hs ih =>
    simp at ih ⊢
    omega
  | case4 => simp

/-- The rest of a literal, up to and with its closing quote, and the text after it. A backslash
takes the next byte with it, and a line end closes nothing. -/
def readQuoted? : Text → Option (Text × Text)
  | [] => none
  | [b] => if b = 34 then some ([34], []) else none
  | b :: c :: rest =>
    if b = 34 then some ([34], c :: rest)
    else if b = 10 then none
    else if b = 92 then (readQuoted? rest).map fun (inside, left) => (b :: c :: inside, left)
    else (readQuoted? (c :: rest)).map fun (inside, left) => (b :: inside, left)

theorem readQuoted?_length {t inside left : Text} (h : readQuoted? t = some (inside, left)) :
    left.length < t.length := by
  fun_induction readQuoted? t generalizing inside left with
  | case1 => simp at h
  | case2 =>
    simp only [Option.some.injEq, Prod.mk.injEq] at h
    simp [← h.2]
  | case3 => simp at h
  | case4 c rest => simp_all
  | case5 => simp at h
  | case6 c rest h1 h2 ih =>
    simp only [Option.map_eq_some_iff] at h
    obtain ⟨⟨inner, rest'⟩, hq, he⟩ := h
    have := ih hq
    simp at he ⊢
    rw [← he.2]
    omega
  | case7 b c rest h1 h2 h3 ih =>
    simp only [Option.map_eq_some_iff] at h
    obtain ⟨⟨inner, rest'⟩, hq, he⟩ := h
    have := ih hq
    simp at he this ⊢
    rw [← he.2]
    omega

/-- The fraction of a number and the text after it: a dot and digits, the first of them an ASCII
digit; empty if there is none. -/
def readFraction : Text → Text × Text
  | 46 :: d :: rest =>
    if 48 ≤ d && d ≤ 57 then
      let (digits, left) := Rune.span Rune.isDigit (d :: rest)
      (46 :: digits, left)
    else ([], 46 :: d :: rest)
  | t => ([], t)

theorem readFraction_length_le (t : Text) : (readFraction t).2.length ≤ t.length := by
  unfold readFraction
  split
  · split
    · rename_i d rest h
      have := Rune.span_length_le Rune.isDigit (d :: rest)
      simp at this ⊢
      omega
    · simp
  · simp

/-- The lexeme that a text, which starts with `b`, starts with, and the text after it. -/
def read (b : UInt8) (rest : Text) : Except Want (Lexeme × Text) :=
  let (r, width) := Rune.decode b rest
  let first := b :: rest.take (width - 1)
  let after := rest.drop (width - 1)
  if r.startsWord then
    let (word, left) := Rune.span Rune.isWord after
    .ok (ofWord (first ++ word), left)
  else if r.isDigit then
    let (digits, left) := Rune.span Rune.isDigit after
    let (fraction, left) := readFraction left
    .ok (.number (first ++ digits ++ fraction), left)
  else if r = 34 then
    match readQuoted? rest with
    | some (inside, left) => .ok (.quoted (b :: inside), left)
    | none => .error .closingQuote
  else
    match Mark.all.find? (·.text.isPrefixOf (b :: rest)) with
    | some m => .ok (.mark m, rest.drop (m.text.length - 1))
    | none => .error .token

theorem read_length {b : UInt8} {rest left : Text} {l : Lexeme}
    (h : read b rest = .ok (l, left)) : left.length ≤ rest.length := by
  unfold read at h
  simp only at h
  split at h
  · simp only [Except.ok.injEq, Prod.mk.injEq] at h
    have := Rune.span_length_le Rune.isWord (rest.drop ((Rune.decode b rest).2 - 1))
    rw [← h.2]
    simp at this
    omega
  · split at h
    · simp only [Except.ok.injEq, Prod.mk.injEq] at h
      have hs := Rune.span_length_le Rune.isDigit (rest.drop ((Rune.decode b rest).2 - 1))
      have hf := readFraction_length_le
        (Rune.span Rune.isDigit (rest.drop ((Rune.decode b rest).2 - 1))).2
      rw [← h.2]
      simp at hs
      omega
    · split at h
      · split at h
        · rename_i inside left' hq
          simp only [Except.ok.injEq, Prod.mk.injEq] at h
          have := readQuoted?_length hq
          rw [← h.2]
          omega
        · simp at h
      · split at h
        · simp only [Except.ok.injEq, Prod.mk.injEq] at h
          rw [← h.2]
          simp
        · simp at h

end Lexeme

namespace Token

/-- The tokens of the end `t` of a text of `size` bytes. -/
def readAll (size : Nat) (t : Text) : Except SyntaxError (List Token) :=
  match hb : Lexeme.skipBlanks t with
  | [] => .ok []
  | b :: rest =>
    let start := size - (rest.length + 1)
    match hr : Lexeme.read b rest with
    | .error want => .error ⟨start, [want]⟩
    | .ok (lexeme, left) =>
      have hShorter : left.length < t.length := by
        have hLeft := Lexeme.read_length hr
        have hRest := Lexeme.skipBlanks_length_le t
        rw [hb] at hRest
        simp at hRest
        omega
      (readAll size left).map fun tokens => ⟨lexeme, start, size - left.length⟩ :: tokens
termination_by t.length

def lex (t : Text) : Except SyntaxError (List Token) := readAll t.length t

end Token

end Assay
