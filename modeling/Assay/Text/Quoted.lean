import Assay.Text.Printable

/-! Texts between double quotes. `quote` writes a text so that every character can be seen,
`unquote?` reads a literal with its escapes, and `jsonString` writes a string of a JSON document. -/

namespace Assay.Text

/-- The lower-case hexadecimal digit of a number below sixteen. -/
def hexDigit (n : Nat) : UInt8 := (if n < 10 then 48 + n else 87 + n).toUInt8

/-- The last `width` hexadecimal digits of a number. -/
def hex : (width : Nat) → Nat → Text
  | 0, _ => []
  | width + 1, n => hex width (n / 16) ++ [hexDigit (n % 16)]

def hexValue? (b : UInt8) : Option Nat :=
  if 48 ≤ b && b ≤ 57 then some (b.toNat - 48)
  else if 97 ≤ b && b ≤ 102 then some (b.toNat - 87)
  else if 65 ≤ b && b ≤ 70 then some (b.toNat - 55)
  else none

def hexNumber? (t : Text) : Option Nat :=
  t.foldlM (fun n b => (hexValue? b).map (n * 16 + ·)) 0

def octalValue? (b : UInt8) : Option Nat :=
  if 48 ≤ b && b ≤ 55 then some (b.toNat - 48) else none

/-- The byte that an escape of one letter stands for, in quoted texts. -/
def letterEscape? (b : UInt8) : Option UInt8 :=
  if b = 97 then some 7
  else if b = 98 then some 8
  else if b = 102 then some 12
  else if b = 110 then some 10
  else if b = 114 then some 13
  else if b = 116 then some 9
  else if b = 118 then some 11
  else if b = 92 then some 92
  else if b = 34 then some 34
  else none

/-- The escape of one letter that stands for a rune, in quoted texts. -/
def escapeLetter? (r : Rune) : Option UInt8 :=
  if r = 7 then some 97
  else if r = 8 then some 98
  else if r = 12 then some 102
  else if r = 10 then some 110
  else if r = 13 then some 114
  else if r = 9 then some 116
  else if r = 11 then some 118
  else if r = 92 then some 92
  else if r = 34 then some 34
  else none

/-- A rune as it is written between double quotes: printable runes other than the quote and the
backslash as they are, others as an escape. -/
def quoteRune (r : Rune) : Text :=
  match escapeLetter? r with
  | some letter => [92, letter]
  | none =>
    if r.isPrintable then Rune.encode r
    else if r < 0x20 || r = 0x7F then "\\x" ++ hex 2 r
    else if r < 0x10000 then "\\u" ++ hex 4 r
    else "\\U" ++ hex 8 r

/-- The text between double quotes, a byte outside a valid encoding as an escape of two digits. -/
def quote (t : Text) : Text := [34] ++ go t ++ [34]
where
  /-- The text with its runes written as between double quotes. -/
  go : Text → Text
    | [] => []
    | b :: rest =>
      match Rune.encoded? b rest with
      | some (r, width) => quoteRune r ++ go (rest.drop (width - 1))
      | none => "\\x" ++ hex 2 b.toNat ++ go rest
  termination_by t => t.length
  decreasing_by all_goals simp; try omega

/-- The bytes an escape stands for and the text after it; `t` is what follows the backslash. -/
def readEscape? : Text → Option (Text × Text)
  | [] => none
  | b :: rest =>
    if b = 120 then (hexDigits? 2 rest).map fun (n, left) => ([n.toUInt8], left)
    else if b = 117 then scalar? 4 rest
    else if b = 85 then scalar? 8 rest
    else match octalValue? b, letterEscape? b with
      | some high, _ =>
        match rest with
        | c :: d :: left => do
          let n := high * 64 + (← octalValue? c) * 8 + (← octalValue? d)
          if n < 256 then some ([n.toUInt8], left) else none
        | _ => none
      | none, some byte => some ([byte], rest)
      | none, none => none
where
  /-- The number of `width` hexadecimal digits and the text after them. -/
  hexDigits? (width : Nat) (t : Text) : Option (Nat × Text) :=
    if t.length < width then none
    else (hexNumber? (t.take width)).map fun n => (n, t.drop width)
  /-- The encoding of the character named by `width` hexadecimal digits. -/
  scalar? (width : Nat) (t : Text) : Option (Text × Text) := do
    let (n, left) ← hexDigits? width t
    if Rune.isScalar n then some (Rune.encode n, left) else none

theorem readEscape?_length {t bytes left : Text} (h : readEscape? t = some (bytes, left)) :
    left.length < t.length := by
  unfold readEscape? at h
  split at h
  · simp at h
  · split at h
    · simp only [readEscape?.hexDigits?] at h
      split at h
      · simp at h
      · simp only [Option.map_map, Option.map_eq_some_iff] at h
        obtain ⟨_, _, rfl, rfl⟩ := h
        exact length_drop_lt ..
    · split at h
      · exact scalar_length h
      · split at h
        · exact scalar_length h
        · split at h
          · split at h
            · simp only [Option.bind_eq_bind, Option.bind_eq_some_iff] at h
              obtain ⟨_, _, _, _, h⟩ := h
              split at h
              · simp at h
                obtain ⟨_, rfl⟩ := h
                simp
                omega
              · simp at h
            · simp at h
          · simp at h
            obtain ⟨_, rfl⟩ := h
            simp
          · simp at h
where
  scalar_length {width : Nat} {t bytes left : Text} {b : UInt8}
      (h : readEscape?.scalar? width t = some (bytes, left)) : left.length < (b :: t).length := by
    simp only [readEscape?.scalar?, readEscape?.hexDigits?, Option.bind_eq_bind,
      Option.bind_eq_some_iff] at h
    obtain ⟨⟨n, rest⟩, h1, h2⟩ := h
    split at h1
    · simp at h1
    · simp only [Option.map_eq_some_iff, Prod.mk.injEq] at h1
      obtain ⟨_, _, _, rfl⟩ := h1
      split at h2
      · simp at h2
        obtain ⟨_, rfl⟩ := h2
        exact length_drop_lt ..
      · simp at h2

/-- The text that the inside of a literal between double quotes stands for, or `none` if it has an
escape that is not known or a line end. A byte outside a valid encoding becomes the replacement
rune. -/
def unescape? : Text → Option Text
  | [] => some []
  | b :: rest =>
    if b = 10 then none
    else if b = 92 then
      match h : readEscape? rest with
      | none => none
      | some (bytes, left) =>
        have := readEscape?_length h
        (unescape? left).map (bytes ++ ·)
    else
      let (r, width) := Rune.decode b rest
      (unescape? (rest.drop (width - 1))).map (Rune.encode r ++ ·)
termination_by t => t.length
decreasing_by
  · rw [List.length_cons]
    omega
  · exact length_drop_lt ..

/-- A rune as it is written in a JSON string that may stand in a web page. -/
def jsonRune (r : Rune) : Text :=
  if r = 34 then "\\\""
  else if r = 92 then "\\\\"
  else if r = 8 then "\\b"
  else if r = 12 then "\\f"
  else if r = 10 then "\\n"
  else if r = 13 then "\\r"
  else if r = 9 then "\\t"
  else if r < 0x20 || r = 60 || r = 62 || r = 38 || r = 0x2028 || r = 0x2029 then
    "\\u" ++ hex 4 r
  else Rune.encode r

def jsonString (t : Text) : Text := [34] ++ (Rune.ofText t).flatMap jsonRune ++ [34]

end Assay.Text
