import Assay.Text

/-! Runes: the code points of a UTF-8 text. A byte that does not start a valid encoding is read as
the replacement rune, one byte wide, so every text can be read to its end. -/

namespace Assay

/-- A code point. -/
abbrev Rune := Nat

namespace Rune

/-- The rune that stands for a byte that is no part of a valid encoding. -/
def replacement : Rune := 0xFFFD

/-- Whether a rune lies in one of the closed ranges, which are in increasing order. -/
def inRanges (r : Rune) : List (Nat × Nat) → Bool
  | [] => false
  | (low, high) :: rest => if r < low then false else r ≤ high || inRanges r rest

/-- The closed ranges from a rune on, given by the length of the gap before each and its own length. -/
def ranges (start : Rune) : List Nat → List (Nat × Nat)
  | gap :: length :: rest =>
    (start + gap, start + gap + length - 1) :: ranges (start + gap + length) rest
  | _ => []

/-- Whether a byte continues an encoding. -/
def isContinuation (b : UInt8) : Bool := 0x80 ≤ b && b ≤ 0xBF

/-- The rune and the width of the valid encoding that starts with `b` and goes on into `rest`. -/
def encoded? (b : UInt8) (rest : Text) : Option (Rune × Nat) :=
  if b < 0x80 then some (b.toNat, 1)
  else if b < 0xC2 then none
  else if b < 0xE0 then
    match rest with
    | c :: _ =>
      if isContinuation c then some ((b.toNat - 0xC0) * 64 + (c.toNat - 0x80), 2) else none
    | _ => none
  else if b < 0xF0 then
    match rest with
    | c :: d :: _ =>
      let low : UInt8 := if b = 0xE0 then 0xA0 else 0x80
      let high : UInt8 := if b = 0xED then 0x9F else 0xBF
      if low ≤ c && c ≤ high && isContinuation d then
        some ((b.toNat - 0xE0) * 4096 + (c.toNat - 0x80) * 64 + (d.toNat - 0x80), 3)
      else none
    | _ => none
  else if b < 0xF5 then
    match rest with
    | c :: d :: e :: _ =>
      let low : UInt8 := if b = 0xF0 then 0x90 else 0x80
      let high : UInt8 := if b = 0xF4 then 0x8F else 0xBF
      if low ≤ c && c ≤ high && isContinuation d && isContinuation e then
        some ((b.toNat - 0xF0) * 262144 + (c.toNat - 0x80) * 4096 + (d.toNat - 0x80) * 64
          + (e.toNat - 0x80), 4)
      else none
    | _ => none
  else none

/-- The first rune of a text that starts with `b`, and its width in bytes. -/
def decode (b : UInt8) (rest : Text) : Rune × Nat :=
  (encoded? b rest).getD (replacement, 1)

theorem encoded?_width {b : UInt8} {rest : Text} {r : Rune} {w : Nat}
    (h : encoded? b rest = some (r, w)) : 0 < w ∧ w ≤ rest.length + 1 := by
  unfold encoded? at h
  split at h
  · simp_all
    omega
  · split at h
    · simp at h
    · split at h
      · split at h <;> simp_all
        omega
      · split at h
        · split at h <;> simp_all
          omega
        · split at h
          · split at h <;> simp_all
            omega
          · simp at h

theorem decode_width (b : UInt8) (rest : Text) :
    0 < (decode b rest).2 ∧ (decode b rest).2 ≤ rest.length + 1 := by
  unfold decode
  cases h : encoded? b rest with
  | none => simp
  | some rw => exact encoded?_width (r := rw.1) (w := rw.2) h

def ofText : Text → List Rune
  | [] => []
  | b :: rest => (decode b rest).1 :: ofText (rest.drop ((decode b rest).2 - 1))
termination_by t => t.length
decreasing_by exact Text.length_drop_lt ..

/-- The longest start of a text whose runes all satisfy `p`, and the rest of the text. -/
def span (p : Rune → Bool) : Text → Text × Text
  | [] => ([], [])
  | b :: rest =>
    let (r, width) := decode b rest
    if p r then
      let (taken, left) := span p (rest.drop (width - 1))
      (b :: rest.take (width - 1) ++ taken, left)
    else ([], b :: rest)
termination_by t => t.length
decreasing_by exact Text.length_drop_lt ..

/-- The UTF-8 encoding of a code point. -/
def encode (r : Rune) : Text :=
  let byte (n : Nat) : UInt8 := n.toUInt8
  if r < 0x80 then [byte r]
  else if r < 0x800 then [byte (0xC0 + r / 64), byte (0x80 + r % 64)]
  else if r < 0x10000 then
    [byte (0xE0 + r / 4096), byte (0x80 + r / 64 % 64), byte (0x80 + r % 64)]
  else
    [byte (0xF0 + r / 262144), byte (0x80 + r / 4096 % 64), byte (0x80 + r / 64 % 64),
      byte (0x80 + r % 64)]

/-- Whether a number is a code point of a character: in range and not a surrogate. -/
def isScalar (r : Nat) : Bool := r < 0xD800 || (0xDFFF < r && r < 0x110000)

def isSpace (r : Rune) : Bool :=
  inRanges r [(0x9, 0xD), (0x20, 0x20), (0x85, 0x85), (0xA0, 0xA0), (0x1680, 0x1680),
    (0x2000, 0x200A), (0x2028, 0x2029), (0x202F, 0x202F), (0x205F, 0x205F), (0x3000, 0x3000)]

end Rune

namespace Text

/-- Whether a text has no rune but white space. -/
def isBlank (t : Text) : Bool := (Rune.ofText t).all Rune.isSpace

/-- The string of a text, each byte outside a valid encoding read as the replacement rune. -/
def toString (t : Text) : String := String.ofList ((Rune.ofText t).map Char.ofNat)

end Text

end Assay
