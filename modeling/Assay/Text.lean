/-! Texts as sequences of bytes. Sources, paths, names and messages are all texts: they are cut and
compared byte by byte and need not be valid UTF-8. -/

namespace Assay

/-- A sequence of bytes. -/
abbrev Text := List UInt8

namespace Text

/-- The UTF-8 bytes of a string. -/
def ofString (s : String) : Text := s.toUTF8.data.toList

instance : Coe String Text := ⟨ofString⟩

def ofNat (n : Nat) : Text := ofString (Nat.repr n)

/-- The decimal digits of an integer, after a minus sign if it is negative. -/
def ofInt : Int → Text
  | .ofNat n => ofNat n
  | .negSucc n => "-" ++ ofNat (n + 1)

/-- The texts one after another, with `sep` between neighbours. -/
def join (sep : Text) : List Text → Text
  | [] => []
  | [t] => t
  | t :: ts => t ++ sep ++ join sep ts

def times (n : Nat) (t : Text) : Text := (List.replicate n t).flatten

/-- The parts of a text between the occurrences of the byte `sep`; there is always at least one. -/
def splitOn (sep : UInt8) : Text → List Text
  | [] => [[]]
  | b :: rest =>
    if b = sep then [] :: splitOn sep rest
    else match splitOn sep rest with
      | [] => [[b]]
      | part :: parts => (b :: part) :: parts

/-- The text before the first byte `sep` and the text after it, if there is one. -/
def cut? (sep : UInt8) (t : Text) : Option (Text × Text) :=
  match t.dropWhile (· != sep) with
  | [] => none
  | _ :: after => some (t.takeWhile (· != sep), after)

/-- The text before the last byte `sep` and the text after it, if there is one. -/
def cutLast? (sep : UInt8) (t : Text) : Option (Text × Text) :=
  (cut? sep t.reverse).map fun (after, before) => (before.reverse, after.reverse)

/-- The text without `tail`, if it ends with it. -/
def trimEnd (tail t : Text) : Text :=
  if tail.isSuffixOf t then t.take (t.length - tail.length) else t

/-- Whether one text comes before or equals another in byte order. -/
def le (s t : Text) : Bool := !decide (t < s)

/-- Distinct elements by a textual key, the first of each kept, in order. -/
def dedupBy {α : Type} (key : α → Text) (xs : List α) : List α :=
  go [] xs
where
  /-- The elements whose key is neither in `seen` nor the key of an earlier element. -/
  go (seen : List Text) : List α → List α
    | [] => []
    | x :: rest => if key x ∈ seen then go seen rest else x :: go (key x :: seen) rest

@[simp] theorem splitOn_nil (sep : UInt8) : splitOn sep [] = [[]] := rfl

theorem splitOn_ne_nil (sep : UInt8) (t : Text) : splitOn sep t ≠ [] := by
  cases t with
  | nil => simp
  | cons b rest =>
    simp only [splitOn]
    split
    · simp
    · split <;> simp

/-- What is left of the rest of a text is shorter than the text. -/
theorem length_drop_lt (b : UInt8) (rest : Text) (n : Nat) :
    (rest.drop n).length < (b :: rest).length := by
  rw [List.length_drop, List.length_cons]
  omega

end Text

end Assay
