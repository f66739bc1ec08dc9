import Assay.Fault

/-! Places in source files. Offsets count bytes over all files of a set, one file after another;
lines and columns count from one, and the end of a place is its last byte. -/

namespace Assay

/-- A line and a column of a file. -/
structure Point where
  line : Int
  column : Int
deriving DecidableEq

/-- A place in a file, from its first to its last byte. -/
structure Location where
  path : Text
  first : Point
  last : Point
deriving DecidableEq

def Location.unknown : Location := ⟨[], ⟨0, 0⟩, ⟨0, 0⟩⟩

/-- The text of a point: line, dot, column. -/
def Point.toText (p : Point) : Text := Text.ofInt p.line ++ "." ++ Text.ofInt p.column

/-- The text of a place: the path and the first point, then the last point if it is another. -/
def Location.toText (l : Location) : Text :=
  if l.first = l.last then l.path ++ ":" ++ l.first.toText
  else l.path ++ ":" ++ l.first.toText ++ "-" ++ l.last.toText

/-- A place together with the text of the lines it spans. -/
structure Position where
  location : Location
  lines : List Text
deriving DecidableEq

def Position.isMultiline (p : Position) : Bool :=
  p.location.first.line != p.location.last.line

/-- A file of a set, with the offset of its first byte in the set. -/
structure File where
  path : Text
  offset : Nat
  text : Text

/-- The offsets of the line ends of a text whose first byte has the given offset. -/
def newlines (offset : Nat) : Text → List Nat
  | [] => []
  | b :: rest => if b = 10 then offset :: newlines (offset + 1) rest else newlines (offset + 1) rest

def File.newlines (f : File) : List Nat := Assay.newlines f.offset f.text

/-- The lines of a file, without their ends. -/
def File.lines (f : File) : List Text :=
  (Text.splitOn 10 f.text).map (Text.trimEnd [13])

/-- The line and the column of an offset of a file. -/
def File.point (f : File) (offset : Nat) : Point :=
  let before := f.newlines.takeWhile (· < offset)
  let lineStart : Int := match before.getLast? with
    | some newline => newline
    | none => f.offset - 1
  ⟨before.length + 1, offset - lineStart⟩

/-- A set of files, in the order they were added. -/
abbrev Files := List File

/-- A range of offsets: the first, and the one after the last. -/
structure Range where
  start : Int
  stop : Int

/-- The offset of the last byte of a range, or of its start if it is empty. -/
def Range.last (r : Range) : Int := if r.start < r.stop then r.stop - 1 else r.start

namespace Files

def size (fs : Files) : Nat :=
  match fs.getLast? with
  | some f => f.offset + f.text.length
  | none => 0

/-- The set with one more file, which starts where the others end. -/
def add (fs : Files) (path text : Text) : Files := fs ++ [⟨path, fs.size, text⟩]

/-- The file that an offset belongs to: the last one that does not start after it. -/
def fileAt? (fs : Files) (offset : Nat) : Option File :=
  (fs.takeWhile (·.offset ≤ offset)).getLast?.or fs.head?

/-- The place of a range, if it lies within the set. A range over files of different paths is a
fault. -/
def locate (fs : Files) (r : Range) : Except Fault (Option Location) :=
  if r.start < 0 || fs.size < r.stop then .ok none
  else match fs.fileAt? r.start.toNat, fs.fileAt? r.last.toNat with
    | some first, some last =>
      if first.path = last.path then
        .ok (some ⟨first.path, first.point r.start.toNat, last.point r.last.toNat⟩)
      else .error .impossible
    | _, _ => .ok none

/-- The place of a range with the lines it spans, if it lies within the set. -/
def position (fs : Files) (r : Range) : Except Fault (Option Position) := do
  match ← fs.locate r, fs.fileAt? r.start.toNat with
  | some location, some file =>
    let skipped := location.first.line.toNat - 1
    let count := (location.last.line + 1 - location.first.line).toNat
    return some ⟨location, (file.lines.drop skipped).take count⟩
  | _, _ => return none

end Files

end Assay
