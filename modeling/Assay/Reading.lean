import Assay.Diagnostic
import Assay.Tree.Parser

/-! Reading the sources of a set of files: trees whose nodes know where they stand, and reports of
where a text cannot be read. -/

namespace Assay

/-- A text that could not be read: where, and what could have stood there. -/
structure Misread where
  path : Text
  text : Text
  error : SyntaxError
  position : Option Position

namespace Misread

/-- The line of the error, and its column counted in runes. -/
def point (m : Misread) : Nat × Nat :=
  let before := Text.splitOn 10 (m.text.take m.error.offset)
  (before.length, (Rune.ofText (before.getLastD [])).length + 1)

def wanted (m : Misread) : Text := Text.join " or " (m.error.wants.map Want.text)

/-- What stands at the error: the next ten bytes, or the end of the text. -/
def got (m : Misread) : Text :=
  match m.text.drop m.error.offset with
  | [] => "EOF"
  | rest => "'" ++ rest.take 10 ++ "'"

def message (m : Misread) : Text :=
  m.path ++ ":" ++ Text.ofNat m.point.1 ++ "." ++ Text.ofNat m.point.2 ++ ": want " ++ m.wanted ++
    "; got " ++ m.got

/-- The wants of the report, as the leaves of a tree. -/
def tree (m : Misread) : Text :=
  match m.error.wants with
  | [one] => "Root[0]\x7b\"" ++ one.text ++ "\"\x7d"
  | wants =>
    "Root[0]\x7b\n" ++ wants.flatMap (fun want => ("\t\"" ++ want.text ++ "\",\n" : Text)) ++ "\x7d"

def diagnostic (m : Misread) : Diagnostic := ⟨.syntaxError, none, m.position, m.message, []⟩

end Misread

/-- The position of a range, if it has one. -/
def Files.positionOf (fs : Files) (start stop : Nat) : Option Position :=
  match fs.position ⟨start, stop⟩ with
  | .ok position => position
  | .error _ => none

/-- The number and the position of a node whose text starts at `offset` in a set of files. -/
def Extent.place (fs : Files) (offset : Nat) (e : Extent) : Meta :=
  ⟨e.id, fs.positionOf (offset + e.start) (offset + e.stop), none⟩

/-- The tree of a text that is added to a set of files, or the report of where it cannot be read;
with the set that has the text, and the number after those of the nodes. -/
def Root.read (fs : Files) (space path text : Text) (next : Nat) :
    Files × Except Misread (Root Meta) × Nat :=
  let offset := fs.size
  let fs := fs.add path text
  match Root.parse space text next with
  | .ok (root, next) => (fs, .ok (root.map (Extent.place fs offset)), next)
  | .error error =>
    let place := offset + error.offset
    (fs, .error ⟨path, text, error, fs.positionOf place place⟩, next)

/-- A reader of the sources of one namespace: the set of files that it adds to, the trees it has made,
and the number of the next node. -/
structure Reader where
  space : Text
  files : Files
  next : Nat
  roots : List (Root Meta)

/-- The reader after another text, and the report if the text cannot be read. Every text is added to
the files, and the tree of one that can be read to the trees. -/
def Reader.read (p : Reader) (path text : Text) : Reader × Option Misread :=
  match Root.read p.files p.space path text p.next with
  | (files, .ok r, next) => ({ p with files, next, roots := p.roots ++ [r] }, none)
  | (files, .error m, next) => ({ p with files, next }, some m)

end Assay
