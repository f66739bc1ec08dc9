import Assay.Text

/-! Names of files: parts between slashes, from the root if a slash comes first. -/

namespace Assay.FileName

def slash : UInt8 := 47

def isAbsolute (p : Text) : Bool := p.head? = some slash

/-- The parts so far, the last one first, and another one: a dot stays in place, and two dots take
the part before them away, or stay at the start of a name that is not absolute. -/
def addPart (rooted : Bool) (parts : List Text) (part : Text) : List Text :=
  if part.isEmpty || part = "." then parts
  else if part = ".." then
    match parts with
    | [] => if rooted then [] else [part]
    | last :: rest => if last = ".." then part :: parts else rest
  else part :: parts

/-- The shortest name for the same file. -/
def clean (p : Text) : Text :=
  let rooted := isAbsolute p
  let parts := ((Text.splitOn slash p).foldl (addPart rooted) []).reverse
  if rooted then slash :: Text.join "/" parts
  else if parts.isEmpty then "."
  else Text.join "/" parts

def base (p : Text) : Text :=
  if p.isEmpty then "."
  else
    let p := (p.reverse.dropWhile (· = slash)).reverse
    if p.isEmpty then "/"
    else match Text.cutLast? slash p with
      | some (_, last) => last
      | none => p

/-- What stands before the last slash of a name. -/
def dir (p : Text) : Text :=
  match Text.cutLast? slash p with
  | some (before, _) => clean (before ++ "/")
  | none => "."

/-- One name after another; an empty one is left out. -/
def join (p q : Text) : Text :=
  if p.isEmpty then if q.isEmpty then [] else clean q
  else if q.isEmpty then clean p
  else clean (p ++ "/" ++ q)

/-- The part of a name from the last dot of its last part on. -/
def extension (p : Text) : Text :=
  let last := match Text.cutLast? slash p with
    | some (_, last) => last
    | none => p
  match Text.cutLast? 46 last with
  | some (_, after) => 46 :: after
  | none => []

/-- The name from the root for a name that counts from the working directory. -/
def absolute (workingDir p : Text) : Text :=
  if isAbsolute p then clean p else join workingDir p

/-- The directory that a name stands for, found part by part from its end. A name loses at least a
byte with each part, so its length bounds the steps. -/
def resolveIn (workingDir : Text) : (steps : Nat) → Text → Text
  | 0, _ => workingDir
  | steps + 1, p =>
    if p = "/" then p
    else if p = "." then workingDir
    else
      let above := resolveIn workingDir steps (dir p)
      let last := base p
      if last = "." then above
      else if last = ".." then dir above
      else join above last

def resolve (workingDir p : Text) : Text := resolveIn workingDir (p.length + 2) p

/-- The name inside a directory of a file that is in it. -/
def relative (dir p : Text) : Text :=
  if p = dir then "."
  else if dir = "/" then p.drop 1
  else p.drop (dir.length + 1)

end Assay.FileName
