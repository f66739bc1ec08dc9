import Assay.Diagnostic

/-! The three layouts of a diagnostic: with the source lines and a line of carets, on one plain
line, and as a JSON object. -/

namespace Assay

/-- The layouts of diagnostics. -/
inductive Layout where
  | default
  | plain
  /-- A JSON object, with the name of the run that produced it. -/
  | json (build : Text)

namespace Layout

/-- A number after as many spaces as it lacks to the given width. -/
def padLeft (width : Nat) (n : Int) : Text :=
  let digits := Text.ofInt n
  List.replicate (width - digits.length) 32 ++ digits

/-- The number of a source line in front of it, as wide as the number `last`. -/
def lineNumber (last n : Int) : Text :=
  "  " ++ padLeft (Text.ofInt last).length n ++ ". "

/-- A byte as often as a number says; less than zero times is a fault. -/
def repeated (byte : UInt8) (n : Int) : Except Fault Text :=
  if n < 0 then .error .negativeRepeat else .ok (List.replicate n.toNat byte)

/-- How many carets stand below the first line of a position. -/
def caretCount (l : Location) (multiline : Bool) (line : Text) : Int :=
  let start := l.first.column - 1
  let wanted := l.last.column - l.first.column + 1
  let room := line.length - start
  let fitting := if multiline || start + wanted > line.length then room else wanted
  if fitting < 1 then 1 else fitting

/-- The message, the numbered source lines with carets below the first one, and the first point. -/
def withCarets (p : Position) (message : Text) : Except Fault Text :=
  match p.lines with
  | [] => .ok message
  | line :: more => do
    let l := p.location
    let width := (lineNumber l.last.line l.last.line).length
    let carets := (← repeated 32 (width + (l.first.column - 1))) ++
      (← repeated 94 (caretCount l p.isMultiline line)) ++
      (if p.isMultiline then " °°°" else "" : Text)
    let numbered (i : Nat) (line : Text) : Text :=
      "\n" ++ lineNumber l.last.line (l.first.line + i) ++ line
    let rest := (more.mapIdx fun i line => numbered (i + 1) line).flatten
    return message ++ numbered 0 line ++ "\n" ++ carets ++ rest ++
      "\non line " ++ Text.ofInt l.first.line ++ ", column " ++ Text.ofInt l.first.column

/-- Path, line and column in front of the message, unless there is no line. -/
def onOneLine (l : Location) (message : Text) : Text :=
  if l.first.line = 0 then message
  else l.path ++ ":" ++ l.first.toText ++ ": " ++ message

def asJson (build : Text) (l : Location) (message : Text) : Text :=
  let field (name value : Text) : Text := Text.jsonString name ++ ":" ++ value
  "\x7b" ++ Text.join ","
    [field "build" (Text.jsonString build), field "path" (Text.jsonString l.path),
      field "line" (Text.ofInt l.first.line), field "column" (Text.ofInt l.first.column),
      field "endLine" (Text.ofInt l.last.line), field "endColumn" (Text.ofInt l.last.column),
      field "message" (Text.jsonString message)] ++ "\x7d"

def render (layout : Layout) (d : Diagnostic) : Except Fault Text :=
  match layout with
  | .default => withCarets (d.position.getD ⟨.unknown, []⟩) d.fullMessage
  | .plain => .ok (onOneLine d.location d.fullMessage)
  | .json build => .ok (asJson build d.location d.fullMessage)

end Layout

end Assay
