import Assay.Command
import Assay.Reading
import Assay.Tree.Outline

/-! The command that writes sources out as outlines. -/

namespace Assay.Command

/-- What is asked for: the namespace of the sources, and their files. Without files there is one
source, which is the input. -/
structure OutlineRequest where
  space : Text
  files : List Text

namespace OutlineRequest

/-- What the arguments ask for. The namespace stands before the files; two dashes end the options.
What is no such option is an error, with the number that the command ends with. -/
def ofArguments (space : Text) : List Text → Except Nat OutlineRequest
  | [] => .ok ⟨space, []⟩
  | arg :: rest =>
    if arg = "--" then .ok ⟨space, rest⟩
    else if arg.head? ≠ some 45 || arg = "-" then .ok ⟨space, arg :: rest⟩
    else
      let option := if (arg.drop 1).head? = some 45 then arg.drop 2 else arg.drop 1
      match Text.cut? 61 option with
      | some (name, value) => if name = "ns" then ofArguments value rest else .error (refusal name)
      | none =>
        if option = "ns" then
          match rest with
          | value :: rest => ofArguments value rest
          | [] => .error 2
        else .error (refusal option)
where
  /-- The number that the command ends with after an unknown option. -/
  refusal (name : Text) : Nat := if name = "help" || name = "h" then 0 else 2

end OutlineRequest

variable {m : Type → Type} [Monad m] (disk : Disk m)

/-- A reader that has read another text, or what is printed if the text cannot be read. -/
def readText (p : Reader) (path text : Text) : Except Text Reader :=
  match p.read path text with
  | (p, none) => .ok p
  | (_, some e) => .error (e.tree ++ "\n" ++ e.message ++ "\n")

/-- A reader that has read several files, or what is printed about the first that cannot be read. -/
def readFiles (p : Reader) : List Text → m (Except Text Reader)
  | [] => return .ok p
  | name :: rest => do
    match ← disk.read name with
    | .error e => return .error (e.message ++ "\n")
    | .ok text =>
      match readText p name text with
      | .error printed => return .error printed
      | .ok p => readFiles p rest

/-- What is printed for a tree: the place of its declaration, and its outline. -/
def outlineText (r : Root Meta) : Text :=
  let place : Text := match r.top.ann.position with
    | some p => p.location.toText ++ "\n"
    | none => ""
  place ++ (Outline.ofRoot r).toText ++ "\n"

def runOutline (args : List Text) (input : Text) : m Outcome := do
  match OutlineRequest.ofArguments [] args with
  | .error code => return ⟨code, []⟩
  | .ok r =>
    let start : Reader := ⟨r.space, [], 1, []⟩
    let reader ← match r.files with
      | [] => pure (readText start [] input)
      | files => readFiles disk start files
    match reader with
    | .error printed => return ⟨1, printed⟩
    | .ok p => return .done (p.roots.flatMap outlineText ++ "\n")

end Assay.Command
