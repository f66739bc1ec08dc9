import Assay.Command.Arguments
import Assay.Diagnostic.Layout
import Assay.Index
import Assay.Project

/-! The commands: to check a project, to show its symbols, and to write its index. -/

namespace Assay.Command

/-- What a command prints, and the number that it ends with. -/
structure Outcome where
  code : Nat
  output : Text

namespace Outcome

def done (output : Text) : Outcome := ⟨0, output⟩

def failed (printed kind message : Text) : Outcome :=
  ⟨1, printed ++ kind ++ " " ++ message ++ "\n"⟩

def stopped (printed : Text) : Outcome := ⟨2, printed⟩

end Outcome

/-- What compiling a project has led to: its state, and what is wrong with its sources. -/
structure Compiled where
  state : State
  errors : List Diagnostic

variable {m : Type → Type} [Monad m] (disk : Disk m)

/-- Loads and compiles the project that is asked for. A class path in the arguments takes the place
of that in the settings. -/
def compile (r : Request) : m (Except Outcome Compiled) := do
  match ← Project.load disk r.dir with
  | .error e => return .error (.failed [] "Project Error" e.message)
  | .ok p =>
    let workingDir ← disk.workingDir
    let p := match r.argument? "classpath" with
      | some name =>
        let classPath := FileName.absolute workingDir name
        { p with settings := { p.settings with classPath } }
      | none => p
    match ← Project.compilation disk p (r.flags.contains "trace") with
    | .error e => return .error (.failed [] "Project Error" e.message)
    | .ok s =>
      match Compilation.compileAll.run s with
      | (.ok errors, state) => return .ok ⟨state, errors⟩
      | (.error _, state) => return .error (.stopped state.traceText)

/-- The layout that is asked for. The number of a run stands in layouts for other programs. -/
def layout (r : Request) (build : Text) : Layout :=
  match r.argument? "format" with
  | some format => if format = "plain" then .plain else if format = "json" then .json build
    else .default
  | none => .default

/-- The lines of diagnostics, as far as they can be laid out. -/
def report (layout : Layout) : List Diagnostic → Text × Option Fault
  | [] => ([], none)
  | d :: rest =>
    match layout.render d with
    | .error f => ([], some f)
    | .ok text =>
      let (more, fault) := report layout rest
      (text ++ "\n" ++ more, fault)

/-- Checks a project: prints what is wrong with its sources, and how many things. -/
def check (r : Request) (build : Text) (c : Compiled) : Outcome :=
  let trace := c.state.traceText
  let (lines, fault) := report (layout r build) c.errors
  let sources := Text.ofNat c.state.units.length ++ " sources\n"
  if fault.isSome then .stopped (trace ++ lines)
  else if c.errors.isEmpty then .done (trace ++ "OK " ++ sources)
  else .failed (trace ++ lines) "Failed"
    (Text.ofNat c.errors.length ++ " errors in " ++ Text.ofNat c.state.units.length ++ " sources")

def methodLists (st : Store) : List SourceUnit → Except Fault Text
  | [] => .ok []
  | u :: rest =>
    match u.symbol? st with
    | none => methodLists st rest
    | some _ => do
      let lines := (← Shape.methodSet st u.name).map fun s => ("  " ++ s ++ "\n" : Text)
      return u.name ++ "\n" ++ lines.flatten ++ (← methodLists st rest)

/-- Shows the symbols of a project: its table, and the methods of its types. -/
def symbols (c : Compiled) : Outcome :=
  let printed := c.state.traceText ++ c.state.store.table.toText
  match methodLists c.state.store c.state.units with
  | .ok text => .done (printed ++ text)
  | .error _ => .stopped printed

def index (c : Compiled) (output : Text) : m Outcome := do
  let trace := c.state.traceText
  match Index.ofUnits c.state.units c.state.store with
  | .error (.fault _) => return .stopped trace
  | .error (.repeated name) => return .failed trace "Index Error" (Index.repeatedMessage name)
  | .ok ix =>
    match ← disk.write output ix.toText with
    | .error _ => return .failed trace "Index Error" Index.unwritableMessage
    | .ok _ =>
      return .done (trace ++ "Indexed " ++ Text.ofNat c.state.units.length ++ " sources to " ++
        output ++ "\n")

def runRequest (r : Request) (build : Text) : m Outcome := do
  match ← compile disk r with
  | .error outcome => return outcome
  | .ok c =>
    if r.command = "check" then return check r build c
    else if r.command = "symbols" then return symbols c
    else
      match r.argument? "output" with
      | some output => index disk c output
      | none => return .stopped c.state.traceText

/-- Runs the command that the arguments ask for. -/
def run (build : Text) (args : List Text) : m Outcome :=
  match Request.ofArguments args with
  | .error e => return .failed [] "Usage" e.message
  | .ok r => runRequest disk r build

end Assay.Command
