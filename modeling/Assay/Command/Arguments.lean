import Assay.Text

/-! The arguments of the command line: a command, what it works on, and options. An option starts
with one dash and has its short name, or with two and has its full name; with an equals sign and a
value behind it is a named argument, and a flag without. -/

namespace Assay.Command

/-- A named argument of a command, and the values it can have if not all. -/
structure NamedArgument where
  name : Text
  short : Text
  choices : Option (List Text)

/-- A flag of a command. -/
structure Flag where
  name : Text
  short : Text

/-- A command with its options. -/
structure Spec where
  name : Text
  flags : List Flag
  arguments : List NamedArgument

def programName : Text := "thc"

def primaryName : Text := "project-dir"

def specs : List Spec :=
  [⟨"check", [⟨"trace", "t"⟩],
      [⟨"format", "f", some ["default", "plain", "json"]⟩, ⟨"classpath", "cp", none⟩]⟩,
    ⟨"symbols", [], []⟩, ⟨"index", [], [⟨"output", "o", none⟩]⟩]

/-- What can be wrong with arguments. -/
inductive UsageError where
  | unknownFlag (short : Bool) (name : Text)
  | unknownArgument (short : Bool) (name : Text)
  | repeatedFlag (name : Text)
  | repeatedArgument (name : Text)
  | badValue (value name : Text)
  | manyPrimaries (command : Text)
  | unknownCommand (name : Text)
  | noCommand
  | noPrimary (command : Text)
deriving DecidableEq

def marked (name : Text) : Text := [96] ++ name ++ [96]

def UsageError.message : UsageError → Text
  | .unknownFlag false name => "unknown flag: " ++ marked name
  | .unknownFlag true name => "unknown flag by short name: " ++ marked name
  | .unknownArgument false name => "unknown argument: " ++ marked name
  | .unknownArgument true name => "unknown argument by short name: " ++ marked name
  | .repeatedFlag name => "flag " ++ marked name ++ " set multiple times"
  | .repeatedArgument name => "argument " ++ marked name ++ " set multiple times"
  | .badValue value name => marked value ++ " is not a valid value for argument [" ++ name ++ "]"
  | .manyPrimaries command =>
    "multiple primary arguments specified for command " ++ marked command
  | .unknownCommand name => "unknown subcommand: " ++ marked name
  | .noCommand => marked programName ++ " requires a subcommand"
  | .noPrimary command =>
    "missing required primary argument " ++ marked command ++ " for subcommand " ++
      marked primaryName

/-- The command and its options, as far as the arguments are read. -/
structure Parsed where
  command : Option Spec
  primary : Option Text
  flags : List Text
  arguments : List (Text × Text)

def Parsed.start : Parsed := ⟨none, none, [], []⟩

namespace Parsed

def addFlag (p : Parsed) (short : Bool) (name : Text) : Except UsageError Parsed :=
  let flags := (p.command.map (·.flags)).getD []
  match flags.find? fun f => (if short then f.short else f.name) = name with
  | none => .error (.unknownFlag short name)
  | some f =>
    if p.flags.contains f.name then .error (.repeatedFlag f.name)
    else .ok { p with flags := p.flags ++ [f.name] }

def addArgument (p : Parsed) (short : Bool) (name value : Text) : Except UsageError Parsed :=
  let arguments := (p.command.map (·.arguments)).getD []
  match arguments.find? fun a => (if short then a.short else a.name) = name with
  | none => .error (.unknownArgument short name)
  | some a =>
    if (p.arguments.lookup a.name).isSome then .error (.repeatedArgument a.name)
    else if a.choices.any fun choices => !choices.contains value then .error (.badValue value a.name)
    else .ok { p with arguments := p.arguments ++ [(a.name, value)] }

def add (p : Parsed) (arg : Text) : Except UsageError Parsed :=
  if arg.head? = some 45 then
    let short := (arg.drop 1).head? ≠ some 45
    let (name, value) := (Text.cut? 61 arg).getD (arg, [])
    let name := name.dropWhile (· = 45)
    if value.isEmpty then p.addFlag short name else p.addArgument short name value
  else
    match p.command, p.primary with
    | none, _ =>
      match specs.find? (·.name = arg) with
      | none => .error (.unknownCommand arg)
      | some command => .ok { p with command }
    | some _, none => .ok { p with primary := arg }
    | some command, some _ => .error (.manyPrimaries command.name)

end Parsed

/-- What is asked for: a command, what it works on, its flags and its named arguments. -/
structure Request where
  command : Text
  dir : Text
  flags : List Text
  arguments : List (Text × Text)

def Request.argument? (r : Request) (name : Text) : Option Text := r.arguments.lookup name

/-- What the arguments ask for. They are read one after another, and what is missing is noticed at
the end. -/
def Request.ofArguments (args : List Text) : Except UsageError Request := do
  let p ← args.foldlM Parsed.add .start
  match p.command, p.primary with
  | none, _ => .error .noCommand
  | some command, none => .error (.noPrimary command.name)
  | some command, some dir => .ok ⟨command.name, dir, p.flags, p.arguments⟩

end Assay.Command
