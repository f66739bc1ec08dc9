import Assay.Compilation
import Assay.Disk
import Assay.Manifest
import Assay.Toml

/-! Projects: a directory with settings and sources, and their compilation. -/

namespace Assay

/-- The settings of a project. -/
structure Settings where
  name : Text
  /-- The directory of the sources, in that of the project. -/
  sources : Text
  /-- The manifest of the host class path, or nothing. -/
  classPath : Text
  trace : Bool

namespace Settings

def fileName : Text := "thorium.toml"

/-- The directory of the sources, if the settings do not say. -/
def defaultSources : Text := "src"

/-- The settings of a project that has none. -/
def default : Settings := ⟨[], defaultSources, [], false⟩

/-- The value of a setting: under its name, or under its name in capital letters. -/
def value? (d : Toml.Document) (name : String) : Option Toml.Value :=
  match d.value? name with
  | some v => some v
  | none => d.value? name.toUpper

def text? (d : Toml.Document) (name : String) : Option Text :=
  match value? d name with
  | none => some []
  | some (.text t) => some (Text.ofString (String.ofList t))
  | some _ => none

def truth? (d : Toml.Document) (name : String) : Option Bool :=
  match value? d name with
  | none => some false
  | some (.truth b) => some b
  | some _ => none

def read (t : Text) : Option Settings := do
  let d ← Toml.document? t
  let sources ← text? d "sources"
  return ⟨← text? d "name", if sources.isEmpty then defaultSources else sources,
    ← text? d "classpath", ← truth? d "trace"⟩

end Settings

/-- A source of a project: the full name of the type it declares, its namespace, its name in the
directory of the sources, and its name from the root. -/
structure SourceFile where
  name : Text
  space : Text
  path : Text
  file : Text

def SourceFile.ending : Text := ".th"

/-- The source with the given name in the directory of the sources. Directories are namespaces. -/
def SourceFile.ofPath (path file : Text) : SourceFile :=
  let name := (Text.trimEnd ending path).map fun b => if b = FileName.slash then 46 else b
  ⟨name, ((Text.cutLast? 46 name).map (·.1)).getD [], path, file⟩

/-- A project: its settings, its directory, the directory of its sources, and these in the order of
their names. -/
structure Project where
  settings : Settings
  dir : Text
  sourceDir : Text
  sources : List SourceFile

/-- Why a project cannot be loaded. -/
inductive LoadError where
  | disk (e : DiskError)
  /-- The sources are not in a directory. -/
  | notDirectory (name : Text)
  /-- The settings in a file cannot be read. -/
  | settings (name : Text)

def LoadError.message : LoadError → Text
  | .disk e => e.message
  | .notDirectory name => name ++ ": not a directory"
  | .settings name => name ++ ": bad project file"

/-- Why a project cannot be compiled. -/
inductive ProjectError where
  | disk (e : DiskError)
  /-- The manifest in a file cannot be read. -/
  | manifest (name : Text)
  | duplicate (d : DuplicateSource)

def ProjectError.message : ProjectError → Text
  | .disk e => e.message
  | .manifest name => name ++ ": " ++ Manifest.refusal
  | .duplicate d => d.message

namespace Project

variable {m : Type → Type} [Monad m] (disk : Disk m)

/-- How many directories can be one inside another: names have at most this many bytes. -/
def maxDepth : Nat := 4096

mutual

/-- The names of the sources in a directory, and in those inside it that do not start with a dot. -/
def sourcesIn : (depth : Nat) → Text → m (List Text)
  | 0, _ => return []
  | depth + 1, dir => do sourcesAmong depth dir (← disk.entries dir)

/-- The names of the sources among files of a directory. -/
def sourcesAmong (depth : Nat) (dir : Text) : List Text → m (List Text)
  | [] => return []
  | entry :: rest => do
    let name := FileName.join dir entry
    let found ← match ← disk.ownKind name with
      | .ok .directory => if entry.head? = some 46 then pure [] else sourcesIn depth name
      | _ => pure (if FileName.extension name = SourceFile.ending then [name] else [])
    return found ++ (← sourcesAmong depth dir rest)

end

/-- The sources in a directory, in the order of their names. Links are not followed. -/
def findSources (dir : Text) : m (Except LoadError (List SourceFile)) := do
  match ← disk.kind dir with
  | .error f => return .error (.disk ⟨"stat", dir, f⟩)
  | .ok .directory =>
    let names ← match ← disk.ownKind dir with
      | .ok .directory => sourcesIn disk maxDepth dir
      | _ => pure (if FileName.extension dir = SourceFile.ending then [dir] else [])
    let sources := names.map fun name => SourceFile.ofPath (FileName.relative dir name) name
    return .ok (sources.mergeSort fun a b => Text.le a.name b.name)
  | .ok _ => return .error (.notDirectory dir)

/-- The settings of the project in a directory. A project without settings has the default ones. -/
def findSettings (dir : Text) : m (Except LoadError Settings) := do
  let name := FileName.join dir Settings.fileName
  match ← disk.read name with
  | .error e => return if e.fault = .missing then .ok .default else .error (.disk e)
  | .ok text =>
    match Settings.read text with
    | some s => return .ok s
    | none => return .error (.settings name)

/-- The project in a directory. It is named after the directory if the settings do not name it. -/
def load (dir : Text) : m (Except LoadError Project) := do
  let dir := FileName.resolve (← disk.workingDir) dir
  match ← findSettings disk dir with
  | .error e => return .error e
  | .ok s =>
    let settings := if s.name.isEmpty then { s with name := FileName.base dir } else s
    let sourceDir := FileName.join dir settings.sources
    match ← findSources disk sourceDir with
    | .error e => return .error e
    | .ok sources => return .ok ⟨settings, dir, sourceDir, sources⟩

/-- The loaders of a project: the runtime library, and the host class path if there is one. -/
def loaders (p : Project) : m (Except ProjectError (List Loader)) := do
  if p.settings.classPath.isEmpty then return .ok [.library]
  else
    let name := if FileName.isAbsolute p.settings.classPath then p.settings.classPath
      else FileName.join p.dir p.settings.classPath
    match ← disk.read name with
    | .error e => return .error (if e.fault = .isDirectory then .manifest name else .disk e)
    | .ok text =>
      match Manifest.read text with
      | some manifest => return .ok [.library, manifest.loader]
      | none => return .error (.manifest name)

/-- The state with the given sources added. -/
def addSources (s : State) : List SourceFile → m (Except ProjectError State)
  | [] => return .ok s
  | source :: rest => do
    match ← disk.read source.file with
    | .error e => return .error (.disk e)
    | .ok text =>
      match s.addSource source.name source.space source.path text with
      | .error d => return .error (.duplicate d)
      | .ok s => addSources s rest

/-- The state in which the sources of a project can be compiled. It is traced if the settings or
`trace` say so. -/
def compilation (p : Project) (trace : Bool) : m (Except ProjectError State) := do
  match ← loaders disk p with
  | .error e => return .error e
  | .ok loaders => addSources disk (.start ⟨loaders, trace || p.settings.trace⟩) p.sources

end Project

end Assay
