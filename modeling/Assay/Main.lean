import Assay.Command.Outline

/-! The program: the commands on the real disk. -/

namespace Assay

/-- What went wrong with a file, as far as it matters. -/
def DiskFault.ofError : IO.Error → DiskFault
  | .inappropriateType .. => .notDirectory
  | _ => .missing

def Text.toBytes (t : Text) : ByteArray := ⟨t.toArray⟩

def Text.ofBytes (b : ByteArray) : Text := b.toList

def FileKind.ofType : IO.FS.FileType → FileKind
  | .dir => .directory
  | .symlink => .link
  | _ => .file

namespace Disk

/-- The kind of the file that a name leads to, and of the one that has the name. -/
def realKind (own : Bool) (name : Text) : IO (Except DiskFault FileKind) := do
  try
    let file := (← IO.currentDir) / name.toString
    let data ← if own then file.symlinkMetadata else file.metadata
    return .ok (.ofType data.type)
  catch e => return .error (.ofError e)

def realEntries (name : Text) : IO (List Text) := do
  try
    let found ← ((← IO.currentDir) / name.toString).readDir
    return (found.toList.map fun e => Text.ofString e.fileName).mergeSort Text.le
  catch _ => return []

def realRead (name : Text) : IO (Except DiskError Text) := do
  match ← realKind false name with
  | .error f => return .error (.ofRead name f)
  | .ok .directory => return .error (.ofRead name .isDirectory)
  | .ok _ =>
    try return .ok (.ofBytes (← IO.FS.readBinFile name.toString))
    catch e => return .error (.ofRead name (.ofError e))

def realWrite (name text : Text) : IO (Except DiskFault Unit) := do
  try
    IO.FS.writeBinFile name.toString text.toBytes
    return .ok ()
  catch e => return .error (.ofError e)

def real : Disk IO where
  workingDir := do return Text.ofString (← IO.currentDir).toString
  kind := realKind false
  ownKind := realKind true
  entries := realEntries
  read := realRead
  write := realWrite

end Disk

/-- A new number for a run, in groups of hexadecimal digits. -/
def newBuild : IO Text := do
  let mut groups : List Text := []
  for width in [8, 4, 4, 4, 12] do
    let mut digits : List Char := []
    for _ in [0:width] do
      digits := Nat.digitChar (← IO.rand 0 15) :: digits
    groups := groups ++ [Text.ofString (String.ofList digits)]
  return Text.join "-" groups

/-- Prints what a command has led to, and ends with its number. -/
def finish (o : Command.Outcome) : IO UInt32 := do
  let out ← IO.getStdout
  out.write o.output.toBytes
  out.flush
  return o.code.toUInt32

/-- Runs a command. After the word `outline` come the arguments of the command that writes sources
out. -/
def runProgram (args : List String) : IO UInt32 := do
  match args.map Text.ofString with
  | first :: rest =>
    if first = "outline" then
      let input ← match Command.OutlineRequest.ofArguments [] rest with
        | .ok ⟨_, []⟩ => Text.ofBytes <$> (← IO.getStdin).readBinToEnd
        | _ => pure []
      finish (← Command.runOutline Disk.real rest input)
    else finish (← Command.run Disk.real (← newBuild) (first :: rest))
  | [] => finish (← Command.run Disk.real (← newBuild) [])

end Assay

def main (args : List String) : IO UInt32 := Assay.runProgram args
