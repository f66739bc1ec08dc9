import Assay.Disk

/-! A disk that is kept in memory. -/

namespace Assay.Disk

/-- What a name stands for. -/
inductive Entry where
  | file (text : Text)
  | directory
  | link (target : Text)

def Entry.kind : Entry → FileKind
  | .file _ => .file
  | .directory => .directory
  | .link _ => .link

/-- The working directory, and what there is, by the parts of its name from the root. A directory is
there as soon as something is in it. -/
structure Memory where
  workingDir : Text
  entries : List (List Text × Entry)

namespace Memory

def parts (name : Text) : List Text := Text.splitOn FileName.slash name

/-- The parts of the name of an entry, without those that do not count. -/
def entryParts (name : Text) : List Text := (parts (FileName.clean name)).filter (!·.isEmpty)

def empty (workingDir : Text) : Memory := ⟨workingDir, [(entryParts workingDir, .directory)]⟩

def add (d : Memory) (name : Text) (e : Entry) : Memory :=
  { d with entries := d.entries ++ [(entryParts (FileName.absolute d.workingDir name), e)] }

def entry? (d : Memory) (ps : List Text) : Option Entry :=
  match d.entries.find? (·.1 = ps) with
  | some (_, e) => some e
  | none => if d.entries.any fun (qs, _) => ps.isPrefixOf qs then some .directory else none

/-- Follows a name part by part and gives the parts that it leads to, and what is there. At most
`links` links are followed, and the last one only if `last` holds. -/
def follow (d : Memory) (last : Bool) (links : Nat) (done : List Text) (todo : List Text) :
    Except DiskFault (List Text × Entry) :=
  match todo with
  | [] => .ok (done, (d.entry? done).getD .directory)
  | part :: rest =>
    if part.isEmpty || part = "." then follow d last links done rest
    else if part = ".." then follow d last links done.dropLast rest
    else
      let next := done ++ [part]
      match d.entry? next with
      | none => .error .missing
      | some .directory => follow d last links next rest
      | some (.file text) => if rest.isEmpty then .ok (next, .file text) else .error .notDirectory
      | some (.link target) =>
        if rest.isEmpty && !last then .ok (next, .link target)
        else match links with
          | 0 => .error .tooManyLinks
          | links + 1 =>
            follow d last links (if FileName.isAbsolute target then [] else done)
              (parts target ++ rest)
termination_by (links, todo.length)

def find (d : Memory) (last : Bool) (name : Text) : Except DiskFault (List Text × Entry) :=
  if name.isEmpty then .error .missing
  else
    let start := if FileName.isAbsolute name then [] else entryParts d.workingDir
    d.follow last 40 start (parts name)

def entryNames (d : Memory) (name : Text) : List Text :=
  match d.find true name with
  | .error _ => []
  | .ok (ps, _) =>
    let inside := d.entries.filterMap fun (qs, _) =>
      if ps.isPrefixOf qs then qs[ps.length]? else none
    (Text.dedupBy id inside).mergeSort Text.le

def readText (d : Memory) (name : Text) : Except DiskError Text :=
  match d.find true name with
  | .ok (_, .file text) => .ok text
  | .ok _ => .error (.ofRead name .isDirectory)
  | .error f => .error (.ofRead name f)

/-- Whether a text can be written to the file with a name. -/
def canWrite (d : Memory) (name : Text) : Except DiskFault Unit :=
  match d.find true name with
  | .ok (_, .directory) => .error .isDirectory
  | .ok _ => .ok ()
  | .error .missing =>
    match d.find true (FileName.dir name) with
    | .ok (_, .directory) => .ok ()
    | .ok _ => .error .notDirectory
    | .error f => .error f
  | .error f => .error f

/-- The disk as others see it. What is written to it is not kept. -/
def disk (d : Memory) : Disk Id where
  workingDir := d.workingDir
  kind name := (d.find true name).map fun (_, e) => e.kind
  ownKind name := (d.find false name).map fun (_, e) => e.kind
  entries := d.entryNames
  read := d.readText
  write name _ := d.canWrite name

end Memory

end Assay.Disk
