import Assay.FileName

/-! Disks: how files are found and read. A disk works in some monad, so that a real one and one that
is kept in memory serve the same programs. -/

namespace Assay

/-- Why a file cannot be used. -/
inductive DiskFault where
  /-- There is no such file. -/
  | missing
  /-- A file stands where a directory is needed. -/
  | notDirectory
  /-- A directory stands where a file is needed. -/
  | isDirectory
  /-- Links lead to links without an end. -/
  | tooManyLinks
deriving DecidableEq

def DiskFault.message : DiskFault → Text
  | .missing => "no such file or directory"
  | .notDirectory => "not a directory"
  | .isDirectory => "is a directory"
  | .tooManyLinks => "too many levels of symbolic links"

/-- What could not be done to which file, and why. -/
structure DiskError where
  action : Text
  name : Text
  fault : DiskFault

def DiskError.message (e : DiskError) : Text := e.action ++ " " ++ e.name ++ ": " ++ e.fault.message

/-- The kinds of files. -/
inductive FileKind where
  | file
  | directory
  | link
deriving DecidableEq

/-- How files are found and read. -/
structure Disk (m : Type → Type) where
  /-- The directory that names count from. -/
  workingDir : m Text
  /-- The kind of the file that a name leads to. -/
  kind : Text → m (Except DiskFault FileKind)
  /-- The kind of the file that has a name; a link is not followed. -/
  ownKind : Text → m (Except DiskFault FileKind)
  /-- The names of the files in a directory, in the order of their bytes. -/
  entries : Text → m (List Text)
  /-- The text of the file that a name leads to. -/
  read : Text → m (Except DiskError Text)
  /-- Writes a text to the file with a name. -/
  write : Text → Text → m (Except DiskFault Unit)

/-- The error of a file that cannot be read. A directory can be opened, but not read. -/
def DiskError.ofRead (name : Text) (f : DiskFault) : DiskError :=
  ⟨if f = .isDirectory then "read" else "open", name, f⟩

end Assay
