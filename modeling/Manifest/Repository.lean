import Manifest.Disk

/-! # Repositories

The root of a repository is the directory that holds an entry named `.git`, a directory or a file.
It is looked for from a path upwards, by the path's text alone. -/

namespace Manifest

/-- The name of the entry that makes a directory the root of a repository. -/
def repositoryEntry : Name := .ofText ".git"

/-- The directory below the root of a workspace that holds the program's own files. -/
def settingsDir : Name := .ofText ".appmanifest"

namespace Disk

/-- The path is the root of a repository. -/
def isRepository (d : Disk) (p : Path) : Bool := d.pathExists (p.child repositoryEntry)

/-- The nearest root of a repository, of a path and the paths above it. -/
def repositoryRoot? (d : Disk) (p : Path) : Option Path :=
  if d.isRepository p then some p
  else
    match _h : p.parent? with
    | none => none
    | some q => d.repositoryRoot? q
termination_by p.depth
decreasing_by exact Path.depth_lt_of_parent? _h

/-- The root of the repository that the working directory belongs to, or the working directory if
there is none. -/
def workspace (d : Disk) : Path := (d.repositoryRoot? d.workingDir).getD d.workingDir

end Disk

end Manifest
