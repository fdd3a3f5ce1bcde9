import Manifest.Disk.Error
import Manifest.FileTree

/-! # Disks

A file tree together with the directory that the program works in, and the operations of the
operating system on it. A path is followed part by part: every part but the last must lead to a
directory, `..` leads to the directory above, and links are followed, `linkLimit` of them at most.

Operations that change something give the changed disk. No directory of a disk ever has two things of
one name. -/

namespace Manifest

/-- A file tree and the working directory in it, which is given as a place. -/
structure Disk where
  tree : FileTree
  here : List Name
  distinct : tree.isDistinct = true := by decide

namespace Disk

/-! ### Following paths -/

/-- How many links are followed on one path. -/
def linkLimit : Nat := 40

/-- The number of bytes that a path must stay below. -/
def pathLimit : Nat := 4096

/-- Where a path ends: at something that is there, or at a free name in a directory. -/
structure Spot where
  place : List Name
  found? : Option FileTree

/-- The place in which the parts of a path are followed. -/
def origin (here : List Name) (p : Path) : List Name := if p.isAbsolute then [] else here

/-- The system can be told of the path: it is short enough. -/
def fits (p : Path) : Bool := p.bytes.length < pathLimit

/-- How a path is followed. -/
structure Manner where
  /-- A link that the last part names is followed, too. -/
  through : Bool
  /-- The absolute path of all that is come to must fit. -/
  spelled : Bool

/-- What stands at a place can be come to. -/
def Manner.allows (m : Manner) (place : List Name) : Bool := !m.spelled || fits (.ofNames place)

/-- Where a part leads from a directory. -/
inductive Step
  | stay
  | above
  | into (name : Name)

/-- Where a part leads, or why it can lead nowhere. -/
def stepOf (part : Part) : Except Error Step :=
  if part.isIdle then .ok .stay
  else if part = .up then .ok .above
  else if Part.nameLimit < part.bytes.length then .error .nameTooLong
  else
    match Name.ofPart? part with
    | some name => .ok (.into name)
    | none => .error .notFound

/-- Follows parts from a place. Only a last part may be missing. -/
def follow (tree : FileTree) (m : Manner) (links : Nat) (place : List Name) (todo : List Part) :
    Except Error Spot :=
  match todo with
  | [] => .ok ⟨place, tree.at? place⟩
  | part :: rest =>
    match tree.at? place with
    | none => .error .notFound
    | some (.file _) | some (.link _) => .error .notDirectory
    | some (.dir children) =>
      match stepOf part with
      | .error e => .error e
      | .ok .stay => follow tree m links place rest
      | .ok .above => follow tree m links place.dropLast rest
      | .ok (.into name) =>
        if !m.allows (place ++ [name]) then .error .nameTooLong
        else
          match FileTree.child? children name with
          | none => if rest.isEmpty then .ok ⟨place ++ [name], none⟩ else .error .notFound
          | some (.link target) =>
            if rest.isEmpty ∧ !m.through then .ok ⟨place ++ [name], some (.link target)⟩
            else
              match links with
              | 0 => .error .tooManyLinks
              | links + 1 => follow tree m links (origin place target) (target.parts ++ rest)
          | some _ => follow tree m links (place ++ [name]) rest
termination_by (links, todo.length)

/-- Follows a path. One that is spelled out may be long itself. -/
def resolve (d : Disk) (p : Path) (m : Manner) : Except Error Spot :=
  if p.bytes.contains 0 then .error .nulInPath
  else if p = .empty then .error .notFound
  else if !m.spelled && !fits p then .error .nameTooLong
  else follow d.tree m linkLimit (origin d.here p) p.parts

/-- What following a path has come to, with its place. -/
def spotted : Except Error Spot → Except Error (List Name × FileTree)
  | .error e => .error e
  | .ok ⟨_, none⟩ => .error .notFound
  | .ok ⟨place, some t⟩ => .ok (place, t)

/-- A path is followed to its end, links and all. -/
def Manner.whole : Manner := ⟨true, false⟩

/-- A path is followed up to its last name, which may be that of a link. -/
def Manner.linkItself : Manner := ⟨false, false⟩

/-- A path is followed to its end, with everything on the way under its absolute path. -/
def Manner.spelledOut : Manner := ⟨true, true⟩

/-- What a path leads to, with its place. -/
def find (d : Disk) (p : Path) : Except Error (List Name × FileTree) := spotted (d.resolve p .whole)

/-! ### Asking -/

/-- The path leads to something. -/
def pathExists (d : Disk) (p : Path) : Bool :=
  match d.find p with
  | .ok _ => true
  | .error _ => false

/-- The path leads to a directory. -/
def isDir (d : Disk) (p : Path) : Bool :=
  match d.find p with
  | .ok (_, t) => t.isDir
  | .error _ => false

/-- The absolute path without links or idle parts that leads to the same. It is put together name by
name, and there is none as soon as what is put together does not fit. -/
def canonical (d : Disk) (p : Path) : Except Error Path :=
  (spotted (d.resolve p .spelledOut)).map fun found => .ofNames found.1

/-- The content of a file. -/
def readBytes (d : Disk) (p : Path) : Except Error ByteArray :=
  match d.find p with
  | .ok (_, .file content) => .ok content
  | .ok _ => .error .isDirectory
  | .error e => .error e

/-- The text that bytes write. -/
def decode (content : ByteArray) : Except Error String :=
  match String.fromUTF8? content with
  | some text => .ok text
  | none => .error .notUtf8

/-- The text of a file. -/
def read (d : Disk) (p : Path) : Except Error String := d.readBytes p >>= decode

/-- The working directory. -/
def workingDir (d : Disk) : Path := .ofNames d.here

/-- The disk seen from another working directory. -/
def inside (d : Disk) (place : List Name) : Disk := { d with here := place }

/-- The disk after the working directory has been changed. -/
def enter (d : Disk) (p : Path) : Except Error Disk :=
  match d.find p with
  | .ok (place, .dir _) => .ok (d.inside place)
  | .ok _ => .error .notDirectory
  | .error e => .error e

/-! ### Changing -/

/-- The disk with something put at a place. -/
def put (d : Disk) (place : List Name) (t : FileTree) (h : t.isDistinct = true := by rfl) : Disk where
  tree := d.tree.put place t
  here := d.here
  distinct := FileTree.isDistinct_put d.distinct h

/-- The disk with what stands at a place taken away. -/
def erase (d : Disk) (place : List Name) : Disk where
  tree := d.tree.erase place
  here := d.here
  distinct := FileTree.isDistinct_erase place d.distinct

/-- Gives a file a content; a missing file is made. -/
def write (d : Disk) (p : Path) (content : ByteArray) : Except Error Disk :=
  match d.resolve p .whole with
  | .error e => .error e
  | .ok ⟨_, some (.dir _)⟩ => .error .isDirectory
  | .ok ⟨place, _⟩ => .ok (d.put place (.file content))

/-- Makes a directory in one that is there. -/
def makeDir (d : Disk) (p : Path) : Except Error Disk :=
  match d.resolve ⟨p.anchor, Path.trimParts p.parts⟩ .linkItself with
  | .error e => .error e
  | .ok ⟨_, some _⟩ => .error .alreadyThere
  | .ok ⟨place, none⟩ => .ok (d.put place .emptyDir)

/-- Makes a directory and those above it that are missing. A directory that is there is left as it
is. -/
def makeDirs (d : Disk) (p : Path) : Except Error Disk :=
  if p = .empty then .ok d
  else
    match d.makeDir p with
    | .ok d => .ok d
    | .error .notFound =>
      match _h : p.parent? with
      | none => .error .noAncestor
      | some parent =>
        match d.makeDirs parent with
        | .error e => .error e
        | .ok d =>
          match d.makeDir p with
          | .ok d => .ok d
          | .error e => if d.isDir p then .ok d else .error e
    | .error e => if d.isDir p then .ok d else .error e
termination_by p.depth
decreasing_by exact Path.depth_lt_of_parent? _h

/-- Makes a link. -/
def makeLink (d : Disk) (p target : Path) : Except Error Disk :=
  match d.resolve p .linkItself with
  | .error e => .error e
  | .ok ⟨_, some _⟩ => .error .alreadyThere
  | .ok ⟨place, none⟩ => .ok (d.put place (.link target))

/-- Takes away what a path leads to, a link and not what it points to. -/
def remove (d : Disk) (p : Path) : Except Error Disk :=
  match d.resolve p .linkItself with
  | .error e => .error e
  | .ok ⟨_, none⟩ => .error .notFound
  | .ok ⟨place, some _⟩ => .ok (d.erase place)

/-- Gives something another path, in the place of a file that may be there. -/
def rename (d : Disk) (old new : Path) : Except Error Disk :=
  match d.resolve old .linkItself, d.resolve new .linkItself with
  | .error e, _ | _, .error e => .error e
  | .ok ⟨source, _⟩, .ok ⟨target, _⟩ =>
    match h : d.tree.at? source with
    | none => .error .notFound
    | some t => .ok ((d.erase source).put target t (FileTree.isDistinct_at? d.distinct h))

end Disk

end Manifest
