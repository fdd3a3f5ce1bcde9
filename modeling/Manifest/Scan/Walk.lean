import Manifest.Ignore.Layer
import Manifest.Scan.Filter

/-! # Walking a tree

The files below a directory. A directory or file that is passed over is left out with all below it:
one whose path is skipped, one that the ignore rules in force leave out, and one whose name starts
with a dot, unless hidden files are shown or a rule keeps it. What has a path that is too long cannot
be opened and is left out, too. Links are not followed. -/

namespace Manifest.Scan

/-- What a walk depends on. -/
structure Walk where
  disk : Disk
  /-- The root as it was given. -/
  root : Path
  /-- The place of the root. -/
  place : List Name
  /-- The globs for paths to pass over. -/
  skipped : List Glob
  showHidden : Bool
  /-- The ignore rules of the user. -/
  global : List Ignore.Rule

/-- A file and the names that lead to it from the root. -/
structure Leaf where
  names : List Name
  content : ByteArray

namespace Walk

/-- The path of some names below the root. -/
def pathOf (w : Walk) (names : List Name) : Path := w.root.below names

/-- The bytes behind some bytes at the start, if they are there. -/
def dropFront (front bs : List UInt8) : List UInt8 :=
  if front.isPrefixOf bs then bs.drop front.length else bs

/-- A path as the rules of the user see it: from the working directory. -/
def globalPath (w : Walk) (names : List Name) : List UInt8 :=
  let bs := dropFront [Text.dot, Text.slash] (w.pathOf names).bytes
  if bs.contains Text.slash then
    let inner := dropFront w.disk.workingDir.bytes bs
    if inner.length = bs.length then bs else dropFront [Text.slash] inner
  else bs

/-- The name is hidden. -/
def isHidden (name : Name) : Bool := name.bytes.head? = some Text.dot

/-- The walk goes on to a name in the directory at `names`, in which the rules of `layers` are in
force. -/
def admits (w : Walk) (layers : List Ignore.Layer) (names : List Name) (name : Name)
    (t : FileTree) : Bool :=
  let path := w.globalPath (names ++ [name])
  let visible := match Ignore.verdict? layers w.global path name t.isDir with
    | some .ignored => false
    | some .kept => true
    | none => w.showHidden || !isHidden name
  visible && !anyMatch w.skipped (Path.joinNames (names ++ [name]))

/-- The layers in force in the directory at `names`, from those in force above it. -/
def enter (w : Walk) (layers : List Ignore.Layer) (names : List Name) : List Ignore.Layer :=
  .ofDir w.disk (w.pathOf names) [] :: layers

/-- What stands at `names` can be asked about and read: its path is short enough. -/
def isOpen (w : Walk) (names : List Name) : Bool := Disk.fits (w.pathOf names)

mutual

/-- The files of a tree that stands at `names`, where `layers` come from the directories above. -/
def leaves (w : Walk) (layers : List Ignore.Layer) (names : List Name) : FileTree → List Leaf
  | .file content => if w.isOpen names then [⟨names, content⟩] else []
  | .link _ => []
  | .dir children =>
    if w.isOpen names then leavesOfAll w (w.enter layers names) names children else []

/-- The files below the children of the directory at `names`, in which `layers` are in force. -/
def leavesOfAll (w : Walk) (layers : List Ignore.Layer) (names : List Name) :
    List (Name × FileTree) → List Leaf
  | [] => []
  | (name, t) :: rest =>
    (if w.admits layers names name t then
      leaves w (layers.map (·.below name)) (names ++ [name]) t
    else []) ++ leavesOfAll w layers names rest

end

end Walk

end Manifest.Scan
