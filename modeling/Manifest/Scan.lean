import Manifest.Scan.Walk
import Manifest.View

/-! # Scanning for manifests

A scan finds the manifests below a root: the files that a walk comes to, that are not too large and
whose name is one for manifests. They come in the order of their paths from the root, as these are
shown. Each is then read and its applications are located.

Several threads take part in a walk, so the files are come to in any order (`Gives`). If no two paths
are shown alike, this makes no difference; `run` is the scan in which one thread does all. -/

namespace Manifest

/-- What a scan is asked for. -/
structure Scan where
  root : Path
  config : Config
  /-- The size of the largest file that counts, in bytes. -/
  sizeLimit : Nat

namespace Scan

/-- The size of the largest file that counts, unless another is asked for. -/
def defaultSizeLimit : Nat := 1024 * 1024

/-- A manifest that a scan has found. -/
structure Found where
  path : Path
  /-- What is shown for the path from the root of the scan. -/
  shownPath : String
deriving DecidableEq, Repr

/-- The name that stands for the standard input. -/
def standardInput : Part := "-"

/-- The root is a lone `-`. It stands for the standard input, which holds no files. -/
def isStandardInput (root : Path) : Bool := root.anchor = .bare && root.steps = [standardInput]

/-- What the root leads to, if a scan can start there. A root that is a link leads to a directory or
to nothing. -/
def start? (d : Disk) (root : Path) : Option (List Name × FileTree) :=
  if isStandardInput root then none
  else
    match d.find root, d.resolve root .linkItself with
    | .ok (_, .file _), .ok ⟨_, some (.link _)⟩ => none
    | .ok found, _ => some found
    | .error _, _ => none

/-- The last name of a path from the root; for the root itself its own. -/
def nameOf? (root : Path) (names : List Name) : Option Part :=
  match names.getLast? with
  | some name => some name
  | none => root.fileName?

/-- A file counts as a manifest. -/
def counts (s : Scan) (wanted : List Glob) (leaf : Leaf) : Bool :=
  leaf.content.size ≤ s.sizeLimit
    && (nameOf? s.root leaf.names).any fun name => anyMatch wanted name.bytes

/-- Manifests in the order of their shown paths. Those with the same one stay as they are. -/
def sorted (found : List Found) : List Found := found.mergeSort fun a b => a.shownPath ≤ b.shownPath

/-- A manifest at some names below a root, as it is listed. -/
def listed (root : Path) (names : List Name) : Found :=
  ⟨root.below names, Text.shown (Path.joinNames names)⟩

/-- The manifests below the root, in the order in which one thread comes to them. -/
def visited (s : Scan) (d : Disk) (env : Environment) : Except Error (List Found) := do
  let skipped ← skipped d s.root s.config
  let wanted ← wanted s.config
  match start? d s.root with
  | none => return []
  | some (place, tree) =>
    let w : Walk := ⟨d, s.root, place, skipped, s.config.showHidden, Ignore.globalRules d env⟩
    let leaves := w.leaves (Ignore.Layer.above d s.root place) [] tree
    return (leaves.filter (s.counts wanted)).map fun leaf => listed s.root leaf.names

/-- The manifests below the root. -/
def run (s : Scan) (d : Disk) (env : Environment) : Except Error (List Found) :=
  (s.visited d env).map sorted

/-- What a scan may give: the manifests are come to in any order and then sorted. -/
def Gives (s : Scan) (d : Disk) (env : Environment) : Except Error (List Found) → Prop
  | .error e => s.visited d env = .error e
  | .ok found => ∃ visited visited', s.visited d env = .ok visited ∧ visited'.Perm visited ∧
      found = sorted visited'

/-- The scan of one thread gives one of the results. -/
theorem gives_run (s : Scan) (d : Disk) (env : Environment) : s.Gives d env (s.run d env) := by
  rw [run]
  cases h : s.visited d env with
  | error e => exact h
  | ok visited => exact ⟨visited, visited, h, .refl _, rfl⟩

/-- A manifest that has been found, read at its path, with its applications. -/
def view (d : Disk) (l : Locator) (f : Found) : View :=
  match d.read f.path with
  | .ok text => .ofText f.path.text f.shownPath text l none
  | .error e =>
    .unreadable f.path.text f.shownPath ("failed to read " ++ f.path.text ++ ": " ++ e.message)

/-- All manifests that have been found, with their applications. -/
def views (d : Disk) (found : List Found) (l : Locator) : List View := found.map (view d l)

end Scan

end Manifest
