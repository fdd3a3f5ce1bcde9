import Manifest.Failure
import Manifest.Repository
import Manifest.Store.Selections

/-! # The selection store

Selections that outlast a run of the program. They are kept for each manifest under its canonical
path, or under its path as given when there is no such file, in a file below the root of the
store. -/

namespace Manifest

/-- The selections of a workspace. -/
structure Store where
  root : Path
  selections : Selections

namespace Store

/-- Why a store cannot be opened or saved. -/
inductive Error
  | unreadable (path : Path) (e : Disk.Error)
  /-- The file does not hold selections. -/
  | invalid (path : Path)
  | noDirectory (path : Path) (e : Disk.Error)
  | unwritable (path : Path) (e : Disk.Error)
deriving DecidableEq, Repr

/-- The report of an error. -/
def Error.failure : Error → Failure
  | unreadable path e => ⟨"failed to read selection store at " ++ path.text, [e.message]⟩
  | invalid path => ⟨"invalid selection data in " ++ path.text, []⟩
  | noDirectory path e => ⟨"failed to create store directory " ++ path.text, [e.message]⟩
  | unwritable path e => ⟨"failed to write selection store to " ++ path.text, [e.message]⟩

/-- The store of a root before anything is remembered. -/
def new (root : Path) : Store := ⟨root, .empty⟩

/-- The directory of the store's file. -/
def dir (s : Store) : Path := s.root.child settingsDir

/-- The name of the store's file. -/
def fileName : Name := .ofText "selections.json"

/-- The store's file. -/
def path (s : Store) : Path := s.dir.child fileName

/-- The store as it was saved last. -/
def load (d : Disk) (root : Path) : Except Error Store :=
  let s := new root
  if d.pathExists s.path then
    match d.read s.path with
    | .error e => .error (.unreadable s.path e)
    | .ok text =>
      match Selections.parse? text with
      | some selections => .ok ⟨root, selections⟩
      | none => .error (.invalid s.path)
  else .ok s

/-- What a manifest's selection is kept under. -/
def key (d : Disk) (manifest : Path) : String :=
  match d.canonical manifest with
  | .ok p => p.text
  | .error _ => manifest.text

/-- The selection of a manifest. -/
def get? (d : Disk) (s : Store) (manifest : Path) : Option Selection :=
  s.selections.get? (key d manifest)

/-- The store with a selection for a manifest. -/
def set (d : Disk) (s : Store) (manifest : Path) (selection : Selection) : Store :=
  { s with selections := s.selections.insert (key d manifest) selection }

/-- The store with a manifest forgotten. -/
def remove (d : Disk) (s : Store) (manifest : Path) : Store :=
  { s with selections := s.selections.erase (key d manifest) }

/-- The selection of a manifest that is forgotten, and the store without it. -/
def takeOut (d : Disk) (s : Store) (manifest : Path) : Option Selection × Store :=
  (s.get? d manifest, s.remove d manifest)

/-- The store with the selection of a manifest set, or the manifest forgotten. -/
def update (d : Disk) (s : Store) (manifest : Path) : Option Selection → Store
  | some selection => s.set d manifest selection
  | none => s.remove d manifest

/-- Writes the store's file. -/
def save (d : Disk) (s : Store) : Except Error Disk :=
  match d.makeDirs s.dir with
  | .error e => .error (.noDirectory s.dir e)
  | .ok d =>
    match d.write s.path s.selections.print.toUTF8 with
    | .error e => .error (.unwritable s.path e)
    | .ok d => .ok d

/-- What is left of the disk when the store cannot be saved: its directory may have been made. -/
def remains (d : Disk) (s : Store) : Disk :=
  match d.makeDirs s.dir with
  | .ok d => d
  | .error _ => d

end Store

end Manifest
