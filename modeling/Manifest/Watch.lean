import Manifest.Disk
import Manifest.Failure
import Manifest.Session

/-! # Watching a manifest

A watcher locates the applications of one file again and again. A pass that cannot read the file
fails and leaves what the watcher knows as it was. -/

namespace Manifest

/-- A file and the session that follows it. -/
structure Watcher where
  path : Path
  session : Session

namespace Watcher

/-- Why a watcher cannot start or go on. -/
inductive Error
  | unreadable (path : Path) (e : Disk.Error)
  /-- The directory of the file cannot be watched. -/
  | unwatchable (dir : Path)
deriving DecidableEq, Repr

/-- The report of an error. -/
def Error.failure : Error → Failure
  | unreadable path e => ⟨"failed to read " ++ path.text, [e.message]⟩
  | unwatchable dir => ⟨"failed to watch " ++ dir.text, []⟩

/-- A watcher in front of its first pass. -/
def start (path : Path) (l : Locator) : Watcher := ⟨path, .start l⟩

/-- The directory in which changes of a file show. -/
def dirOf (path : Path) : Path :=
  match path.parent? with
  | some parent => if parent = .empty then ⟨.here, []⟩ else parent
  | none => ⟨.here, []⟩

/-- The directory of the file is there to be watched. -/
def ready (d : Disk) (w : Watcher) : Except Error Unit :=
  if d.pathExists (dirOf w.path) then .ok () else .error (.unwatchable (dirOf w.path))

/-- One pass over the file as it stands. -/
def pass (d : Disk) (w : Watcher) : Except Error (Pass × Watcher) :=
  match d.read w.path with
  | .error e => .error (.unreadable w.path e)
  | .ok text =>
    let (pass, session) := w.session.reconcile (.ofText text) none
    .ok (pass, { w with session })

/-- What a pass gives, and the watcher behind it: a pass that fails leaves the watcher as it is. -/
def look (d : Disk) (w : Watcher) : Except Error Pass × Watcher :=
  match w.pass d with
  | .error e => (.error e, w)
  | .ok (pass, w) => (.ok pass, w)

end Watcher

end Manifest
