import Manifest.Watch

/-! # Notices

What the system tells about the directory of a watched file. A notice is relevant if the content of
the file may have changed: something has been made or modified, and one of the paths it is about
leads to the file. -/

namespace Manifest

/-- The paths are the same, if repeated slashes and lone dots between them are passed over. -/
def Path.sameAs (p q : Path) : Bool := p.anchor = q.anchor && p.steps = q.steps

/-- The paths lead to the same file. Where one of them leads nowhere, their last names tell. -/
def Disk.sameFile (d : Disk) (p q : Path) : Bool :=
  p.sameAs q ||
    match d.canonical p, d.canonical q with
    | .ok p, .ok q => p = q
    | _, _ => p.fileName?.isSome && p.fileName? = q.fileName?

namespace Watcher

/-- What has been done to something in the directory. -/
inductive Deed
  | unknown
  | accessed
  | created
  | modified
  | removed
  | other
deriving DecidableEq, Repr

/-- What the system tells about the directory. -/
inductive Notice
  /-- Something has been done to what some paths lead to. -/
  | done (deed : Deed) (paths : List Path)
  /-- The system could not watch. -/
  | fault
deriving DecidableEq, Repr

/-- The deed can give a file another content. -/
def Deed.touchesContent : Deed → Bool
  | .unknown | .created | .modified => true
  | .accessed | .removed | .other => false

/-- The content of the file may have changed. -/
def Notice.isRelevant (d : Disk) (file : Path) : Notice → Bool
  | done deed paths => deed.touchesContent && paths.any (d.sameFile · file)
  | fault => false

/-- What is made or modified under the very path of the file is relevant, whatever the disk. -/
theorem isRelevant_of_mem {d : Disk} {file : Path} {deed : Deed} {paths : List Path}
    (hdeed : deed.touchesContent = true) (hfile : file ∈ paths) :
    (Notice.done deed paths).isRelevant d file = true := by
  have hsame : d.sameFile file file = true := by simp [Disk.sameFile, Path.sameAs]
  rw [Notice.isRelevant, hdeed, Bool.true_and]
  exact List.any_eq_true.mpr ⟨file, hfile, hsame⟩

end Watcher

end Manifest
