import Manifest.Run.Options
import Manifest.Store

/-! # Listing a manifest

One manifest is read and its applications are listed. A run that remembers starts from the selection
that the store holds for the manifest, and puts its own selection in its place. The store is written
last, so a run that fails before has changed nothing. -/

namespace Manifest.LocateRequest

/-- Why a manifest is not listed. -/
inductive Error
  | unreadable (path : Path) (e : Disk.Error)
  | store (e : Store.Error)
  | unanalysable (path : Path) (e : Yaml.Error)
deriving DecidableEq, Repr

/-- The report of an error. -/
def Error.failure : Error → Failure
  | unreadable path e => ⟨"failed to read manifest " ++ path.text, [e.message]⟩
  | store e => e.failure
  | unanalysable path e => ⟨"cannot analyse " ++ path.text, e.chain⟩

/-- What a run leaves behind. -/
structure Result where
  view : View
  disk : Disk

/-- The store that a run starts from, if it remembers. -/
def store? (r : LocateRequest) (d : Disk) : Except Store.Error (Option Store) :=
  if r.remember then (Store.load d d.workspace).map some else .ok none

/-- The manifest can be analysed, or need not be. -/
def checked (r : LocateRequest) (l : Locator) (d : Document) (previous? : Option Selection) :
    Except Yaml.Error Unit :=
  if r.strict then (l.locate? d previous?).map fun _ => () else .ok ()

/-- The disk with the selection of a manifest in the store, if there is a store. -/
def kept (d : Disk) (store? : Option Store) (path : Path) (selection? : Option Selection) :
    Except Store.Error Disk :=
  match store? with
  | none => .ok d
  | some s => (s.update d path selection?).save d

/-! ### Steps -/

/-- A step of a run. It may change the disk, and if it fails, what it has done until then stays. -/
abbrev Action (α : Type) := EStateM Error Disk α

/-- Looks at the disk, which stays as it is. -/
def look {α : Type} (f : Disk → Except Error α) : Action α := fun d =>
  match f d with
  | .ok a => .ok a d
  | .error e => .error e d

/-- Keeps the selection of a manifest. -/
def keep (store? : Option Store) (path : Path) (selection? : Option Selection) : Action Unit :=
  fun d =>
    match kept d store? path selection? with
    | .ok d => .ok () d
    | .error e => .error (.store e) (store?.elim d (·.remains d))

/-- Locates the applications of the manifest, step by step. -/
def perform (r : LocateRequest) (c : Config) : Action View := do
  let text ← look fun d => (d.read r.file).mapError (.unreadable r.file)
  let store? ← look fun d => (r.store? d).mapError .store
  let d ← get
  let previous? := store?.bind (·.get? d r.file)
  let l := c.locator r.options.app?
  let view := View.ofText r.file.text r.file.text text l previous?
  look fun _ => (r.checked l view.document previous?).mapError (.unanalysable r.file)
  keep store? r.file view.located.selection?
  return view

/-- What a run gives: the view of the manifest and the disk behind its last step. -/
def run (r : LocateRequest) (c : Config) (d : Disk) : Except Error Result :=
  match (r.perform c).run d with
  | .ok view d => .ok ⟨view, d⟩
  | .error e _ => .error e

/-- A run, step for step. -/
theorem perform_eq (r : LocateRequest) (c : Config) (d : Disk) : (r.perform c).run d =
    match d.read r.file with
    | .error e => .error (.unreadable r.file e) d
    | .ok text =>
      match r.store? d with
      | .error e => .error (.store e) d
      | .ok store? =>
        let previous? := store?.bind (·.get? d r.file)
        let view := View.ofText r.file.text r.file.text text (c.locator r.options.app?) previous?
        match r.checked (c.locator r.options.app?) view.document previous? with
        | .error e => .error (.unanalysable r.file e) d
        | .ok () =>
          match kept d store? r.file view.located.selection? with
          | .error e => .error (.store e) (store?.elim d (·.remains d))
          | .ok d => .ok view d := by
  have hget : ∀ d, (get : Action Disk) d = .ok d d := fun d => rfl
  simp only [perform, EStateM.run, bind, EStateM.bind, look, hget, keep]
  cases d.read r.file with
  | error e => rfl
  | ok text =>
    dsimp only [Except.mapError]
    cases r.store? d with
    | error e => rfl
    | ok store? =>
      dsimp only
      cases r.checked (c.locator r.options.app?) _ _ with
      | error e => rfl
      | ok checked =>
        dsimp only
        cases kept d store? r.file _ <;> rfl

/-- What a run gives, from what the disk holds. -/
theorem run_eq (r : LocateRequest) (c : Config) (d : Disk) : r.run c d =
    match d.read r.file with
    | .error e => .error (.unreadable r.file e)
    | .ok text =>
      match r.store? d with
      | .error e => .error (.store e)
      | .ok store? =>
        let previous? := store?.bind (·.get? d r.file)
        let view := View.ofText r.file.text r.file.text text (c.locator r.options.app?) previous?
        match r.checked (c.locator r.options.app?) view.document previous? with
        | .error e => .error (.unanalysable r.file e)
        | .ok () =>
          match kept d store? r.file view.located.selection? with
          | .error e => .error (.store e)
          | .ok d => .ok ⟨view, d⟩ := by
  rw [run, perform_eq]
  cases d.read r.file with
  | error e => rfl
  | ok text =>
    cases r.store? d with
    | error e => rfl
    | ok store? =>
      dsimp only
      cases r.checked (c.locator r.options.app?) _ _ with
      | error e => rfl
      | ok checked => cases kept d store? r.file _ <;> rfl

end Manifest.LocateRequest
