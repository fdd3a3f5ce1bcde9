import Manifest.Proofs.Disks.Repositories
import Manifest.Proofs.Disks.Writing
import Manifest.Proofs.SelectionMap
import Manifest.Run

/-! # Runs that remember

A run that remembers opens the store, starts from the selection that is kept for its manifest, and
puts its own selection in that place (`Run.opens`). The store that it leaves is the one that the next
run opens (`Run.saves`, `load_of_readBytes`). -/

namespace Manifest.Proofs.Remembering.Runs

open Manifest.Path Manifest.Proofs.Disks.Following Manifest.Proofs.Disks.Names
open Manifest.Proofs.Disks.Repositories Manifest.Proofs.Disks.Writing Manifest.Proofs.SelectionMap

/-- A run that remembers and does not fail, with the text that it reads and the canonical path of the
manifest. -/
structure Run where
  request : LocateRequest
  config : Config
  before : Disk
  text : String
  file : Path
  result : LocateRequest.Result
  remembers : request.remember = true
  reads : before.read request.file = .ok text
  leads : before.canonical request.file = .ok file
  succeeds : request.run config before = .ok result

namespace Run

/-- The locator of a run. -/
def locator (r : Run) : Locator := r.config.locator r.request.options.app?

/-- What a run has located. -/
def located (r : Run) : Located := r.result.view.located

end Run

/-- The file in which a repository keeps the selections. -/
def storeFile (root : List Name) : Path := (Store.new (.ofNames root)).path

/-! ### Stores -/

theorem get?_update (d : Disk) (s : Store) (p : Path) (selection? : Option Selection) (k : String) :
    (s.update d p selection?).selections.get? k =
      if Store.key d p = k then selection? else s.selections.get? k := by
  cases selection? with
  | none => exact get?_erase _ _ _
  | some selection => exact get?_insert _ _ _ _

theorem root_update (d : Disk) (s : Store) (p : Path) (selection? : Option Selection) :
    (s.update d p selection?).root = s.root := by
  cases selection? <;> rfl

/-- A store that was saved is opened as it was, or cannot be opened if a start in it does not fit into
64 bits. -/
theorem load_of_readBytes {d : Disk} {root : Path} {m : Selections}
    (hfile : d.readBytes (Store.new root).path = .ok m.print.toUTF8) :
    Store.load d root =
      if ∀ e ∈ m.entries, e.2.start < Text.wordCount then .ok ⟨root, m⟩
      else .error (.invalid (Store.new root).path) := by
  have hexists : d.pathExists (Store.new root).path = true := by
    obtain ⟨place, hfind⟩ := find_of_readBytes hfile
    rw [Disk.pathExists, hfind]
  have hread : d.read (Store.new root).path = .ok m.print := by
    rw [Disk.read, hfile]
    exact decode_toUTF8 m.print
  simp only [Store.load, hexists, if_true, hread, parse?_print]
  split_ifs <;> rfl

theorem root_load {d : Disk} {root : Path} {s : Store} (h : Store.load d root = .ok s) :
    s.root = root := by
  simp only [Store.load] at h
  split_ifs at h with hexists
  · split at h
    next => cases h
    next text hread =>
      split at h
      next m hm => exact congrArg Store.root (Except.ok.inj h).symm
      next => cases h
  · exact congrArg Store.root (Except.ok.inj h).symm

/-- A store without a file is opened empty. -/
theorem load_of_missing {d : Disk} {root : Path}
    (h : d.pathExists (Store.new root).path = false) : Store.load d root = .ok (Store.new root) := by
  simp [Store.load, h]

theorem exists_write_of_save {d d' : Disk} {s : Store} (h : s.save d = .ok d') :
    ∃ d₁, d.makeDirs s.dir = .ok d₁ ∧ d₁.write s.path s.selections.print.toUTF8 = .ok d' := by
  rw [Store.save] at h
  split at h
  next => cases h
  next d₁ hdirs =>
    split at h
    next => cases h
    next d₂ hwrite =>
      cases h
      exact ⟨d₁, hdirs, hwrite⟩

/-! ### One run -/

theorem Run.key_eq (r : Run) : Store.key r.before r.request.file = r.file.text := by
  rw [Store.key, r.leads]

/-- What a run does to the store is to open it, to locate from the selection kept for the manifest, and
to keep the selection of the run in its place. -/
theorem Run.opens (r : Run) {root : List Name} (h : Inside root r.before) :
    ∃ s, Store.load r.before (.ofNames root) = .ok s ∧
      r.located = r.locator.locate (.ofText r.text) (s.selections.get? r.file.text) ∧
      (s.update r.before r.request.file r.located.selection?).save r.before = .ok r.result.disk := by
  have hrun := r.succeeds
  have hworkspace := workspace_of_inside h
  simp only [LocateRequest.run_eq, r.reads, LocateRequest.store?, r.remembers, if_true, hworkspace]
    at hrun
  cases hload : Store.load r.before (.ofNames root) with
  | error e => rw [hload] at hrun; cases hrun
  | ok s =>
    rw [hload] at hrun
    simp only [Except.map] at hrun
    split at hrun
    next => cases hrun
    next hchecked =>
      split at hrun
      next => cases hrun
      next d' hkept =>
        have hresult := Except.ok.inj hrun
        have hprevious : s.get? r.before r.request.file = s.selections.get? r.file.text := by
          rw [Store.get?, r.key_eq]
        refine ⟨s, rfl, ?_, ?_⟩
        · rw [Run.located, ← hresult, ← hprevious]
          rfl
        · rw [Run.located, ← hresult]
          exact hkept

/-- A run that is not strict succeeds if the manifest can be read and the store opened and saved. -/
theorem exists_run {request : LocateRequest} {c : Config} {d d' : Disk} {text : String} {file : Path}
    {root : List Name} {s : Store} (hremember : request.remember = true)
    (hstrict : request.strict = false) (hin : Inside root d)
    (hread : d.read request.file = .ok text) (hfile : d.canonical request.file = .ok file)
    (hload : Store.load d (.ofNames root) = .ok s)
    (hsave : (s.update d request.file ((c.locator request.options.app?).locate (.ofText text)
      (s.selections.get? file.text)).selection?).save d = .ok d') :
    ∃ r : Run, r.request = request ∧ r.config = c ∧ r.before = d ∧ r.text = text ∧ r.file = file ∧
      r.result.disk = d' := by
  have hkey : Store.get? d s request.file = s.selections.get? file.text := by
    rw [Store.get?, Store.key, hfile]
  have hrun : request.run c d = .ok ⟨.ofText request.file.text request.file.text text
      (c.locator request.options.app?) (s.selections.get? file.text), d'⟩ := by
    simp only [LocateRequest.run_eq, hread, LocateRequest.store?, hremember, if_true,
      workspace_of_inside hin, hload, Except.map, Option.bind_some, hkey, LocateRequest.checked,
      hstrict, Bool.false_eq_true, if_false, LocateRequest.kept, View.ofText, hsave]
  exact ⟨⟨request, c, d, text, file, _, hremember, hread, hfile, hrun⟩, rfl, rfl, rfl, rfl, rfl, rfl⟩

theorem Run.saves (r : Run) {root : List Name} {s : Store}
    (hload : Store.load r.before (.ofNames root) = .ok s)
    (h : (s.update r.before r.request.file r.located.selection?).save r.before =
      .ok r.result.disk) :
    r.result.disk.readBytes (storeFile root) =
      .ok (s.update r.before r.request.file r.located.selection?).selections.print.toUTF8 := by
  obtain ⟨d₁, -, hwrite⟩ := exists_write_of_save h
  have hpath : (s.update r.before r.request.file r.located.selection?).path = storeFile root := by
    rw [Store.path, Store.dir, root_update, root_load hload]
    rfl
  rw [hpath] at hwrite
  exact readBytes_of_write (parts_child_ne_nil _ _) hwrite

/-- An invocation that lists a manifest, remembers, and ends well is a run with the configuration that
it has loaded, if the manifest has a canonical path. -/
theorem exists_run_of_done {i : Invocation} {d : Disk} {env : Environment} {request : LocateRequest}
    {file : Path} (hcommand : i.command = .locate request) (hremember : request.remember = true)
    (hfile : d.canonical request.file = .ok file) (hdone : (i.run d env).ending = .done) :
    ∃ r : Run, r.request = request ∧ Config.load d env i.common.config? = .ok r.config ∧
      r.before = d ∧ r.file = file ∧ (i.run d env).disk = r.result.disk ∧
      (i.run d env).printed = request.options.listing r.config [r.result.view] := by
  cases hconfig : Config.load d env i.common.config? with
  | error e =>
    rw [Invocation.run, hconfig] at hdone
    cases hdone
  | ok c =>
    have hrun : i.run d env = request.outcome c d := by
      rw [Invocation.run, hconfig]
      simp only [Invocation.outcome, hcommand]
    rw [hrun] at hdone ⊢
    cases hresult : request.run c d with
    | error e =>
      obtain ⟨d', houtcome⟩ := LocateRequest.exists_outcome_of_error hresult
      rw [houtcome] at hdone
      cases hdone
    | ok result =>
      obtain ⟨text, hread⟩ : ∃ text, d.read request.file = .ok text := by
        cases hread : d.read request.file with
        | error e => rw [LocateRequest.run_eq, hread] at hresult; cases hresult
        | ok text => exact ⟨text, rfl⟩
      refine ⟨⟨request, c, d, text, file, result, hremember, hread, hfile, hresult⟩, rfl, rfl, rfl,
        rfl, ?_⟩
      rw [LocateRequest.outcome_of_ok hresult]
      exact ⟨rfl, rfl⟩

end Manifest.Proofs.Remembering.Runs
