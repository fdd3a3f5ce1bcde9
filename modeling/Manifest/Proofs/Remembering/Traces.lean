import Manifest.Proofs.Disks.Making
import Manifest.Proofs.Remembering.Histories

/-! # What a run leaves behind

A run that lists a manifest reads it, opens the store, analyses the text if it is strict, and only then
writes the store. So there are few ways to fail with nothing written (`Refused`), and a run that fails
in one of them has printed nothing and leaves the disk as it was (`outcome_of_refused`). A run that
succeeds writes one file at most, the store, in a directory that it may have made (`kept_of_run`), and
a strict run that succeeds does what the same run does that is not strict (`outcome_of_strict`). -/

namespace Manifest.Proofs.Remembering.Traces

open Manifest.FileTree Manifest.Path
open Manifest.Proofs.Disks.Following Manifest.Proofs.Disks.Making Manifest.Proofs.Disks.Names
open Manifest.Proofs.Disks.Places Manifest.Proofs.Disks.Repositories Manifest.Proofs.Disks.Writing
open Manifest.Proofs.Remembering.Histories Manifest.Proofs.Remembering.Runs
open Manifest.Proofs.SelectionMap

/-! ### Failing -/

/-- The selection that a run starts from: the one that the store has for the manifest, if the run
remembers. -/
inductive Remembered (r : LocateRequest) (d : Disk) : Option Selection → Prop
  | stored {s : Store} (hremember : r.remember = true) (hload : Store.load d d.workspace = .ok s) :
      Remembered r d (s.get? d r.file)
  | nothing (hforget : r.remember = false) : Remembered r d none

/-- The manifest can be read and the store opened, but the text cannot be analysed, starting from the
selection that is remembered. -/
def Unanalysable (r : LocateRequest) (c : Config) (d : Disk) (e : Yaml.Error) : Prop :=
  ∃ text previous?, d.read r.file = .ok text ∧ Remembered r d previous? ∧
    (c.locator r.options.app?).locate? (.ofText text) previous? = .error e

/-- Why a run fails before it writes anything. -/
inductive Refused (r : LocateRequest) (c : Config) (d : Disk) : LocateRequest.Error → Prop
  /-- The manifest cannot be read. -/
  | manifest {e : Disk.Error} (hread : d.read r.file = .error e) :
      Refused r c d (.unreadable r.file e)
  /-- The store cannot be read, or does not hold selections. -/
  | store {text : String} {e : Store.Error} (hread : d.read r.file = .ok text)
      (hremember : r.remember = true) (hload : Store.load d d.workspace = .error e) :
      Refused r c d (.store e)
  /-- The text cannot be analysed, and the run is strict. -/
  | analysis {e : Yaml.Error} (hstrict : r.strict = true) (h : Unanalysable r c d e) :
      Refused r c d (.unanalysable r.file e)

variable {r : LocateRequest} {c : Config} {d d' : Disk} {text : String} {previous? : Option Selection}

theorem exists_store?_of_remembered (h : Remembered r d previous?) :
    ∃ store?, r.store? d = .ok store? ∧ store?.bind (·.get? d r.file) = previous? := by
  cases h with
  | @stored s hremember hload =>
    exact ⟨some s, by rw [LocateRequest.store?, if_pos hremember, hload]; rfl, rfl⟩
  | nothing hforget => exact ⟨none, by rw [LocateRequest.store?, hforget]; rfl, rfl⟩

theorem remembered_of_store? {store? : Option Store} (h : r.store? d = .ok store?) :
    Remembered r d (store?.bind (·.get? d r.file)) := by
  rw [LocateRequest.store?] at h
  split_ifs at h with hremember
  · cases hload : Store.load d d.workspace with
    | error e => rw [hload] at h; cases h
    | ok s =>
      rw [hload] at h
      cases h
      exact .stored hremember hload
  · cases h
    exact .nothing (by simpa using hremember)

theorem load_of_store?_error {e : Store.Error} (h : r.store? d = .error e) :
    r.remember = true ∧ Store.load d d.workspace = .error e := by
  rw [LocateRequest.store?] at h
  split_ifs at h with hremember
  cases hload : Store.load d d.workspace with
  | error e' =>
    rw [hload] at h
    exact ⟨hremember, congrArg _ (Except.error.inj h)⟩
  | ok s => rw [hload] at h; cases h

theorem checked_eq_error_iff {l : Locator} {doc : Document} {e : Yaml.Error} :
    r.checked l doc previous? = .error e ↔ r.strict = true ∧ l.locate? doc previous? = .error e := by
  rw [LocateRequest.checked]
  split_ifs with hstrict
  · cases l.locate? doc previous? <;> simp [Except.map, hstrict]
  · simp [hstrict]

/-- What a run that is refused does: it stops where it is, on the disk that it has found. -/
theorem perform_of_refused {e : LocateRequest.Error} (h : Refused r c d e) :
    (r.perform c).run d = .error e d := by
  rw [LocateRequest.perform_eq]
  cases h with
  | manifest hread => rw [hread]
  | @store text e hread hremember hload =>
    have hstore : r.store? d = .error e := by
      rw [LocateRequest.store?, if_pos hremember, hload]
      rfl
    rw [hread, hstore]
  | analysis hstrict h =>
    obtain ⟨text, previous?, hread, hremembered, hlocate⟩ := h
    obtain ⟨store?, hstore, rfl⟩ := exists_store?_of_remembered hremembered
    have hchecked := checked_eq_error_iff.mpr ⟨hstrict, hlocate⟩
    rw [hread, hstore]
    dsimp only [View.ofText]
    rw [hchecked]

/-- **A run that is refused leaves no trace**: nothing is printed and the disk stays as it is. -/
theorem outcome_of_refused {e : LocateRequest.Error} (h : Refused r c d e) :
    r.outcome c d = .failed d e.failure := by
  rw [LocateRequest.outcome, perform_of_refused h]

/-- A run that is not refused comes to the point where it keeps what it has selected. -/
theorem perform_of_not_refused (h : ∀ e, ¬ Refused r c d e) :
    ∃ text store?, d.read r.file = .ok text ∧ r.store? d = .ok store? ∧
      (r.perform c).run d =
        let view := View.ofText r.file.text r.file.text text (c.locator r.options.app?)
          (store?.bind (·.get? d r.file))
        match LocateRequest.kept d store? r.file view.located.selection? with
        | .error e => .error (.store e) (store?.elim d (·.remains d))
        | .ok d => .ok view d := by
  cases hread : d.read r.file with
  | error e => exact absurd (.manifest hread) (h _)
  | ok text =>
    cases hstore : r.store? d with
    | error e =>
      obtain ⟨hremember, hload⟩ := load_of_store?_error hstore
      exact absurd (.store hread hremember hload) (h _)
    | ok store? =>
      refine ⟨text, store?, rfl, rfl, ?_⟩
      rw [LocateRequest.perform_eq, hread, hstore]
      dsimp only
      split
      next e hchecked =>
        obtain ⟨hstrict, hlocate⟩ := checked_eq_error_iff.mp hchecked
        exact absurd (.analysis hstrict ⟨_, _, hread, remembered_of_store? hstore, hlocate⟩) (h _)
      next => rfl

theorem not_refused_of_run {result : LocateRequest.Result} (h : r.run c d = .ok result)
    (e : LocateRequest.Error) : ¬ Refused r c d e := by
  intro hrefused
  rw [LocateRequest.run, perform_of_refused hrefused] at h
  cases h

/-- The store cannot be written. -/
def IsUnsaved : LocateRequest.Error → Prop
  | .store (.noDirectory _ _) | .store (.unwritable _ _) => True
  | _ => False

theorem isUnsaved_of_kept {store? : Option Store} {p : Path} {selection? : Option Selection}
    {e : Store.Error} (h : LocateRequest.kept d store? p selection? = .error e) :
    IsUnsaved (.store e) := by
  cases store? with
  | none => cases h
  | some s =>
    rw [LocateRequest.kept, Store.save] at h
    split at h
    next =>
      cases h
      trivial
    next =>
      split at h <;> cases h
      trivial

theorem not_isUnsaved_of_load {root : Path} {e : Store.Error} (h : Store.load d root = .error e) :
    ¬ IsUnsaved (.store e) := by
  simp only [Store.load] at h
  split_ifs at h
  split at h
  next =>
    cases h
    exact id
  next =>
    split at h <;> cases h
    exact id

/-- **A run fails because it is refused, or because the store cannot be written.** -/
theorem refused_iff {e : LocateRequest.Error} :
    Refused r c d e ↔ r.run c d = .error e ∧ ¬ IsUnsaved e := by
  constructor
  · intro h
    refine ⟨by rw [LocateRequest.run, perform_of_refused h], ?_⟩
    cases h with
    | manifest hread => exact id
    | store hread hremember hload => exact not_isUnsaved_of_load hload
    | analysis hstrict h => exact id
  · rintro ⟨hrun, hsaved⟩
    by_contra hnot
    have hnone : ∀ e, ¬ Refused r c d e := by
      intro e' hrefused
      rw [LocateRequest.run, perform_of_refused hrefused] at hrun
      exact hnot (Except.error.inj hrun ▸ hrefused)
    obtain ⟨text, store?, -, -, hperform⟩ := perform_of_not_refused hnone
    rw [LocateRequest.run, hperform] at hrun
    dsimp only at hrun
    cases hkept : LocateRequest.kept d store? r.file _ with
    | error e' =>
      rw [hkept] at hrun
      exact hsaved (Except.error.inj hrun ▸ isUnsaved_of_kept hkept)
    | ok d' =>
      rw [hkept] at hrun
      cases hrun

/-- A run fails at the analysis exactly if it is strict and its text cannot be analysed. -/
theorem run_eq_unanalysable_iff {e : Yaml.Error} :
    r.run c d = .error (.unanalysable r.file e) ↔ r.strict = true ∧ Unanalysable r c d e := by
  have hiff : Refused r c d (.unanalysable r.file e) ↔ r.run c d = .error (.unanalysable r.file e) :=
    refused_iff.trans (and_iff_left id)
  rw [← hiff]
  constructor
  · intro h
    cases h with
    | analysis hstrict h => exact ⟨hstrict, h⟩
  · exact fun ⟨hstrict, h⟩ => .analysis hstrict h

/-! ### Succeeding -/

/-- The run that is not strict. -/
def lenient (r : LocateRequest) : LocateRequest := { r with strict := false }

theorem refused_of_lenient {e : LocateRequest.Error} (h : Refused (lenient r) c d e) :
    Refused r c d e := by
  cases h with
  | manifest hread => exact .manifest hread
  | store hread hremember hload => exact .store hread hremember hload
  | analysis hstrict h => cases hstrict

/-- **A run that succeeds does what it does when it is not strict.** -/
theorem outcome_lenient {result : LocateRequest.Result} (h : r.run c d = .ok result) :
    (lenient r).outcome c d = r.outcome c d := by
  have hnot := not_refused_of_run h
  obtain ⟨text, store?, hread, hstore, hperform⟩ := perform_of_not_refused hnot
  obtain ⟨text', store?', hread', hstore', hperform'⟩ :=
    perform_of_not_refused fun e he => hnot e (refused_of_lenient he)
  obtain rfl : text = text' := Except.ok.inj (hread.symm.trans hread')
  obtain rfl : store? = store?' := Except.ok.inj (hstore.symm.trans hstore')
  have hsame : ((lenient r).perform c).run d = (r.perform c).run d := hperform'.trans hperform.symm
  rw [LocateRequest.outcome, LocateRequest.outcome, hsame]
  rfl

/-- A run that forgets leaves the disk as it is. -/
theorem disk_of_forgets (h : r.remember = false) : (r.outcome c d).disk = d := by
  by_cases hrefused : ∃ e, Refused r c d e
  · obtain ⟨e, he⟩ := hrefused
    rw [outcome_of_refused he]
    rfl
  · obtain ⟨text, store?, -, hstore, hperform⟩ :=
      perform_of_not_refused fun e he => hrefused ⟨e, he⟩
    obtain rfl : none = store? := by
      rw [LocateRequest.store?, h] at hstore
      exact Except.ok.inj hstore
    rw [LocateRequest.outcome, hperform]
    rfl

/-- A disk after a run that remembers: the file of the store at a root has been written, at `target`,
and holds `m`. -/
structure Kept (r : LocateRequest) (d d' : Disk) (selection? : Option Selection)
    (root target : List Name) (s : Store) (m : Selections) : Prop where
  workspace : d.workspace = .ofNames root
  opened : Store.load d d.workspace = .ok s
  here : d'.here = d.here
  file : d'.find (storeFile root) = .ok (target, .file m.print.toUTF8)
  /-- It has been written where a file was, or nothing. -/
  free : Free d.tree target
  /-- The store speaks of no other manifest than before in another way. -/
  get?_eq : ∀ key, m.get? key = if Store.key d r.file = key then selection? else s.selections.get? key
  /-- Nothing else is different, but that the directory of the store may have been made. -/
  others : ∀ place, place ≠ target → SameShape (d.tree.at? place) (d'.tree.at? place) ∨
    place = root ++ [settingsDir] ∧ d.tree.at? place = none ∧ DirAt d'.tree place

/-- Saving a store changes its file and may make its directory. -/
theorem others_of_save {root : List Name} {s : Store} (hhere : DirAt d.tree d.here)
    (hroot : root <+: d.here) (hs : s.root = .ofNames root) (h : s.save d = .ok d') :
    ∃ target, Free d.tree target ∧ d'.here = d.here ∧
      d'.find (storeFile root) = .ok (target, .file s.selections.print.toUTF8) ∧
      ∀ place, place ≠ target → SameShape (d.tree.at? place) (d'.tree.at? place) ∨
        place = root ++ [settingsDir] ∧ d.tree.at? place = none ∧ DirAt d'.tree place := by
  have hdir : DirAt d.tree root := by
    obtain ⟨more, hmore⟩ := hroot
    exact DirAt.below (hmore ▸ hhere)
  have hpath : s.dir = .ofNames (root ++ [settingsDir]) := by
    rw [Store.dir, hs]
    exact child_ofNames _ _
  obtain ⟨d₁, hmake, hwrite⟩ := exists_write_of_save h
  rw [hpath] at hmake
  have hmade := sameShape_of_makeDirs hdir hmake
  obtain ⟨target, hfree, rfl, hfind⟩ := exists_place_of_write (parts_child_ne_nil _ _) hwrite
  have hfile : s.path = storeFile root := by
    rw [Store.path, Store.dir, hs]
    rfl
  have hstays : d₁.here = d.here := by
    rcases makeDirs_cases hdir hmake with rfl | ⟨-, rfl⟩ <;> rfl
  refine ⟨target, ?_, hstays, hfile ▸ hfind, fun place hplace => ?_⟩
  · rcases hmade target with hsame | ⟨-, -, children, hat⟩
    · exact hfree.of_sameShape hsame
    · exact absurd List.prefix_rfl (hfree.not_below hat fun content => by simp)
  · have hsame := sameShape_of_free hfree (at?_of_find hfind) hplace
    rcases hmade place with hmade | ⟨hplace, hnone, hdir⟩
    · exact .inl (hmade.trans hsame)
    · exact .inr ⟨hplace, hnone, dirAt_put hdir hfree⟩

/-- **A run that remembers and succeeds keeps what it has selected**, and nothing else. -/
theorem kept_of_run {result : LocateRequest.Result} (hhere : DirAt d.tree d.here)
    (hremember : r.remember = true) (h : r.run c d = .ok result) :
    ∃ root target s m, Kept r d result.disk result.view.located.selection? root target s m := by
  obtain ⟨root, hroot, hworkspace⟩ := exists_workspace d
  obtain ⟨text, store?, -, hstore, hperform⟩ := perform_of_not_refused (not_refused_of_run h)
  obtain ⟨s, hload, rfl⟩ : ∃ s, Store.load d d.workspace = .ok s ∧ some s = store? := by
    rw [LocateRequest.store?, if_pos hremember] at hstore
    cases hload : Store.load d d.workspace with
    | error e => rw [hload] at hstore; cases hstore
    | ok s =>
      rw [hload] at hstore
      exact ⟨s, rfl, Except.ok.inj hstore⟩
  rw [LocateRequest.run, hperform] at h
  dsimp only [LocateRequest.kept] at h
  cases hsave : (s.update d r.file _).save d with
  | error e => rw [hsave] at h; cases h
  | ok d' =>
    rw [hsave] at h
    obtain rfl := Except.ok.inj h
    have hs : ∀ selection?, (s.update d r.file selection?).root = .ofNames root := fun selection? =>
      (root_update d s r.file selection?).trans ((root_load hload).trans hworkspace)
    obtain ⟨target, hfree, hstays, hfile, hothers⟩ := others_of_save hhere hroot (hs _) hsave
    exact ⟨root, target, s, _, hworkspace, hload, hstays, hfile, hfree, get?_update d s r.file _,
      hothers⟩

/-- **A run that lists a manifest leaves no trace unless it succeeds and remembers.** If it is refused,
which is the only way to fail but that the store cannot be written, it has printed nothing and the disk
is as before. Without remembering the disk is as before in any case. A strict run fails at the analysis
exactly if its text cannot be analysed from the selection that is remembered, and if it succeeds it does
what it does when it is not strict. A run that remembers and succeeds changes nothing but the file of
the store and its directory, and in the store nothing but the selection of this manifest. -/
theorem outcome_leaves_no_trace (r : LocateRequest) (c : Config) (d : Disk) :
    (∀ e, Refused r c d e ↔ r.run c d = .error e ∧ ¬ IsUnsaved e) ∧
    (∀ e, Refused r c d e → r.outcome c d = .failed d e.failure) ∧
    (r.remember = false → (r.outcome c d).disk = d) ∧
    (∀ e, r.run c d = .error (.unanalysable r.file e) ↔ r.strict = true ∧ Unanalysable r c d e) ∧
    ∀ result, r.run c d = .ok result →
      r.outcome c d = .done result.disk (r.options.listing c [result.view]) ∧
      (lenient r).outcome c d = r.outcome c d ∧
      (DirAt d.tree d.here → r.remember = true →
        ∃ root target s m, Kept r d result.disk result.view.located.selection? root target s m) :=
  ⟨fun _ => refused_iff, fun _ => outcome_of_refused, disk_of_forgets, fun _ => run_eq_unanalysable_iff,
    fun _ h => ⟨LocateRequest.outcome_of_ok h, outcome_lenient h, fun hhere hremember =>
      kept_of_run hhere hremember h⟩⟩

/-! ### Two runs on a repository with a store -/

/-- A text that ends inside a list. -/
def brokenText : String := "a: ["

/-- Why it cannot be analysed. -/
def brokenError : Yaml.Error := .malformed ⟨.nodeExpected, ⟨4, 2, 0⟩⟩

/-- What the store has before the runs, for another manifest. -/
def earlierMap : Selections := Selections.empty.insert "/n" ⟨"z", 3⟩

/-- A run that remembers and is strict. -/
def strictRequest : LocateRequest := ⟨some (.ofText "m"), ⟨none, none, false⟩, true, true⟩

theorem load_sampleDisk (content : String) {m : Selections} (hm : Fits m) :
    Store.load (sampleDisk content (some m) []) (sampleDisk content (some m) []).workspace =
      .ok ⟨ofNames [], m⟩ := by
  rw [workspace_of_inside (inside_top content (some m)),
    load_of_readBytes (readBytes_store content [] m)]
  exact if_pos hm

/-- A strict run over a broken text leaves the store as it is. A run that selects an application puts it
in the store, beside what is there for another manifest. -/
theorem outcome_leaves_no_trace_twice :
    strictRequest.outcome .builtIn (sampleDisk brokenText (some earlierMap) []) =
      .failed (sampleDisk brokenText (some earlierMap) [])
        (LocateRequest.Error.unanalysable (.ofText "m") brokenError).failure ∧
    ∃ result, (sampleRequest (.ofText "m") (some "b")).run .builtIn
        (sampleDisk sampleText (some earlierMap) []) = .ok result ∧
      ∃ root target s m, Kept (sampleRequest (.ofText "m") (some "b")) (sampleDisk sampleText (some earlierMap) [])
        result.disk (some ⟨"b", 26⟩) root target s m ∧
        m.get? "/m" = some ⟨"b", 26⟩ ∧ m.get? "/n" = some ⟨"z", 3⟩ := by
  have hfits : Fits earlierMap := fits_insert fits_empty "/n" (by decide)
  constructor
  · have hread : (sampleDisk brokenText (some earlierMap) []).read (.ofText "m") = .ok brokenText :=
      (isFileAt_here brokenText _).read
    have hlocate : Locator.locate? ⟨none⟩ (.ofText brokenText)
        (Store.get? (sampleDisk brokenText (some earlierMap) []) ⟨ofNames [], earlierMap⟩
          (.ofText "m")) = .error brokenError := by
      rw [Store.get?, (isFileAt_here brokenText _).key]
      decide +kernel
    have hrefused : Refused strictRequest .builtIn (sampleDisk brokenText (some earlierMap) [])
        (.unanalysable strictRequest.file brokenError) :=
      .analysis rfl ⟨_, _, hread, .stored rfl (load_sampleDisk brokenText hfits), hlocate⟩
    exact (outcome_leaves_no_trace strictRequest .builtIn _).2.1 _ hrefused
  · have hin := inside_top sampleText (some earlierMap)
    have hload := load_sampleDisk sampleText hfits
    have hselection : ((Config.builtIn.locator (some "b")).locate (.ofText sampleText)
        (earlierMap.get? (ofNames [manifest]).text)).selection? = some ⟨"b", 26⟩ := by decide +kernel
    have hopened := hload
    rw [workspace_of_inside hin] at hopened
    obtain ⟨run, hrequest, hconfig, hbefore, htext, hfile, -⟩ :=
      exists_sampleRun hin (isFileAt_here sampleText _) hopened hselection
    have hsucceeds := run.succeeds
    have hlocated : run.result.view.located.selection? = some ⟨"b", 26⟩ := by
      obtain ⟨s, hs, hlocated, -⟩ := run.opens (hbefore ▸ hin)
      rw [hbefore, hopened] at hs
      obtain rfl := Except.ok.inj hs
      change run.located.selection? = _
      rw [hlocated, Run.locator, hconfig, hrequest, htext, hfile]
      exact hselection
    rw [hrequest, hconfig, hbefore] at hsucceeds
    obtain ⟨root, target, s, m, hkept⟩ :=
      ((outcome_leaves_no_trace (sampleRequest (.ofText "m") (some "b")) .builtIn _).2.2.2.2 _ hsucceeds).2.2
        ⟨_, rfl⟩ rfl
    rw [hlocated] at hkept
    obtain rfl : ⟨ofNames [], earlierMap⟩ = s := Except.ok.inj (hload.symm.trans hkept.opened)
    have hkey : Store.key (sampleDisk sampleText (some earlierMap) []) (.ofText "m") = "/m" :=
      (isFileAt_here sampleText _).key.trans text_manifest
    have hget : ∀ key, m.get? key = if "/m" = key then some ⟨"b", 26⟩ else earlierMap.get? key :=
      hkey ▸ hkept.get?_eq
    refine ⟨_, hsucceeds, root, target, _, m, hkept, ?_, ?_⟩
    · rw [hget, if_pos rfl]
    · rw [hget, if_neg (by decide)]
      decide

end Manifest.Proofs.Remembering.Traces
