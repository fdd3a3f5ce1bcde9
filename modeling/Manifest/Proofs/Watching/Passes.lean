import Manifest.Proofs.Continuity
import Manifest.Proofs.Disks.Writing
import Manifest.Proofs.Sessions
import Manifest.Watch

/-! # Passes that fail

A pass over a file reads a text there or fails. What it reads is said by what stands at the path
(`read_eq_ok_iff`), and so is why it fails (`read_eq_error_iff`): nothing can be found there, or no
file, or the file holds no text.

A pass that fails leaves the watcher as it was. So the passes that do not fail are those of a session
over the texts that could be read (`trace_readings`), whatever lies between them, and a text that
comes back unchanged brings no change (`failed_passes_vanish`). A text that is no manifest can be
read all the same, and then the session forgets what it has found. -/

namespace Manifest.Proofs.Watching.Passes

open Manifest.Proofs.Continuity Manifest.Proofs.Disks.Following Manifest.Proofs.Disks.Writing
open Manifest.Proofs.Sessions

/-! ### What stands at a path -/

/-- The path leads to a file with a text. -/
def Holds (d : Disk) (p : Path) (text : String) : Prop :=
  ∃ place, d.find p = .ok (place, .file text.toUTF8)

/-- No text can be read at the path, and this is the reason. -/
inductive Unreadable (d : Disk) (p : Path) : Disk.Error → Prop
  | lost {e : Disk.Error} (h : d.find p = .error e) : Unreadable d p e
  | notFile {place : List Name} {t : FileTree} (h : d.find p = .ok (place, t))
      (hfile : ∀ content, t ≠ .file content) : Unreadable d p .isDirectory
  | notText {place : List Name} {content : ByteArray} (h : d.find p = .ok (place, .file content))
      (htext : ∀ text : String, content ≠ text.toUTF8) : Unreadable d p .notUtf8

variable {d : Disk} {p : Path} {text : String} {e : Disk.Error}

theorem decode_eq_ok_iff {content : ByteArray} :
    Disk.decode content = .ok text ↔ content = text.toUTF8 := by
  constructor
  · intro h
    rw [Disk.decode, String.fromUTF8?] at h
    split_ifs at h with hvalid
    · obtain rfl := Except.ok.inj h
      rfl
  · rintro rfl
    exact decode_toUTF8 text

theorem decode_eq_error_iff {content : ByteArray} :
    Disk.decode content = .error e ↔ e = .notUtf8 ∧ ∀ text : String, content ≠ text.toUTF8 := by
  constructor
  · intro h
    have hnot : ∀ text : String, content ≠ text.toUTF8 := fun text htext => by
      rw [decode_eq_ok_iff.mpr htext] at h
      cases h
    rw [Disk.decode] at h
    split at h
    · cases h
    · exact ⟨(Except.error.inj h).symm, hnot⟩
  · rintro ⟨rfl, hnot⟩
    cases hdecode : Disk.decode content with
    | ok text => exact absurd (decode_eq_ok_iff.mp hdecode) (hnot text)
    | error e =>
      rw [Disk.decode] at hdecode
      split at hdecode
      · cases hdecode
      · rw [Except.error.inj hdecode]

theorem read_of_file {place : List Name} {content : ByteArray}
    (h : d.find p = .ok (place, .file content)) : d.read p = Disk.decode content := by
  rw [Disk.read, Disk.readBytes, h]
  rfl

theorem read_of_notFile {place : List Name} {t : FileTree} (h : d.find p = .ok (place, t))
    (hfile : ∀ content, t ≠ .file content) : d.read p = .error .isDirectory := by
  rw [Disk.read, Disk.readBytes, h]
  cases t with
  | file content => exact absurd rfl (hfile content)
  | link target => rfl
  | dir children => rfl

theorem read_of_lost (h : d.find p = .error e) : d.read p = .error e := by
  rw [Disk.read, Disk.readBytes, h]
  rfl

/-- **A text is read exactly where a file holds it.** -/
theorem read_eq_ok_iff : d.read p = .ok text ↔ Holds d p text := by
  constructor
  · intro h
    obtain ⟨content, hbytes⟩ := readBytes_of_read h
    obtain ⟨place, hfind⟩ := find_of_readBytes hbytes
    rw [read_of_file hfind, decode_eq_ok_iff] at h
    exact ⟨place, h ▸ hfind⟩
  · rintro ⟨place, hfind⟩
    rw [read_of_file hfind, decode_eq_ok_iff]

/-- **Reading fails exactly where no text can be read.** -/
theorem read_eq_error_iff : d.read p = .error e ↔ Unreadable d p e := by
  constructor
  · intro h
    cases hfind : d.find p with
    | error lost =>
      rw [read_of_lost hfind] at h
      exact Except.error.inj h ▸ .lost hfind
    | ok found =>
      obtain ⟨place, t⟩ := found
      by_cases hfile : ∃ content, t = .file content
      · obtain ⟨content, rfl⟩ := hfile
        rw [read_of_file hfind, decode_eq_error_iff] at h
        exact h.1 ▸ .notText hfind h.2
      · have hnot : ∀ content, t ≠ .file content := fun content ht => hfile ⟨content, ht⟩
        rw [read_of_notFile hfind hnot] at h
        exact Except.error.inj h ▸ .notFile hfind hnot
  · intro h
    cases h with
    | lost h => exact read_of_lost h
    | notFile h hfile => exact read_of_notFile h hfile
    | notText h htext => rw [read_of_file h, decode_eq_error_iff]; exact ⟨rfl, htext⟩

/-! ### One pass -/

variable {w : Watcher}

theorem look_of_ok (h : d.read w.path = .ok text) :
    w.look d = (.ok (w.session.reconcile (.ofText text) none).1,
      { w with session := (w.session.reconcile (.ofText text) none).2 }) := by
  rw [Watcher.look, Watcher.pass, h]

theorem look_of_error (h : d.read w.path = .error e) :
    w.look d = (.error (.unreadable w.path e), w) := by
  rw [Watcher.look, Watcher.pass, h]

theorem path_look (w : Watcher) (d : Disk) : (w.look d).2.path = w.path := by
  cases h : d.read w.path with
  | ok text => rw [look_of_ok h]
  | error e => rw [look_of_error h]

/-! ### Many passes -/

/-- The watcher behind passes over the file as it stands on one disk after the other. -/
def after (w : Watcher) (disks : List Disk) : Watcher := disks.foldl (fun w d => (w.look d).2) w

/-- What these passes give. -/
def results (w : Watcher) : List Disk → List (Except Watcher.Error Pass)
  | [] => []
  | d :: disks => (w.look d).1 :: results (w.look d).2 disks

/-- The passes that have not failed. -/
def successes (w : Watcher) (disks : List Disk) : List Pass :=
  (results w disks).filterMap Except.toOption

/-- The steps of a session over the texts that can be read. -/
def readings (p : Path) (disks : List Disk) : List Step :=
  (disks.filterMap fun d => (d.read p).toOption).map fun text => .reconcile (.ofText text) none

theorem readings_of_ok (h : d.read p = .ok text) (disks : List Disk) :
    readings p (d :: disks) = .reconcile (.ofText text) none :: readings p disks := by
  rw [readings, List.filterMap_cons, h]
  rfl

theorem readings_of_error (h : d.read p = .error e) (disks : List Disk) :
    readings p (d :: disks) = readings p disks := by
  rw [readings, List.filterMap_cons, h]
  rfl

theorem path_after (w : Watcher) (disks : List Disk) : (after w disks).path = w.path := by
  induction disks generalizing w with
  | nil => rfl
  | cons d disks ih => exact (ih _).trans (path_look w d)

theorem after_of_unreadable (w : Watcher) {disks : List Disk}
    (h : ∀ d ∈ disks, ∃ e, Unreadable d w.path e) : after w disks = w := by
  induction disks with
  | nil => rfl
  | cons d disks ih =>
    obtain ⟨e, he⟩ := h d List.mem_cons_self
    rw [after, List.foldl_cons, look_of_error (read_eq_error_iff.mpr he)]
    exact ih fun d hd => h d (List.mem_cons_of_mem _ hd)

/-- **The passes that do not fail are those of a session over the texts that can be read**, and the
session is left as these leave it. -/
theorem trace_readings (w : Watcher) (disks : List Disk) :
    (successes w disks).map some = trace w.session (readings w.path disks) ∧
      (after w disks).session = run w.session (readings w.path disks) := by
  induction disks generalizing w with
  | nil => exact ⟨rfl, rfl⟩
  | cons d disks ih =>
    obtain ⟨htrace, hrun⟩ := ih (w.look d).2
    rw [path_look] at htrace hrun
    rw [successes] at htrace ⊢
    rw [results, List.filterMap_cons, after, List.foldl_cons]
    cases h : d.read w.path with
    | ok text =>
      rw [readings_of_ok h]
      rw [look_of_ok h] at htrace hrun ⊢
      exact ⟨congrArg (some _ :: ·) htrace, hrun⟩
    | error e =>
      rw [readings_of_error h]
      rw [look_of_error h] at htrace hrun ⊢
      exact ⟨htrace, hrun⟩

/-- A text that is read again, after nothing but failures, brings no change. -/
theorem look_again (w : Watcher) {d d' : Disk} {lost : List Disk} (h : d.read w.path = .ok text)
    (hlost : ∀ x ∈ lost, ∃ e, Unreadable x w.path e) (h' : d'.read w.path = .ok text) :
    ((after w (d :: lost)).look d').1 =
      .ok ⟨(after w [d]).session.current, ⟨[], [], .unchanged⟩⟩ := by
  have hafter : after w (d :: lost) = after w [d] :=
    after_of_unreadable (w.look d).2 (by rwa [path_look])
  have hsession : (after w [d]).session = (w.session.reconcile (.ofText text) none).2 := by
    rw [after, List.foldl_cons, List.foldl_nil, look_of_ok h]
  have hread : d'.read (after w [d]).path = .ok text := by rw [path_after]; exact h'
  rw [hafter, look_of_ok hread, hsession, reconcile_reconcile]

/-- **Failed passes leave no trace.** Take a new watcher with any passes behind it, whatever stood at
the path each time. A pass that finds no text there fails, for the reason that what stands there gives,
and leaves the watcher as it was. The passes that did not fail have told what a new session of the same
locator tells about the texts that could be read, one after the other, and its session is that one. So
if the same text is read before and after any number of passes that find none, nothing has changed. -/
theorem failed_passes_vanish (path : Path) (l : Locator) (disks : List Disk) :
    let w := after (.start path l) disks
    (∀ d e, Unreadable d path e → w.look d = (.error (.unreadable path e), w)) ∧
    (∀ d, (∃ e, Unreadable d path e) ↔ ¬ ∃ text, Holds d path text) ∧
    (successes (.start path l) disks).map some = trace (.start l) (readings path disks) ∧
    w.session = run (.start l) (readings path disks) ∧
    ∀ d lost d' text, Holds d path text → (∀ x ∈ lost, ∃ e, Unreadable x path e) →
      Holds d' path text → ((after w (d :: lost)).look d').1 =
        .ok ⟨(after w [d]).session.current, ⟨[], [], .unchanged⟩⟩ := by
  intro w
  have hpath : w.path = path := path_after _ _
  obtain ⟨htrace, hrun⟩ := trace_readings (.start path l) disks
  refine ⟨fun d e h => ?_, fun d => ?_, htrace, hrun, fun d lost d' text h hlost h' => ?_⟩
  · have herror : d.read w.path = .error e := by rw [hpath]; exact read_eq_error_iff.mpr h
    rw [look_of_error herror, hpath]
  · simp only [← read_eq_ok_iff, ← read_eq_error_iff]
    cases d.read path <;> simp
  · rw [← hpath] at h hlost h'
    exact look_again w (read_eq_ok_iff.mpr h) hlost (read_eq_ok_iff.mpr h')

theorem isName_manifest : (Part.ofText "manifest.yml").isName = true := by decide

/-- The name of a manifest. -/
def manifestName : Name := .ofText "manifest.yml" isName_manifest

/-- The path of a manifest in the working directory. -/
def manifestPath : Path := ⟨.bare, [manifestName.part]⟩

/-- A disk with something at `manifestPath`. -/
def diskWith (t : FileTree) (h : (FileTree.dir [(manifestName, t)]).isDistinct = true := by rfl) :
    Disk := ⟨.dir [(manifestName, t)], [], h⟩

/-- A manifest with two applications. -/
def sampleText : String := "applications: [\x7bname: a\x7d, \x7bname: b\x7d]"

/-- The manifest is gone, then a directory stands in its place, then bytes that are no text. -/
def lostDisks : List Disk :=
  [⟨.emptyDir, [], FileTree.isDistinct_emptyDir⟩, diskWith .emptyDir, diskWith (.file ⟨#[0xff]⟩)]

theorem find_diskWith {t : FileTree} {h : (FileTree.dir [(manifestName, t)]).isDistinct = true}
    (ht : ∀ target, t ≠ .link target) :
    (diskWith t h).find manifestPath = .ok ([manifestName], t) := by
  have hat : (diskWith t h).tree.at? [manifestName] = some t := by
    simp [diskWith, FileTree.at?, FileTree.child?]
  have hsolid : Solid (diskWith t h).tree [manifestName] := ⟨t, hat, ht⟩
  exact find_of_leads (by decide) (by decide) (by decide)
    (.into manifestName ⟨_, rfl⟩ hsolid (hat ▸ .done hsolid))

theorem unreadable_lostDisks : ∀ d ∈ lostDisks, ∃ e, Unreadable d manifestPath e := by
  have hgone : (Disk.mk .emptyDir [] rfl).find manifestPath = .error .notFound := by
    rw [Disk.find, resolve_of_leads (by decide) (by decide) (by decide)
      (.missing manifestName ⟨_, rfl⟩ rfl)]
    rfl
  have hbytes : ∀ text : String, (⟨#[0xff]⟩ : ByteArray) ≠ text.toUTF8 := fun text htext => by
    have hdecode : Disk.decode ⟨#[0xff]⟩ = .error .notUtf8 := by decide +kernel
    rw [decode_eq_ok_iff.mpr htext] at hdecode
    cases hdecode
  intro d hd
  simp only [lostDisks, List.mem_cons, List.not_mem_nil, or_false] at hd
  rcases hd with rfl | rfl | rfl
  · exact ⟨_, .lost hgone⟩
  · exact ⟨_, .notFile (find_diskWith (by simp [FileTree.emptyDir])) (by simp [FileTree.emptyDir])⟩
  · exact ⟨_, .notText (find_diskWith (by simp)) hbytes⟩

/-- The first of the two applications stays selected over three passes that fail. -/
theorem failed_passes_vanish_between :
    let w := Watcher.start manifestPath ⟨none⟩
    let d := diskWith (.file sampleText.toUTF8)
    (after w [d]).session.selection? = some ⟨"a", 15⟩ ∧
      ((after w (d :: lostDisks)).look d).1 =
        .ok ⟨(after w [d]).session.current, ⟨[], [], .unchanged⟩⟩ := by
  intro w d
  have hholds : Holds d manifestPath sampleText := ⟨_, find_diskWith (by simp)⟩
  obtain ⟨-, -, -, -, hagain⟩ := failed_passes_vanish manifestPath ⟨none⟩ []
  refine ⟨?_, hagain d lostDisks d sampleText hholds unreadable_lostDisks hholds⟩
  rw [after, List.foldl_cons, List.foldl_nil, look_of_ok (read_eq_ok_iff.mpr hholds)]
  decide +kernel

end Manifest.Proofs.Watching.Passes
