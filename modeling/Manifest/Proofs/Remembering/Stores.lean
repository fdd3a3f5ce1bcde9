import Manifest.Proofs.Remembering.Histories

/-! # Stores over any number of steps

A store is made anew, opened, changed and saved in any order, and in between anything may happen on the
disk but to the store's file. What it holds for a key is what the last step that speaks of the key has
said (`given?`), where opening goes back to the last save (`saved?`) and making a store anew to nothing.
The disk always holds the text of the selections that were saved last (`Holds`), so opening never fails
(`Follows.load`). Main statement: `reached_eq_map`. -/

namespace Manifest.Proofs.Remembering.Stores

open Manifest.Proofs.Disks.Following Manifest.Proofs.Disks.Names Manifest.Proofs.Disks.Writing
open Manifest.Proofs.SelectionMap Manifest.Proofs.Remembering.Runs

/-! ### Steps -/

/-- What can be done with a store. -/
inductive Step
  | anew
  | reopen
  | set (manifest : Path) (selection : Selection)
  | remove (manifest : Path)
  | save

namespace Step

/-- The store after a step. A store that cannot be opened stays as it is. -/
def take (d : Disk) (s : Store) : Step → Store
  | anew => .new s.root
  | reopen =>
    match Store.load d s.root with
    | .ok t => t
    | .error _ => s
  | set manifest selection => s.set d manifest selection
  | remove manifest => (s.takeOut d manifest).2
  | save => s

/-- The disk after a step. -/
def leave (d : Disk) (s : Store) : Step → Except Store.Error Disk
  | save => s.save d
  | _ => .ok d

/-- The path that a step names. -/
def path? : Step → Option Path
  | set manifest _ => some manifest
  | remove manifest => some manifest
  | _ => none

/-- What a step stores can be an offset of 64 bits. -/
def Fits : Step → Prop
  | set _ selection => selection.start < Text.wordCount
  | _ => True

end Step

/-! ### What the steps say -/

/-- The canonical form of a path on a disk is the given one; a path that leads nowhere has none. -/
def HasForm (form : Path → Option Path) (d : Disk) (p : Path) : Prop :=
  (d.canonical p).toOption = form p

/-- The key of a path: its canonical form, or the path as it is written if it has none. -/
def label (form : Path → Option Path) (p : Path) : String := ((form p).getD p).text

mutual

/-- The selection that the steps, of which the last one stands in front, have given to a key. -/
def given? (form : Path → Option Path) (key : String) : List Step → Option Selection
  | [] => none
  | .anew :: _ => none
  | .reopen :: earlier => saved? form key earlier
  | .set p s :: earlier => if label form p = key then some s else given? form key earlier
  | .remove p :: earlier => if label form p = key then none else given? form key earlier
  | .save :: earlier => given? form key earlier

/-- The selection that a key had at the last save. -/
def saved? (form : Path → Option Path) (key : String) : List Step → Option Selection
  | [] => none
  | .save :: earlier => given? form key earlier
  | .anew :: earlier => saved? form key earlier
  | .reopen :: earlier => saved? form key earlier
  | .set _ _ :: earlier => saved? form key earlier
  | .remove _ :: earlier => saved? form key earlier

end

/-! ### What steps lead to -/

/-- The file of the store at a root. -/
def fileOf (root : Path) : Path := (Store.new root).path

/-- The store's file has not been touched: it is still missing, or still has its content. -/
structure Untouched (file : Path) (d e : Disk) : Prop where
  missing : d.pathExists file = false → e.pathExists file = false
  kept : ∀ content, d.readBytes file = .ok content → e.readBytes file = .ok content

/-- Steps at a root, the last one in front, lead to a store in memory and a disk. At first there is no
file. Between the steps anything may happen to the disk but to the store's file, as long as every path
keeps its canonical form. All saves succeed. -/
inductive Reached (root : Path) (form : Path → Option Path) : List Step → Store → Disk → Prop
  | start {d : Disk} (hnone : d.pathExists (fileOf root) = false) :
      Reached root form [] (.new root) d
  | meanwhile {steps : List Step} {s : Store} {d e : Disk} (h : Reached root form steps s d)
      (hfile : Untouched (fileOf root) d e) : Reached root form steps s e
  | step {steps : List Step} {s : Store} {d e : Disk} (h : Reached root form steps s d) (step : Step)
      (hform : ∀ p ∈ step.path?, HasForm form d p) (hfits : step.Fits)
      (hleave : step.leave d s = .ok e) : Reached root form (step :: steps) (step.take d s) e

/-- The file holds the selections, or is missing and there are none. -/
def Holds (file : Path) (d : Disk) (m : Selections) : Prop :=
  d.pathExists file = false ∧ m = .empty ∨ d.readBytes file = .ok m.print.toUTF8

variable {root : Path} {form : Path → Option Path} {steps : List Step} {s : Store} {d e : Disk}
  {m : Selections}

theorem key_eq_label {p : Path} (h : HasForm form d p) : Store.key d p = label form p := by
  rw [label, ← h, Store.key]
  cases d.canonical p <;> rfl

theorem untouched_of_readBytes {file : Path} {content : ByteArray}
    (h : d.readBytes file = .ok content) (h' : e.readBytes file = .ok content) :
    Untouched file d e where
  missing hnone := by
    obtain ⟨place, hfind⟩ := find_of_readBytes h
    rw [Disk.pathExists, hfind] at hnone
    cases hnone
  kept other hother := by
    rw [h] at hother
    rw [h', hother]

theorem holds_of_untouched (h : Holds (fileOf root) d m) (hfile : Untouched (fileOf root) d e) :
    Holds (fileOf root) e m := by
  rcases h with ⟨hnone, hm⟩ | hread
  · exact .inl ⟨hfile.missing hnone, hm⟩
  · exact .inr (hfile.kept _ hread)

theorem load_of_holds (h : Holds (fileOf root) d m) (hm : Fits m) :
    Store.load d root = .ok ⟨root, m⟩ := by
  rcases h with ⟨hnone, rfl⟩ | hread
  · exact load_of_missing hnone
  · exact (load_of_readBytes hread).trans (if_pos hm)

/-- What was saved is in the file, byte for byte. -/
theorem readBytes_of_save (h : s.save d = .ok e) :
    e.readBytes (fileOf s.root) = .ok s.selections.print.toUTF8 := by
  obtain ⟨d₁, -, hwrite⟩ := exists_write_of_save h
  exact readBytes_of_write (parts_child_ne_nil _ _) hwrite

/-! ### All steps -/

/-- What holds of a store and a disk after any steps. -/
structure Follows (root : Path) (form : Path → Option Path) (steps : List Step) (s : Store)
    (d : Disk) : Prop where
  root_eq : s.root = root
  fits : Fits s.selections
  get?_eq : ∀ key, s.selections.get? key = given? form key steps
  saved : ∃ m, Holds (fileOf root) d m ∧ Fits m ∧ ∀ key, m.get? key = saved? form key steps

theorem Follows.load (h : Follows root form steps s d) :
    ∃ t, Store.load d root = .ok t ∧ t.root = root ∧ Fits t.selections ∧
      ∀ key, t.selections.get? key = saved? form key steps := by
  obtain ⟨m, hholds, hfits, hget⟩ := h.saved
  exact ⟨_, load_of_holds hholds hfits, rfl, hfits, hget⟩

/-- A step that leaves the disk as it is leaves what was saved. -/
theorem Follows.saved_of_eq (h : Follows root form steps s d) {step : Step}
    (hsaved : ∀ key, saved? form key (step :: steps) = saved? form key steps) :
    ∃ m, Holds (fileOf root) d m ∧ Fits m ∧
      ∀ key, m.get? key = saved? form key (step :: steps) := by
  obtain ⟨m, hholds, hfits, hget⟩ := h.saved
  exact ⟨m, hholds, hfits, fun key => (hget key).trans (hsaved key).symm⟩

/-- **One step** changes the store and the disk as it says. -/
theorem Follows.step (h : Follows root form steps s d) {step : Step}
    (hform : ∀ p ∈ step.path?, HasForm form d p) (hfits : step.Fits)
    (hleave : step.leave d s = .ok e) : Follows root form (step :: steps) (step.take d s) e := by
  cases step with
  | anew =>
    obtain rfl : d = e := Except.ok.inj hleave
    exact ⟨h.root_eq, fits_empty, fun key => by rw [given?]; rfl, h.saved_of_eq fun key => by rw [saved?]⟩
  | reopen =>
    obtain rfl : d = e := Except.ok.inj hleave
    obtain ⟨t, hload, hroot, ht, hget⟩ := h.load
    have htake : Step.reopen.take d s = t := by rw [Step.take, h.root_eq, hload]
    rw [htake]
    exact ⟨hroot, ht, fun key => by rw [hget, given?], h.saved_of_eq fun key => by rw [saved?]⟩
  | set p selection =>
    obtain rfl : d = e := Except.ok.inj hleave
    refine ⟨h.root_eq, fits_insert h.fits _ hfits, fun key => ?_,
      h.saved_of_eq fun key => by rw [saved?]⟩
    rw [given?, ← h.get?_eq, ← key_eq_label (hform p rfl)]
    exact get?_insert s.selections _ selection key
  | remove p =>
    obtain rfl : d = e := Except.ok.inj hleave
    refine ⟨h.root_eq, fits_erase h.fits _, fun key => ?_, h.saved_of_eq fun key => by rw [saved?]⟩
    rw [given?, ← h.get?_eq, ← key_eq_label (hform p rfl)]
    exact get?_erase s.selections _ key
  | save =>
    have hread := readBytes_of_save hleave
    rw [h.root_eq] at hread
    refine ⟨h.root_eq, h.fits, fun key => by rw [given?, ← h.get?_eq]; rfl,
      s.selections, .inr hread, h.fits, fun key => by rw [saved?, h.get?_eq]⟩

/-- **Any steps**: the store holds what they say, and the disk what they have saved. -/
theorem Reached.follows (h : Reached root form steps s d) : Follows root form steps s d := by
  induction h with
  | start hnone =>
    exact ⟨rfl, fits_empty, fun key => by rw [given?]; rfl,
      .empty, .inl ⟨hnone, rfl⟩, fits_empty, fun key => by rw [saved?]; rfl⟩
  | meanwhile h hfile ih =>
    obtain ⟨m, hholds, hm⟩ := ih.saved
    exact ⟨ih.root_eq, ih.fits, ih.get?_eq, m, holds_of_untouched hholds hfile, hm⟩
  | step h step hform hfits hleave ih => exact ih.step hform hfits hleave

/-- What saving leaves in the file tells the selections, and nothing else plays a part. -/
theorem readBytes_eq_iff {root' : Path} {s' : Store} {d' e' : Disk} (hs : Fits s.selections)
    (hs' : Fits s'.selections) (h : s.save d = .ok e) (h' : s'.save d' = .ok e')
    (hroot : s.root = root) (hroot' : s'.root = root') :
    e.readBytes (fileOf root) = e'.readBytes (fileOf root') ↔
      ∀ key, s.selections.get? key = s'.selections.get? key := by
  have hread := readBytes_of_save h
  have hread' := readBytes_of_save h'
  rw [hroot] at hread
  rw [hroot'] at hread'
  constructor
  · intro heq key
    rw [hread, hread'] at heq
    have htext : s.selections.print = s'.selections.print := by
      have hdecode := congrArg Disk.decode (Except.ok.inj heq)
      rw [decode_toUTF8, decode_toUTF8] at hdecode
      exact Except.ok.inj hdecode
    rw [print_inj hs hs' htext]
  · intro hget
    rw [hread, hread', eq_of_get? hget]

/-- **A store is a map that outlasts its process.** Whatever steps have led to it, what it has for a
path is what the last step on the key of that path has given. Opening succeeds and gives back what was
held at the last save. What is taken out is what was there, and all other keys stay as they are. What
two saves leave in their files is the same exactly if the two maps are the same. -/
theorem reached_eq_map (h : Reached root form steps s d) :
    (∀ p, HasForm form d p → s.get? d p = given? form (label form p) steps) ∧
    (∃ t, Store.load d root = .ok t ∧ ∀ key, t.selections.get? key = saved? form key steps) ∧
    (∀ p, HasForm form d p → (s.takeOut d p).1 = given? form (label form p) steps ∧
      ∀ key, (s.takeOut d p).2.selections.get? key =
        if label form p = key then none else s.selections.get? key) ∧
    ∀ {root' : Path} {form' : Path → Option Path} {steps' : List Step} {s' : Store} {d' e e' : Disk},
      Reached root' form' steps' s' d' → s.save d = .ok e → s'.save d' = .ok e' →
        (e.readBytes (fileOf root) = e'.readBytes (fileOf root') ↔
          ∀ key, given? form key steps = given? form' key steps') := by
  have hs := h.follows
  have hget : ∀ p, HasForm form d p → s.get? d p = given? form (label form p) steps := by
    intro p hp
    rw [Store.get?, hs.get?_eq, key_eq_label hp]
  refine ⟨hget, ?_, fun p hp => ⟨hget p hp, fun key => ?_⟩, ?_⟩
  · obtain ⟨t, hload, -, -, ht⟩ := hs.load
    exact ⟨t, hload, ht⟩
  · rw [← key_eq_label hp]
    exact get?_erase s.selections _ key
  · intro root' form' steps' s' d' e e' h' hsave hsave'
    have hs' := h'.follows
    rw [readBytes_eq_iff hs.fits hs'.fits hsave hsave' hs.root_eq hs'.root_eq]
    simp only [hs.get?_eq, hs'.get?_eq]

/-! ### A store that is left and opened again -/

section

open Manifest.Path Manifest.Proofs.Remembering.Histories

/-- The canonical forms of two paths to one manifest, seen from two directories. -/
def sampleForm (p : Path) : Option Path :=
  if p = .ofText "m" ∨ p = .ofText "../m" then some (.ofNames [manifest]) else none

/-- A selection with characters that JSON escapes and the greatest start. -/
def sampleSelection : Selection := ⟨"a\"\n\\é", 18446744073709551615⟩

/-- The map with this selection. -/
def sampleMap : Selections := Selections.empty.insert "/m" sampleSelection

/-- A selection is set, saved and removed, and the store is made anew and opened again. -/
def sampleSteps : List Step :=
  [.reopen, .anew, .remove (.ofText "m"), .save, .set (.ofText "m") sampleSelection]

theorem hasForm_m (store? : Option Selections) :
    HasForm sampleForm (sampleDisk "" store? []) (.ofText "m") := by
  rw [HasForm, (isFileAt_here "" store?).canonical]
  rfl

theorem hasForm_above (store? : Option Selections) :
    HasForm sampleForm (sampleDisk "" store? [lower]) (.ofText "../m") := by
  rw [HasForm, (isFileAt_above "" store?).canonical]
  rfl

/-- The removal was not saved, so the selection is there again, also under another path. -/
theorem reached_eq_map_reopened : ∃ s d, Reached (.ofNames []) sampleForm sampleSteps s d ∧
    HasForm sampleForm d (.ofText "../m") ∧
    s.get? d (.ofText "../m") = some sampleSelection := by
  have hnone : (sampleDisk "" none []).pathExists (fileOf (.ofNames [])) = false :=
    pathExists_of_leads (leads_store "" none)
  have hkey : Store.key (sampleDisk "" none []) (.ofText "m") = "/m" := by
    rw [key_eq_label (hasForm_m none)]
    decide +kernel
  have hset : Reached (ofNames []) sampleForm [.set (.ofText "m") sampleSelection]
      ⟨ofNames [], sampleMap⟩ (sampleDisk "" none []) := by
    have hstart : Reached (ofNames []) sampleForm [] (.new (ofNames [])) (sampleDisk "" none []) :=
      .start hnone
    have hfits : sampleSelection.start < Text.wordCount := by decide
    have h := hstart.step (.set (.ofText "m") sampleSelection)
      (fun p hp => by cases hp; exact hasForm_m none) hfits rfl
    rw [Step.take, Store.set, hkey] at h
    exact h
  have hsaved := hset.step .save (fun p hp => by cases hp) trivial
    (save_sampleTree "" none [] sampleMap)
  have hremoved := hsaved.step (.remove (.ofText "m")) (fun p hp => by cases hp; exact hasForm_m _)
    trivial rfl
  have hanew := hremoved.step .anew (fun p hp => by cases hp) trivial rfl
  have hmoved := untouched_of_readBytes (readBytes_store "" [] sampleMap)
    (readBytes_store "" [lower] sampleMap)
  have hreopened := (hanew.meanwhile hmoved).step .reopen (fun p hp => by cases hp) trivial rfl
  refine ⟨_, _, hreopened, hasForm_above _, ?_⟩
  exact ((reached_eq_map hreopened).1 _ (hasForm_above _)).trans (by decide +kernel)

end

end Manifest.Proofs.Remembering.Stores
