import Manifest.Proofs.Sessions
import Mathlib.Data.Finset.Basic
import Mathlib.Data.Finset.Dedup

/-! # Replaying changes

A follower knows a session only by the changes that its passes tell: it keeps a set of entries and a
selection, takes out what a pass has removed, then puts in what it has added, and moves the selection
when it is told to. What one pass tells is enough to go from what was found before to what is found
now (`apply_between`), so a follower of a whole run has at each step the entries and the selection of
the session (`replay_run`). Entries may come twice, so the follower keeps a set. -/

namespace Manifest.Proofs.Replay

open Manifest.Proofs.Sessions

/-! ### Followers -/

/-- What is known of a session from its changes. -/
structure Follower where
  entries : Finset Entry
  selection? : Option Selection

namespace Follower

/-- Nothing is known. -/
def empty : Follower := ⟨∅, none⟩

/-- The selection after a change. -/
def moved (selection? : Option Selection) : SelectionChange → Option Selection
  | .unchanged => selection?
  | .selected s => some s
  | .cleared => none

/-- The removed entries are taken out before the added ones are put in. -/
def apply (f : Follower) (c : Changes) : Follower where
  entries := f.entries \ c.removed.toFinset ∪ c.added.toFinset
  selection? := moved f.selection? c.selection

/-- A pass is followed by its changes; a reset makes the follower forget. -/
def follow (f : Follower) : Option Pass → Follower
  | some pass => f.apply pass.changes
  | none => empty

/-- The follower knows what has been located. -/
structure Knows (f : Follower) (l : Located) : Prop where
  entries : f.entries = l.entries.toFinset
  selection? : f.selection? = l.selection?

theorem knows_empty : empty.Knows .empty := ⟨rfl, rfl⟩

end Follower

/-! ### One pass -/

theorem mem_removed {old new : Located} {e : Entry} :
    e ∈ (Changes.between old new).removed ↔ e ∈ old.entries ∧ e ∉ new.entries := by
  simp [Changes.between]

theorem mem_added {old new : Located} {e : Entry} :
    e ∈ (Changes.between old new).added ↔ e ∈ new.entries ∧ e ∉ old.entries := by
  simp [Changes.between]

/-- The selection is told whenever the selected entries differ, also where only their ends do. -/
theorem moved_selectionBetween (old new : Located) :
    Follower.moved old.selection? (Changes.selectionBetween old new) = new.selection? := by
  unfold Changes.selectionBetween
  split_ifs with hsame
  · exact congrArg (Option.map Entry.selection) hsame
  · cases new.selection? <;> rfl

/-- **The changes lead from what was located before to what is located now.** -/
theorem apply_between {f : Follower} {old : Located} (h : f.Knows old) (new : Located) :
    (f.apply (.between old new)).Knows new where
  entries := by
    ext e
    simp only [Follower.apply, h.entries, Finset.mem_union, Finset.mem_sdiff, List.mem_toFinset,
      mem_removed, mem_added]
    by_cases hnew : e ∈ new.entries <;> by_cases hold : e ∈ old.entries <;> simp [hnew, hold]
  selection? := by
    have hmoved := moved_selectionBetween old new
    rw [← h.selection?] at hmoved
    exact hmoved

/-! ### Runs -/

theorem knows_follow {f : Follower} {s : Session} (h : f.Knows s.current) (step : Step) :
    (f.follow (step.take s).1).Knows (step.take s).2.current := by
  cases htake : (step.take s).1 with
  | none =>
    rw [take_eq_none htake]
    exact Follower.knows_empty
  | some pass =>
    obtain ⟨hcurrent, hchanges⟩ := take_eq_pass htake
    rw [hcurrent, Follower.follow, hchanges]
    exact apply_between h pass.located

theorem knows_run : ∀ (steps : List Step) {f : Follower} {s : Session}, f.Knows s.current →
    ((trace s steps).foldl Follower.follow f).Knows (run s steps).current
  | [], _, _, h => h
  | step :: steps, _, _, h => knows_run steps (knows_follow h step)

/-- What a follower knows after the steps of a run that starts anew. -/
def replay (l : Locator) (steps : List Step) : Follower :=
  (trace (.start l) steps).foldl Follower.follow .empty

/-- **Changes can be replayed.** Whatever steps a session has taken, one who has followed its changes
from the start has exactly its entries and its selection. In each further pass the removed entries
are known and not found any more, the added ones are not known and are found, and they come in the
order of what was found before and of what is found now. -/
theorem replay_run (l : Locator) (steps : List Step) :
    (replay l steps).entries = (run (.start l) steps).current.entries.toFinset ∧
    (replay l steps).selection? = (run (.start l) steps).selection? ∧
    ∀ (step : Step) (pass : Pass), (step.take (run (.start l) steps)).1 = some pass →
      (step.take (run (.start l) steps)).2.current = pass.located ∧
      (∀ e ∈ pass.changes.removed, e ∈ (replay l steps).entries ∧ e ∉ pass.located.entries) ∧
      (∀ e ∈ pass.changes.added, e ∉ (replay l steps).entries ∧ e ∈ pass.located.entries) ∧
      pass.changes.removed.Sublist (run (.start l) steps).current.entries ∧
      pass.changes.added.Sublist pass.located.entries := by
  have hknows : (replay l steps).Knows (run (.start l) steps).current :=
    knows_run steps Follower.knows_empty
  refine ⟨hknows.entries, hknows.selection?, fun step pass hpass => ?_⟩
  obtain ⟨hcurrent, hchanges⟩ := take_eq_pass hpass
  rw [hchanges, hknows.entries]
  refine ⟨hcurrent, fun e he => ?_, fun e he => ?_, List.filter_sublist, List.filter_sublist⟩
  · obtain ⟨hold, hnew⟩ := mem_removed.mp he
    exact ⟨List.mem_toFinset.mpr hold, hnew⟩
  · obtain ⟨hnew, hold⟩ := mem_added.mp he
    exact ⟨fun hmem => hold (List.mem_toFinset.mp hmem), hnew⟩

/-- An application that is gone with a reset, then two of which the second is a copy of the first. -/
def copiedSteps : List Step :=
  [.initial (.ofText "name: x"), .reset,
    .reconcile (.ofText "applications: [&a \x7bname: db\x7d, *a]") none]

/-- The first application ends later, and its copy with it. -/
def stretchedStep : Step :=
  .reconcile (.ofText "applications: [&a \x7bname: db  \x7d, *a]") (some ⟨3, 9, by decide⟩)

/-- Two equal entries that start at offset 18, the first one selected. -/
def copies (stop : Nat) (h : 18 ≤ stop) : Located :=
  .ofEntries [⟨"db", false, ⟨18, stop, h⟩⟩, ⟨"db", false, ⟨18, stop, h⟩⟩] (some 0)

/-- Name and start of the selected entry stay and only its end moves, which is told as a change. -/
theorem replay_copiedSteps :
    (run (.start ⟨none⟩) copiedSteps).current = copies 28 (by decide) ∧
    ∃ pass, (stretchedStep.take (run (.start ⟨none⟩) copiedSteps)).1 = some pass ∧
      pass.located = copies 30 (by decide) ∧
      pass.changes = ⟨(copies 28 (by decide)).entries, (copies 30 (by decide)).entries,
        .selected ⟨"db", 18⟩⟩ ∧
      (∀ e ∈ pass.changes.removed,
        e ∈ (replay ⟨none⟩ copiedSteps).entries ∧ e ∉ pass.located.entries) ∧
      ∀ e ∈ pass.changes.added,
        e ∉ (replay ⟨none⟩ copiedSteps).entries ∧ e ∈ pass.located.entries := by
  have hold : (run (.start ⟨none⟩) copiedSteps).current = copies 28 (by decide) := by decide +kernel
  have hnew : (stretchedStep.take (run (.start ⟨none⟩) copiedSteps)).2.current =
      copies 30 (by decide) := by decide +kernel
  obtain ⟨-, -, hpass⟩ := replay_run ⟨none⟩ copiedSteps
  obtain ⟨hcurrent, hremoved, hadded, -, -⟩ := hpass stretchedStep _ rfl
  obtain ⟨-, hchanges⟩ := @take_eq_pass (run (.start ⟨none⟩) copiedSteps) stretchedStep _ rfl
  rw [hold, ← hcurrent, hnew] at hchanges
  exact ⟨hold, _, rfl, hcurrent.symm.trans hnew, hchanges.trans (by decide), hremoved, hadded⟩

end Manifest.Proofs.Replay
