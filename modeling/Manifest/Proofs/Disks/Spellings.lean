import Manifest.Proofs.Disks.Ancestors
import Manifest.Proofs.Disks.Following
import Manifest.Repository
import Mathlib.Data.List.Basic

/-! # Spellings of a path

Where a path with a last name leads is decided by the parts that say something: an idle part in front
of another part finds a directory or fails as that part does (`follow_skip_idle`). So two paths that
say the same are both roots of a repository or neither is (`isRepository_congr`), unless one of them is
too long to be looked up. -/

namespace Manifest.Proofs.Disks.Spellings

open Manifest.Path Manifest.Disk Manifest.Proofs.Disks.Ancestors Manifest.Proofs.Disks.Following
open Manifest.Text (slash dot)

variable {d : Disk} {p q : Path} {tree : FileTree} {m : Manner}

/-! ### Following -/

/-- An idle part can be left out in front of another part. -/
theorem follow_skip_idle {part : Part} {rest : List Part} (hidle : part.isIdle = true)
    (hrest : rest ≠ []) (links : Nat) (place : List Name) (front : List Part) :
    follow tree m links place (front ++ part :: rest) =
      follow tree m links place (front ++ rest) := by
  -- a link is followed with one link less, in front of which its own parts stand
  induction links using Nat.strong_induction_on generalizing place front with
  | h links ihlinks =>
    induction front generalizing place with
    | nil =>
      obtain ⟨next, rest, rfl⟩ := List.exists_cons_of_ne_nil hrest
      rw [List.nil_append, List.nil_append, follow]
      cases hat : tree.at? place with
      | none => rw [follow, hat]
      | some t =>
        cases t with
        | file content => rw [follow, hat]
        | link target => rw [follow, hat]
        | dir children => simp only [stepOf_idle hidle]
    | cons name front ih =>
      have hne : (front ++ part :: rest).isEmpty = false := by simp
      have hne' : (front ++ rest).isEmpty = false := by simp [hrest]
      rw [List.cons_append, List.cons_append, follow, follow]
      cases tree.at? place with
      | none => rfl
      | some t =>
        cases t with
        | file content => rfl
        | link target => rfl
        | dir children =>
          simp only [ih, hne, hne', Bool.false_eq_true, false_and, if_false]
          cases links with
          | zero => rfl
          | succ links =>
            simp only [← List.append_assoc, ihlinks links (Nat.lt_succ_self links)]

/-- **Only the parts that say something decide where a path with a last name leads.** -/
theorem follow_filter_idle (name : Part) (links : Nat) (place : List Name) (front parts : List Part) :
    follow tree m links place (front ++ (parts ++ [name])) =
      follow tree m links place (front ++ (parts.filter (!·.isIdle) ++ [name])) := by
  induction parts generalizing front with
  | nil => rfl
  | cons part parts ih =>
    by_cases hidle : part.isIdle = true
    · rw [List.cons_append, follow_skip_idle hidle (by simp), ih]
      simp [hidle]
    · have hmore := ih (front ++ [part])
      rw [List.append_assoc, List.append_assoc] at hmore
      simpa [hidle] using hmore

/-! ### The entry of a repository -/

/-- A name below a path stands behind parts that say the steps of the path. -/
theorem exists_parts_child (p : Path) (name : Part) : (p.child name).anchor = p.anchor ∧
    ∃ front, (p.child name).parts = front ++ [name] ∧ front.filter (!·.isIdle) = p.steps := by
  unfold child join
  split_ifs with habsolute hlast
  · rcases habsolute with habsolute | rfl
    · cases habsolute
    · exact ⟨rfl, [], rfl, rfl⟩
  · refine ⟨rfl, p.parts.dropLast, rfl, ?_⟩
    obtain ⟨init, hinit⟩ := List.getLast?_eq_some_iff.mp hlast
    rw [steps, hinit, List.dropLast_concat, List.filter_append]
    simp [Part.isIdle]
  · exact ⟨rfl, p.parts, rfl, rfl⟩

theorem mem_joinSlash {b : UInt8} (hb : b ≠ slash) (parts : List Part) :
    b ∈ joinSlash parts ↔ ∃ part ∈ parts, b ∈ part.bytes := by
  induction parts with
  | nil => simp [joinSlash]
  | cons part parts ih =>
    by_cases hnil : parts = []
    · simp [hnil, joinSlash]
    · simp [joinSlash_cons _ hnil, ih, hb]

/-- Which bytes a path holds is said by its steps, slashes and dots apart. -/
theorem mem_bytes {b : UInt8} (hslash : b ≠ slash) (hdot : b ≠ dot) (p : Path) :
    b ∈ p.bytes ↔ ∃ name ∈ p.steps, b ∈ name.bytes := by
  have hjoin : b ∈ p.bytes ↔ b ∈ joinSlash p.parts := by
    unfold Path.bytes
    split
    · simp [hslash]
    · split_ifs with hnil
      · simp [hdot, joinSlash, List.isEmpty_iff.mp hnil]
      · simp [hdot, hslash]
    · rfl
  have hidle : ∀ part : Part, part.isIdle = true → b ∉ part.bytes := by
    intro part hidle
    rcases (by simpa [Part.isIdle] using hidle : part = .empty ∨ part = .here) with rfl | rfl
    · simp [Part.empty]
    · simp [Part.here, hdot]
  rw [hjoin, mem_joinSlash hslash]
  constructor
  · rintro ⟨part, hpart, hmem⟩
    exact ⟨part, by simpa [steps, hpart] using fun h => hidle part h hmem, hmem⟩
  · rintro ⟨name, hname, hmem⟩
    exact ⟨name, (List.mem_filter.mp hname).1, hmem⟩

/-- The entry that makes a directory the root of a repository can be looked up: its path is not too
long. -/
def IsShort (p : Path) : Prop := fits (p.child repositoryEntry) = true

theorem steps_child (p : Path) :
    (p.child repositoryEntry).steps = p.steps ++ [repositoryEntry.part] := by
  obtain ⟨-, front, hparts, hfront⟩ := exists_parts_child p repositoryEntry
  rw [steps, hparts, List.filter_append, hfront]
  rfl

/-- Looking up the entry below a path follows the steps of the path. -/
theorem resolve_child (h : IsShort p) : d.resolve (p.child repositoryEntry) .whole =
    if ∃ part ∈ p.steps ++ [repositoryEntry.part], 0 ∈ part.bytes then .error .nulInPath
    else follow d.tree .whole linkLimit (if p.anchor = .root then [] else d.here)
      (p.steps ++ [repositoryEntry.part]) := by
  obtain ⟨hanchor, front, hparts, hfront⟩ := exists_parts_child p repositoryEntry
  have hnul : (p.child repositoryEntry).bytes.contains 0 = true ↔
      ∃ part ∈ p.steps ++ [repositoryEntry.part], 0 ∈ part.bytes := by
    rw [List.contains_iff_mem, mem_bytes (by decide) (by decide), steps_child]
  have hempty : p.child repositoryEntry ≠ .empty := by
    intro heq
    have hsteps := steps_child p
    rw [heq] at hsteps
    simp [steps, empty, Part.isIdle] at hsteps
  have hfollow := @follow_filter_idle d.tree .whole repositoryEntry linkLimit
    (origin d.here (p.child repositoryEntry)) [] front
  rw [List.nil_append, List.nil_append, hfront, ← hparts] at hfollow
  have horigin : origin d.here (p.child repositoryEntry) = if p.anchor = .root then [] else d.here := by
    rw [origin, isAbsolute, hanchor]
    simp
  have hshort : ¬ (!Manner.whole.spelled && !fits (p.child repositoryEntry)) = true := by
    rw [show fits (p.child repositoryEntry) = true from h]
    decide
  rw [resolve, if_neg hempty, if_neg hshort, hfollow, horigin]
  exact if_congr hnul rfl rfl

/-- **Whether a path is a root does not depend on how it is written**, unless it is too long. -/
theorem isRepository_congr (hp : IsShort p) (hq : IsShort q) (h : components p = components q) :
    d.isRepository p = d.isRepository q := by
  obtain ⟨hanchor, hsteps⟩ := eq_of_components h
  rw [isRepository, isRepository, pathExists, pathExists, find, find, resolve_child hp,
    resolve_child hq, hanchor, hsteps]

end Manifest.Proofs.Disks.Spellings
