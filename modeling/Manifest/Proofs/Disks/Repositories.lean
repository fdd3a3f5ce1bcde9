import Mathlib.Data.List.Induction
import Manifest.Proofs.Disks.Following
import Manifest.Proofs.Disks.Names
import Manifest.Repository

/-! # Inside a repository

A working directory is inside a repository if the root of the repository is that directory or lies
above it, with no root of another repository on the way. The repository is then the workspace
(`workspace_of_inside`), no matter how deep inside it the working directory is. In any case the
workspace is the working directory or lies above it (`exists_workspace`). -/

namespace Manifest.Proofs.Disks.Repositories

open Manifest.Disk Manifest.Proofs.Disks.Following Manifest.Proofs.Disks.Names

/-- The working directory is inside the repository at a root and in none that is nearer. -/
structure Inside (root : List Name) (d : Disk) : Prop where
  below : root <+: d.here
  repository : d.isRepository (.ofNames root) = true
  nearest : ∀ more, more ≠ [] → root ++ more <+: d.here →
    d.isRepository (.ofNames (root ++ more)) = false

variable {root : List Name} {d : Disk}

/-- Up from any directory inside the repository, the root that is found is that of the repository. -/
theorem repositoryRoot?_of_inside (h : Inside root d) (more : List Name)
    (hmore : root ++ more <+: d.here) :
    d.repositoryRoot? (.ofNames (root ++ more)) = some (.ofNames root) := by
  induction more using List.reverseRecOn with
  | nil => rw [List.append_nil, repositoryRoot?, if_pos h.repository]
  | append_singleton init last ih =>
    have hfar : d.isRepository (.ofNames (root ++ (init ++ [last]))) = false :=
      h.nearest _ (by simp) hmore
    have hparent : (Path.ofNames (root ++ (init ++ [last]))).parent? =
        some (.ofNames (root ++ init)) := by
      rw [← List.append_assoc]
      exact parent?_ofNames_concat _ _
    have hinit : root ++ init <+: d.here :=
      List.IsPrefix.trans ⟨[last], List.append_assoc ..⟩ hmore
    rw [repositoryRoot?, if_neg (by rw [hfar]; decide)]
    split
    next hnone => rw [hparent] at hnone; cases hnone
    next q hq =>
      obtain rfl : Path.ofNames (root ++ init) = q := Option.some.inj (hparent.symm.trans hq)
      exact ih hinit

/-- **Inside a repository the workspace is the root of the repository.** -/
theorem workspace_of_inside (h : Inside root d) : d.workspace = .ofNames root := by
  obtain ⟨more, hmore⟩ := h.below
  have hroot := repositoryRoot?_of_inside h more ⟨[], by rw [List.append_nil, hmore]⟩
  rw [workspace, workingDir, ← hmore, hroot, Option.getD_some]

/-! ### Anywhere -/

/-- Whatever is found up from a row of names is the front of the row. -/
theorem prefix_of_repositoryRoot? {names : List Name} {p : Path}
    (h : d.repositoryRoot? (.ofNames names) = some p) :
    ∃ root, root <+: names ∧ p = .ofNames root := by
  induction names using List.reverseRecOn with
  | nil =>
    rw [repositoryRoot?] at h
    split_ifs at h
    · exact ⟨[], List.prefix_rfl, (Option.some.inj h).symm⟩
    · cases h
  | append_singleton init last ih =>
    rw [repositoryRoot?] at h
    split_ifs at h
    · exact ⟨_, List.prefix_rfl, (Option.some.inj h).symm⟩
    · split at h
      next => cases h
      next q hparent =>
        obtain rfl : Path.ofNames init = q :=
          Option.some.inj ((parent?_ofNames_concat _ _).symm.trans hparent)
        obtain ⟨root, hroot, hp⟩ := ih h
        exact ⟨root, hroot.trans (List.prefix_append _ _), hp⟩

/-- The workspace is the working directory or a directory above it. -/
theorem exists_workspace (d : Disk) : ∃ root, root <+: d.here ∧ d.workspace = .ofNames root := by
  rw [workspace, workingDir]
  cases hroot : d.repositoryRoot? (.ofNames d.here) with
  | none => exact ⟨d.here, List.prefix_rfl, rfl⟩
  | some p => exact prefix_of_repositoryRoot? hroot

end Manifest.Proofs.Disks.Repositories
