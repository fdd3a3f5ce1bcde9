import Manifest.Proofs.Disks.Editing
import Manifest.Proofs.Disks.Names

/-! # Making directories

Names lead down through directories to the last of them (`follow_down`). So a directory with a name in
one that is there is made at that name, or stands there already, or cannot be made because its path is
too long, and nothing above it ever has to be made (`makeDirs_cases`). Nothing but the new directory is
different afterwards (`sameShape_of_makeDirs`). -/

namespace Manifest.Proofs.Disks.Making

open Manifest.FileTree Manifest.Disk Manifest.Proofs.Disks.Editing Manifest.Proofs.Disks.Following
open Manifest.Proofs.Disks.Names Manifest.Proofs.Disks.Places

variable {tree : FileTree} {place names : List Name} {name : Name}

/-! ### Absolute paths -/

theorem ofNames_concat (names : List Name) (name : Name) :
    Path.ofNames (names ++ [name]) = ⟨.root, (names ++ [name]).map Name.part⟩ := by
  simp [Path.ofNames]

theorem ofNames_ne_empty (names : List Name) : Path.ofNames names ≠ .empty := fun heq => by
  have hanchor := congrArg Path.anchor heq
  cases hanchor

theorem part_ne_empty (name : Name) : name.part ≠ .empty := fun hempty => by
  have hidle := name.isIdle_part
  rw [hempty] at hidle
  cases hidle

theorem child_ofNames (names : List Name) (name : Name) :
    (Path.ofNames names).child name = .ofNames (names ++ [name]) := by
  rw [ofNames_concat, Path.child, Path.join,
    if_neg (by simp [ofNames_ne_empty, Path.isAbsolute])]
  rcases List.eq_nil_or_concat names with rfl | ⟨init, last, rfl⟩
  · rfl
  · simp [Path.ofNames, Path.relativeParts, part_ne_empty]

/-! ### Following names -/

/-- Names lead down through directories. -/
theorem follow_down {m : Manner} (hallows : ∀ place, m.allows place = true)
    (hdir : DirAt tree (place ++ names)) (links : Nat) (rest : List Part) :
    follow tree m links place (names.map Name.part ++ rest) =
      follow tree m links (place ++ names) rest := by
  induction names generalizing place with
  | nil => simp
  | cons name more ih =>
    have hplace : DirAt tree place := hdir.below
    rw [List.append_cons] at hdir ⊢
    rw [List.map_cons, List.cons_append, follow_of_solid hplace (hallows _) hdir.below.solid, ih hdir]

/-- A name in a directory leads to what has it. -/
theorem follow_name (hdir : DirAt tree place) (links : Nat) :
    follow tree .linkItself links place [name.part] =
      .ok ⟨place ++ [name], tree.at? (place ++ [name])⟩ := by
  obtain ⟨children, hat⟩ := hdir
  have hallows : ∀ place, Manner.linkItself.allows place = true := fun place => rfl
  have hthrough : Manner.linkItself.through = false := rfl
  rw [follow, hat, at?_concat hat]
  cases hchild : child? children name with
  | none => simp [hallows, hchild]
  | some u =>
    have hu := (at?_concat hat name).trans hchild
    cases u <;> simp [hallows, hthrough, hchild, follow, hu]

/-! ### Directories -/

variable {d d' : Disk}

/-- The path of a name in a directory leads to what has it, or cannot be followed at all. -/
theorem resolve_name (hdir : DirAt d.tree place) :
    d.resolve (.ofNames (place ++ [name])) .linkItself =
        .ok ⟨place ++ [name], d.tree.at? (place ++ [name])⟩ ∨
      ∃ e, e ≠ .notFound ∧ d.resolve (.ofNames (place ++ [name])) .linkItself = .error e := by
  rw [resolve]
  split_ifs with hnul hempty hlong
  · exact .inr ⟨_, by simp, rfl⟩
  · exact absurd hempty (ofNames_ne_empty _)
  · exact .inr ⟨_, by simp, rfl⟩
  · left
    have hdown := @follow_down d.tree [] place .linkItself (fun place => rfl) (by simpa using hdir)
      linkLimit [name.part]
    have horigin : origin d.here (.ofNames (place ++ [name])) = [] := by
      rw [ofNames_concat]
      rfl
    have hparts : (Path.ofNames (place ++ [name])).parts = place.map Name.part ++ [name.part] := by
      rw [ofNames_concat, List.map_append, List.map_singleton]
    rw [horigin, hparts, hdown]
    exact follow_name hdir linkLimit

/-- A directory is made at a free name, or not at all. -/
theorem makeDir_cases (hdir : DirAt d.tree place) :
    (d.tree.at? (place ++ [name]) = none ∧
        d.makeDir (.ofNames (place ++ [name])) = .ok (d.put (place ++ [name]) .emptyDir)) ∨
      ∃ e, e ≠ .notFound ∧ d.makeDir (.ofNames (place ++ [name])) = .error e := by
  have hpath : (⟨(Path.ofNames (place ++ [name])).anchor,
      Path.trimParts (Path.ofNames (place ++ [name])).parts⟩ : Path) =
        .ofNames (place ++ [name]) := by
    rw [ofNames_concat, trimParts_of_names]
  rw [makeDir, hpath]
  rcases resolve_name hdir with hresolve | ⟨e, he, hresolve⟩
  · rw [hresolve]
    cases d.tree.at? (place ++ [name]) with
    | none => exact .inl ⟨rfl, rfl⟩
    | some u => exact .inr ⟨_, by simp, rfl⟩
  · rw [hresolve]
    exact .inr ⟨e, he, rfl⟩

/-- What is made below a directory that is there is one directory, if it is not there already. -/
theorem makeDirs_cases (hdir : DirAt d.tree place)
    (h : d.makeDirs (.ofNames (place ++ [name])) = .ok d') :
    d' = d ∨ d.tree.at? (place ++ [name]) = none ∧ d' = d.put (place ++ [name]) .emptyDir := by
  rw [makeDirs, if_neg (ofNames_ne_empty _)] at h
  rcases makeDir_cases hdir with ⟨hnone, hmake⟩ | ⟨e, he, hmake⟩
  · rw [hmake] at h
    exact .inr ⟨hnone, (Except.ok.inj h).symm⟩
  · rw [hmake] at h
    split at h
    next hmade => cases hmade
    next hmissing => exact absurd (Except.error.inj hmissing) he
    next =>
      split_ifs at h
      exact .inl (Except.ok.inj h).symm

/-- Nothing but the new directory is different. -/
theorem sameShape_of_makeDirs (hdir : DirAt d.tree place)
    (h : d.makeDirs (.ofNames (place ++ [name])) = .ok d') (q : List Name) :
    SameShape (d.tree.at? q) (d'.tree.at? q) ∨
      q = place ++ [name] ∧ d.tree.at? q = none ∧ DirAt d'.tree q := by
  rcases makeDirs_cases hdir h with rfl | ⟨hnone, rfl⟩
  · exact .inl (.inl rfl)
  · obtain ⟨children, hat⟩ := hdir
    have hself : (d.put (place ++ [name]) .emptyDir).tree.at? (place ++ [name]) = some .emptyDir :=
      at?_put_self hat name _
    by_cases hbelow : place ++ [name] <+: q
    · obtain ⟨more, rfl⟩ := hbelow
      cases more with
      | nil =>
        rw [List.append_nil]
        exact .inr ⟨rfl, hnone, [], hself⟩
      | cons first rest =>
        refine .inl (.inl ?_)
        rw [at?_append _ (place ++ [name]), at?_append _ (place ++ [name]), hnone, hself]
        rfl
    · exact .inl (sameShape_at?_put hbelow)

end Manifest.Proofs.Disks.Making
