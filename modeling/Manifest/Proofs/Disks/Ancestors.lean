import Manifest.Path
import Mathlib.Data.List.Infix
import Mathlib.Tactic.SplitIfs

/-! # The chain of ancestors

A path says what it starts with and which steps it takes; repeated slashes and idle parts say nothing
(`components`). A path without a parent takes no step and does not start with a lone dot, and a parent
says all but the last component (`parent?_cases`). So the path and the ones above it say the prefixes
of its components, the longest one first, down to the root or to no component at all
(`components_ancestors`); the last path above one that is not absolute is the empty one
(`getLast?_ancestors`). -/

namespace Manifest.Proofs.Disks.Ancestors

open Manifest.Path

/-- What a path says at one place. -/
inductive Component
  /-- The root, where an absolute path starts. -/
  | root
  /-- A lone dot at the start. -/
  | here
  /-- A step, to a name or to the directory above. -/
  | step (name : Part)
deriving DecidableEq, Repr

/-- What the start of a path says. -/
def startComponents : Anchor → List Component
  | .root => [.root]
  | .here => [.here]
  | .bare => []

/-- What a path says. -/
def components (p : Path) : List Component := startComponents p.anchor ++ p.steps.map .step

variable {p q : Path}

/-- The steps among components. -/
def stepsIn (cs : List Component) : List Part :=
  cs.filterMap fun | .step name => some name | _ => none

/-- What a path with these components starts with. -/
def anchorIn : List Component → Anchor
  | .root :: _ => .root
  | .here :: _ => .here
  | _ => .bare

theorem stepsIn_components (p : Path) : stepsIn (components p) = p.steps := by
  have hsteps : stepsIn (p.steps.map .step) = p.steps := by
    rw [stepsIn, List.filterMap_map]
    exact List.filterMap_some
  cases hanchor : p.anchor <;> simp only [components, hanchor, startComponents] <;> exact hsteps

theorem anchorIn_components (p : Path) : anchorIn (components p) = p.anchor := by
  cases hanchor : p.anchor <;> simp only [components, hanchor, startComponents]
  · rfl
  · rfl
  · cases p.steps <;> rfl

/-- Paths that say the same start the same way and take the same steps. -/
theorem eq_of_components (h : components p = components q) :
    p.anchor = q.anchor ∧ p.steps = q.steps := by
  rw [← anchorIn_components p, ← anchorIn_components q, ← stepsIn_components p,
    ← stepsIn_components q, h]
  exact ⟨rfl, rfl⟩

/-! ### Parents -/

theorem steps_eq_nil_of_trimParts (h : trimParts p.parts = []) : p.steps = [] := by
  rw [steps, ← filter_trimParts, h]
  rfl

/-- A parent takes one step less, or is the empty path above a lone dot. -/
theorem parent?_cases (p : Path) :
    (p.parent? = none ∧ p.anchor ≠ .here ∧ p.steps = []) ∨
      (p.parent? = some empty ∧ p.anchor = .here ∧ p.steps = []) ∨
      ∃ q name, p.parent? = some q ∧ q.anchor = p.anchor ∧ p.steps = q.steps ++ [name] := by
  by_cases hnil : trimParts p.parts = []
  · have hsteps := steps_eq_nil_of_trimParts hnil
    by_cases hhere : p.anchor = .here
    · exact .inr (.inl ⟨by rw [parent?, hnil]; exact if_pos hhere, hhere, hsteps⟩)
    · exact .inl ⟨by rw [parent?, hnil]; exact if_neg hhere, hhere, hsteps⟩
  · obtain ⟨name, hidle, hconcat⟩ := trimParts_eq_concat hnil
    refine .inr (.inr ⟨ofParts p.anchor (trimParts (trimParts p.parts).dropLast), name, ?_, rfl, ?_⟩)
    · rw [parent?]
      split
      next h => exact absurd h hnil
      next part parts h => rw [h]
    · rw [steps_ofParts, filter_trimParts, steps, ← filter_trimParts]
      conv => lhs; rw [hconcat]
      simp [hidle]

theorem of_parent?_eq_none (h : p.parent? = none) : p.anchor ≠ .here ∧ p.steps = [] := by
  rcases parent?_cases p with ⟨-, hhere, hsteps⟩ | ⟨hsome, -, -⟩ | ⟨q, -, hsome, -, -⟩
  · exact ⟨hhere, hsteps⟩
  · rw [h] at hsome
    cases hsome
  · rw [h] at hsome
    cases hsome

/-- A path without a parent says no more than that it starts at the root. -/
theorem components_of_parent?_eq_none (h : p.parent? = none) :
    components p = if p.isAbsolute then [.root] else [] := by
  obtain ⟨hhere, hsteps⟩ := of_parent?_eq_none h
  rw [components, hsteps]
  cases hanchor : p.anchor with
  | root => simp [startComponents, isAbsolute, hanchor]
  | here => exact absurd hanchor hhere
  | bare => simp [startComponents, isAbsolute, hanchor]

/-- A parent says all but the last component, and starts at the root if the path does. -/
theorem components_of_parent? (h : p.parent? = some q) :
    q.isAbsolute = p.isAbsolute ∧ ∃ last, components p = components q ++ [last] := by
  rcases parent?_cases p with ⟨hnone, -, -⟩ | ⟨hsome, hhere, hsteps⟩ | ⟨q', name, hsome, hanchor, hsteps⟩
  · rw [h] at hnone
    cases hnone
  · obtain rfl : q = empty := Option.some.inj (h.symm.trans hsome)
    refine ⟨by simp [isAbsolute, empty, hhere], .here, ?_⟩
    rw [components, hhere, hsteps]
    rfl
  · obtain rfl : q = q' := Option.some.inj (h.symm.trans hsome)
    refine ⟨by rw [isAbsolute, isAbsolute, hanchor], .step name, ?_⟩
    rw [components, components, hsteps, hanchor, List.map_append, List.append_assoc]
    rfl

/-! ### Chains -/

theorem ancestors_of_none (h : p.parent? = none) : p.ancestors = [p] := by
  rw [ancestors]
  split
  next => rfl
  next q hsome => rw [h] at hsome; cases hsome

theorem ancestors_of_some (h : p.parent? = some q) : p.ancestors = p :: q.ancestors := by
  rw [ancestors]
  split
  next hnone => rw [h] at hnone; cases hnone
  next q' hsome => rw [Option.some.inj (h.symm.trans hsome)]

/-- The chain of a path begins with the path. -/
theorem exists_ancestors_eq_cons (p : Path) : ∃ above, p.ancestors = p :: above := by
  cases h : p.parent? with
  | none => exact ⟨[], ancestors_of_none h⟩
  | some q => exact ⟨q.ancestors, ancestors_of_some h⟩

/-- From any path of a chain on, the chain is the one of that path. -/
theorem ancestors_of_split {below above : List Path} (h : p.ancestors = below ++ q :: above) :
    q.ancestors = q :: above := by
  induction below generalizing p with
  | nil =>
    obtain ⟨rest, hrest⟩ := exists_ancestors_eq_cons p
    obtain rfl : p = q := (List.cons.inj (hrest.symm.trans h)).1
    exact h
  | cons first below ih =>
    cases hparent : p.parent? with
    | none =>
      rw [ancestors_of_none hparent] at h
      simp at h
    | some parent =>
      rw [ancestors_of_some hparent, List.cons_append] at h
      exact ih (List.cons.inj h).2

/-- **The paths of a chain say the prefixes of what the path says**, the longest one first. The chain
of an absolute path ends with the root, that of another one with a path that says nothing. -/
theorem components_ancestors (p : Path) : p.ancestors.map components =
    (if p.isAbsolute then (components p).inits.tail else (components p).inits).reverse := by
  induction p using ancestors.induct with
  | case1 p hnone =>
    rw [ancestors_of_none hnone, List.map_singleton, components_of_parent?_eq_none hnone]
    split_ifs <;> rfl
  | case2 p q hsome ih =>
    obtain ⟨habsolute, last, hlast⟩ := components_of_parent? hsome
    have hinits : (components p).inits = (components q).inits ++ [components p] := by
      rw [hlast, List.inits_append]
      rfl
    have hne : (components q).inits ≠ [] := by cases components q <;> simp
    rw [ancestors_of_some hsome, List.map_cons, ih, habsolute, hinits]
    split_ifs
    · rw [List.tail_append_of_ne_nil hne, List.reverse_append]
      rfl
    · rw [List.reverse_append]
      rfl

/-! ### The end of a chain -/

/-- A path as bytes write it: if it starts with its first part, that part is a step, or there is none. -/
def StartsWell (p : Path) : Prop :=
  p.anchor = .bare → p = empty ∨ ∃ part rest, p.parts = part :: rest ∧ part.isIdle = false

theorem startsWell_ofSplit (parts : List Part) (hne : parts ≠ []) : StartsWell (ofSplit parts) := by
  intro hbare
  cases parts with
  | nil => exact absurd rfl hne
  | cons part parts =>
    rw [ofSplit] at hbare ⊢
    split_ifs at hbare ⊢ with hdot hroot
    · by_cases hempty : part = .empty
      · have hnil : parts = [] := by_contra fun hparts => hroot ⟨hempty, hparts⟩
        rw [hempty, hnil]
        exact .inl rfl
      · exact .inr ⟨part, parts, rfl, by simp [Part.isIdle, hempty, hdot]⟩

theorem startsWell_ofBytes (bs : List UInt8) : StartsWell (.ofBytes bs) :=
  startsWell_ofSplit _ (splitSlash_ne_nil bs)

theorem isPrefix_trimParts (parts : List Part) : trimParts parts <+: parts := by
  conv => rhs; rw [← List.reverse_reverse parts]
  exact List.reverse_prefix.mpr (List.dropWhile_suffix _)

theorem StartsWell.parent? (hp : StartsWell p) (h : p.parent? = some q) : StartsWell q := by
  intro hbare
  unfold Path.parent? at h
  split at h
  next =>
    split_ifs at h
    exact .inl (Option.some.inj h).symm
  next part parts htrim =>
    obtain rfl := Option.some.inj h
    obtain hempty | ⟨first, rest, hfirst, hidle⟩ := hp hbare
    · rw [hempty] at htrim
      cases htrim
    · -- what is left by trimming still starts with the first part
      have hfront : trimParts (part :: parts).dropLast <+: first :: rest :=
        hfirst ▸ (isPrefix_trimParts _).trans
          ((List.dropLast_prefix _).trans (htrim ▸ isPrefix_trimParts p.parts))
      rcases List.prefix_cons_iff.mp hfront with hnil | ⟨more, hmore, -⟩
      · refine .inl ?_
        rw [hnil, show p.anchor = .bare from hbare]
        rfl
      · refine .inr ⟨first, more, ?_, hidle⟩
        rw [hmore]
        simp [ofParts]

/-- **The last path above one that is not absolute is the empty one.** -/
theorem getLast?_ancestors (hp : StartsWell p) (hrelative : p.isAbsolute = false) :
    p.ancestors.getLast? = some empty := by
  induction p using ancestors.induct with
  | case1 p hnone =>
    rw [ancestors_of_none hnone, List.getLast?_singleton]
    obtain ⟨hhere, hsteps⟩ := of_parent?_eq_none hnone
    have hbare : p.anchor = .bare := by
      cases hanchor : p.anchor with
      | root => simp [isAbsolute, hanchor] at hrelative
      | here => exact absurd hanchor hhere
      | bare => rfl
    obtain hempty | ⟨part, rest, hparts, hidle⟩ := hp hbare
    · rw [hempty]
    · simp [steps, hparts, hidle] at hsteps
  | case2 p q hsome ih =>
    obtain ⟨above, habove⟩ := exists_ancestors_eq_cons q
    have hlast := ih (hp.parent? hsome) ((components_of_parent? hsome).1.trans hrelative)
    rw [ancestors_of_some hsome]
    rw [habove] at hlast ⊢
    rwa [List.getLast?_cons_cons]

end Manifest.Proofs.Disks.Ancestors
