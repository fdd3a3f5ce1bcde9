import Manifest.Proofs.Disks.Following
import Manifest.Proofs.Disks.Spellings

/-! # The nearest root of a repository

The search for the root of a repository goes up the chain of a path (`repositoryRoot?_eq_find?`), so it
finds the first path of the chain that is a root. Paths that are no roots can be left out at the
beginning of the chain, and what is found says the same if the chain is written in another way
(`map_find?_congr`). Main statement: `nearest_root`. -/

namespace Manifest.Proofs.Disks.Roots

open Manifest.Path Manifest.Disk Manifest.Proofs.Disks.Ancestors Manifest.Proofs.Disks.Following
open Manifest.Proofs.Disks.Spellings

variable {d : Disk} {p q : Path}

/-! ### The search -/

/-- **The search goes up the chain.** -/
theorem repositoryRoot?_eq_find? (d : Disk) (p : Path) :
    d.repositoryRoot? p = p.ancestors.find? d.isRepository := by
  induction p using ancestors.induct with
  | case1 p hnone =>
    rw [repositoryRoot?, ancestors_of_none hnone, List.find?_singleton]
    split_ifs with hroot
    · rfl
    · split
      next => rfl
      next q hsome => rw [hnone] at hsome; cases hsome
  | case2 p q hsome ih =>
    rw [repositoryRoot?, ancestors_of_some hsome, List.find?_cons]
    cases hroot : d.isRepository p with
    | true => rfl
    | false =>
      rw [if_neg Bool.false_ne_true]
      split
      next hnone => rw [hnone] at hsome; cases hsome
      next q' hq => rw [← Option.some.inj (hsome.symm.trans hq), ih]

/-- Whatever is no root can be left out at the beginning of a chain. -/
theorem find?_append_of_not {below above : List Path} (h : ∀ q ∈ below, d.isRepository q = false) :
    (below ++ above).find? d.isRepository = above.find? d.isRepository := by
  have hnone : below.find? d.isRepository = none :=
    List.find?_eq_none.mpr fun q hq => by simp [h q hq]
  rw [List.find?_append, hnone, Option.none_or]

/-- Rows that say the same, member by member, give results that say the same. -/
theorem map_find?_congr {α β : Type} {view : α → β} {good : α → Bool} : ∀ {l m : List α},
    l.map view = m.map view → (∀ a ∈ l, ∀ b ∈ m, view a = view b → good a = good b) →
      (l.find? good).map view = (m.find? good).map view
  | [], [], _, _ => rfl
  | [], b :: m, h, _ => by cases h
  | a :: l, [], h, _ => by cases h
  | a :: l, b :: m, h, hgood => by
    obtain ⟨hab, hrest⟩ := List.cons.inj h
    have ih := map_find?_congr hrest fun x hx y hy =>
      hgood x (List.mem_cons_of_mem a hx) y (List.mem_cons_of_mem b hy)
    rw [List.find?_cons, List.find?_cons, hgood a List.mem_cons_self b List.mem_cons_self hab]
    cases good b with
    | true => exact congrArg some hab
    | false => exact ih

/-! ### Lexical ancestors -/

/-- The second path is the first one or lies below it, as both are written: they start the same way,
and it goes on where the first one ends. -/
structure IsBelow (first second : Path) : Prop where
  isAbsolute_eq : first.isAbsolute = second.isAbsolute
  isPrefix : components first <+: components second

/-- The chain of a path goes over to one that says the same as the chain of any path above it. -/
theorem IsBelow.exists_split {first second : Path} (h : IsBelow first second) :
    ∃ below above, second.ancestors = below ++ above ∧
      above.map components = first.ancestors.map components ∧
      ∀ q ∈ below, (components first).length < (components q).length := by
  obtain ⟨more, hmore⟩ := h.isPrefix
  have hinits : (components second).inits =
      (components first).inits ++ (more.inits.tail.map (components first ++ ·)) := by
    rw [← hmore, List.inits_append]
  have hne : (components first).inits ≠ [] := by cases components first <;> simp
  have hsplit : second.ancestors.map components =
      (more.inits.tail.map (components first ++ ·)).reverse ++ first.ancestors.map components := by
    rw [components_ancestors, components_ancestors, h.isAbsolute_eq, hinits]
    split_ifs
    · rw [List.tail_append_of_ne_nil hne, List.reverse_append]
    · rw [List.reverse_append]
  obtain ⟨below, above, heq, hbelow, habove⟩ := List.map_eq_append_iff.mp hsplit
  refine ⟨below, above, heq, habove, fun q hq => ?_⟩
  have hmem : components q ∈ more.inits.tail.map (components first ++ ·) := by
    rw [← List.mem_reverse, ← hbelow]
    exact List.mem_map_of_mem hq
  obtain ⟨init, hinit, hinitq⟩ := List.mem_map.mp hmem
  rw [← hinitq, List.length_append]
  cases more with
  | nil => cases hinit
  | cons c more =>
    obtain ⟨rest, -, rfl⟩ : ∃ rest, rest <+: more ∧ c :: rest = init := by simpa using hinit
    simp

/-- **The root of the repository is the nearest one.** The search up from a path finds a path exactly
if that is a root and the first one of the chain that is; it finds nothing exactly if no path of the
chain is a root. The chain begins with the path and says the prefixes of what the path says, the
longest one first, down to the root or else to the empty path. From a path that lies below another
one, with no root on the way, the search finds what it finds from the other one; how the two are
written makes no difference. -/
theorem nearest_root (d : Disk) (start : Path) :
    (∀ p, d.repositoryRoot? start = some p ↔ d.isRepository p = true ∧
      ∃ below above, start.ancestors = below ++ p :: above ∧
        ∀ q ∈ below, d.isRepository q = false) ∧
    (d.repositoryRoot? start = none ↔ ∀ q ∈ start.ancestors, d.isRepository q = false) ∧
    (start.ancestors.head? = some start ∧
      start.ancestors.map components = (if start.isAbsolute then (components start).inits.tail
        else (components start).inits).reverse ∧
      ∀ bytes, start = .ofBytes bytes → start.isAbsolute = false →
        start.ancestors.getLast? = some .empty) ∧
    (∀ first below above, start.ancestors = below ++ first :: above →
      (∀ q ∈ below, d.isRepository q = false) →
      d.repositoryRoot? start = d.repositoryRoot? first) ∧
    ∀ first, IsBelow first start → (∀ q ∈ first.ancestors ++ start.ancestors, IsShort q) →
      (∀ q ∈ start.ancestors, (components first).length < (components q).length →
        d.isRepository q = false) →
      (d.repositoryRoot? start).map components = (d.repositoryRoot? first).map components := by
  refine ⟨fun p => ?_, ?_, ⟨?_, components_ancestors start, ?_⟩, ?_, ?_⟩
  · rw [repositoryRoot?_eq_find?, List.find?_eq_some_iff_append]
    simp
  · rw [repositoryRoot?_eq_find?, List.find?_eq_none]
    simp
  · obtain ⟨above, habove⟩ := exists_ancestors_eq_cons start
    rw [habove, List.head?_cons]
  · rintro bytes rfl hrelative
    exact getLast?_ancestors (startsWell_ofBytes bytes) hrelative
  · intro first below above hsplit hbelow
    rw [repositoryRoot?_eq_find?, repositoryRoot?_eq_find?, hsplit, find?_append_of_not hbelow,
      ancestors_of_split hsplit]
  · intro first hfirst hshort hfar
    obtain ⟨below, above, hsplit, habove, hlonger⟩ := hfirst.exists_split
    have hbelow : ∀ q ∈ below, d.isRepository q = false := fun q hq =>
      hfar q (hsplit ▸ List.mem_append_left _ hq) (hlonger q hq)
    rw [repositoryRoot?_eq_find?, repositoryRoot?_eq_find?, hsplit, find?_append_of_not hbelow]
    refine map_find?_congr habove fun a ha b hb => isRepository_congr ?_ ?_
    · exact hshort a (List.mem_append_right _ (hsplit ▸ List.mem_append_right _ ha))
    · exact hshort b (List.mem_append_left _ hb)

/-! ### Inside a repository -/

/-- The name of the directory that is a repository. -/
def outer : Name := .ofText "w"

/-- The name of a directory in the repository. -/
def inner : Name := .ofText "s"

/-- The name of a directory below that one. -/
def deepest : Name := .ofText "t"

/-- A repository below the top, with the working directory at its root. -/
def nestedDisk : Disk where
  tree := .dir [(outer, .dir [(repositoryEntry, .dir []), (inner, .dir [(deepest, .dir [])])])]
  here := [outer]

/-- A path that leads to the root of the repository, whose entry is there. -/
theorem isRepository_nested {p : Path} (hnul : (p.child repositoryEntry).bytes.contains 0 = false)
    (hempty : p.child repositoryEntry ≠ .empty) (hshort : fits (p.child repositoryEntry) = true)
    (h : Leads nestedDisk.tree linkLimit (origin [outer] (p.child repositoryEntry))
      (p.child repositoryEntry).parts ⟨[outer, repositoryEntry], some (.dir [])⟩) :
    nestedDisk.isRepository p = true := by
  rw [isRepository, pathExists, find_of_leads hnul hempty hshort h]

/-- From two directories down, written with idle parts, the search comes to the empty path, which
stands for the working directory; from the top it finds nothing. A directory that is a root is found as
it is written, and from further down as it is written there. -/
theorem nearest_root_nested :
    nestedDisk.repositoryRoot? (.ofText "s//t/.") = some .empty ∧
      nestedDisk.repositoryRoot? (.ofText "/") = none ∧
      nestedDisk.repositoryRoot? (.ofText "/w/.") = some (.ofText "/w/.") ∧
      (nestedDisk.repositoryRoot? (.ofText "/w//s")).map components = some [.root, .step "w"] := by
  have hdeep : nestedDisk.isRepository (.ofText "s//t/.") = false :=
    pathExists_of_leads (.into inner ⟨_, rfl⟩ ⟨_, rfl, by simp⟩ (.idle ⟨_, rfl⟩ (by decide)
      (.into deepest ⟨_, rfl⟩ ⟨_, rfl, by simp⟩ (.idle ⟨_, rfl⟩ (by decide)
        (.missing repositoryEntry ⟨_, rfl⟩ rfl)))))
  have hmiddle : nestedDisk.isRepository (.ofText "s") = false :=
    pathExists_of_leads (.into inner ⟨_, rfl⟩ ⟨_, rfl, by simp⟩
      (.missing repositoryEntry ⟨_, rfl⟩ rfl))
  have hbelow : nestedDisk.isRepository (.ofText "/w//s") = false :=
    pathExists_of_leads (.into outer ⟨_, rfl⟩ ⟨_, rfl, by simp⟩ (.idle ⟨_, rfl⟩ (by decide)
      (.into inner ⟨_, rfl⟩ ⟨_, rfl, by simp⟩ (.missing repositoryEntry ⟨_, rfl⟩ rfl))))
  have htop : nestedDisk.isRepository (.ofText "/") = false :=
    pathExists_of_leads (.missing repositoryEntry ⟨_, rfl⟩ rfl)
  have hhere : nestedDisk.isRepository .empty = true :=
    isRepository_nested (by decide) (by decide) (by decide)
      (.into repositoryEntry ⟨_, rfl⟩ ⟨_, rfl, by simp⟩ (.done ⟨_, rfl, by simp⟩))
  have hroot : nestedDisk.isRepository (.ofText "/w/.") = true :=
    isRepository_nested (by decide) (by decide) (by decide) (.into outer ⟨_, rfl⟩
      ⟨_, rfl, by simp⟩ (.idle ⟨_, rfl⟩ (by decide)
        (.into repositoryEntry ⟨_, rfl⟩ ⟨_, rfl, by simp⟩ (.done ⟨_, rfl, by simp⟩))))
  have hchain : (Path.ofText "s//t/.").ancestors =
      [.ofText "s//t/.", .ofText "s", .empty] := by decide +kernel
  have hchainTop : (Path.ofText "/").ancestors = [.ofText "/"] := by decide +kernel
  have hchainRoot : (Path.ofText "/w/.").ancestors = [.ofText "/w/.", .ofText "/"] := by decide +kernel
  have hchainBelow : (Path.ofText "/w//s").ancestors =
      [.ofText "/w//s", .ofText "/w", .ofText "/"] := by decide +kernel
  obtain ⟨hsome, -, -, -, -⟩ := nearest_root nestedDisk (.ofText "s//t/.")
  obtain ⟨-, hnone, -, -, -⟩ := nearest_root nestedDisk (.ofText "/")
  obtain ⟨hsome', -, -, -, -⟩ := nearest_root nestedDisk (.ofText "/w/.")
  obtain ⟨-, -, -, -, hspelled⟩ := nearest_root nestedDisk (.ofText "/w//s")
  have hfound : nestedDisk.repositoryRoot? (.ofText "/w/.") = some (.ofText "/w/.") :=
    (hsome' _).mpr ⟨hroot, [], _, hchainRoot, by simp⟩
  have hempty : nestedDisk.repositoryRoot? (.ofText "s//t/.") = some .empty :=
    (hsome _).mpr ⟨hhere, [.ofText "s//t/.", .ofText "s"], [], hchain, by simp [hdeep, hmiddle]⟩
  refine ⟨hempty, hnone.mpr ?_, hfound, ?_⟩
  · simp [hchainTop, htop]
  · rw [hspelled (.ofText "/w/.") ⟨by decide, by decide⟩ ?_ ?_, hfound]
    · rfl
    · rw [hchainRoot, hchainBelow]
      unfold IsShort
      decide
    · rw [hchainBelow]
      intro q hq hlonger
      rcases List.mem_cons.mp hq with rfl | hq
      · exact hbelow
      · rcases List.mem_pair.mp hq with rfl | rfl <;> exact absurd hlonger (by decide)

end Manifest.Proofs.Disks.Roots
