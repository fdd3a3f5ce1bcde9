import Manifest.Proofs.Disks.Below
import Manifest.Proofs.Disks.Names
import Manifest.Proofs.Scanning.Walking

/-! # Walks without ignore rules

Where no directory holds ignore rules or a repository, the layers of a walk decide nothing
(`verdict?_of_silent`). Where a walk comes to then depends on the names alone
(`comes_iff_of_silent`): none of them is hidden, unless hidden files are shown, and no path on the way
is skipped. -/

namespace Manifest.Proofs.Scanning.Quiet

open Manifest.FileTree Manifest.Ignore Manifest.Scan Manifest.Proofs.Disks.Below
open Manifest.Proofs.Disks.Editing Manifest.Proofs.Disks.Following Manifest.Proofs.Disks.Names
open Manifest.Proofs.Disks.Places Manifest.Proofs.Scanning.Walking

/-! ### Layers that decide nothing -/

/-- Layers without rules for all tools, none of them of a repository. -/
def Silent (layers : List Layer) : Prop := ∀ l ∈ layers, l.general = [] ∧ l.isRepository = false

/-- The names of entries that tell a walk what to ignore. -/
def ruleNames : List Name := [repositoryEntry, Layer.generalFile, Layer.versionedFile]

/-- No directory at a place, above it or below it tells a walk what to ignore. -/
def NoRules (tree : FileTree) (place : List Name) : Prop :=
  ∀ p, p <+: place ∨ place <+: p → ∀ n ∈ ruleNames, tree.at? (p ++ [n]) = none

theorem noRules_of_everywhere {tree : FileTree} (h : Everywhere (· ∉ ruleNames) tree)
    (place : List Name) : NoRules tree place := by
  intro p _ n hn
  by_contra hsome
  exact h (p ++ [n]) (Option.isSome_iff_ne_none.mpr hsome) n (by simp) hn

theorem verdict?_of_silent {layers : List Layer} (h : Silent layers) (global : List Rule)
    (path : List UInt8) (name : Name) (isDir : Bool) :
    verdict? layers global path name isDir = none := by
  have hgeneral : decideBy? Layer.general layers name isDir = none := by
    refine List.findSome?_eq_none_iff.mpr fun l hl => ?_
    rw [(h l hl).1]
    rfl
  have hrepository : layers.any (·.isRepository) = false := by
    refine List.any_eq_false.mpr fun l hl => ?_
    rw [(h l hl).2]
    decide
  rw [verdict?, hgeneral, hrepository]
  rfl

theorem silent_below {layers : List Layer} (h : Silent layers) (name : Name) :
    Silent (layers.map (·.below name)) := by
  intro l hl
  obtain ⟨upper, hupper, rfl⟩ := List.mem_map.mp hl
  exact h upper hupper

theorem rulesIn_of_missing {d : Disk} {p : Path} (h : d.pathExists p = false) :
    rulesIn d p = [] := by
  rw [rulesIn]
  split
  next content hread =>
    obtain ⟨place, hfind⟩ := find_of_readBytes hread
    rw [Disk.pathExists, hfind] at h
    cases h
  next => rfl

/-- A directory without entries for rules is a layer that decides nothing. -/
theorem silent_ofDir {d : Disk} {root : Path} {place names : List Name} (hroot : LeadsTo d root place)
    (hdir : DirAt d.tree (place ++ names))
    (h : ∀ n ∈ ruleNames, d.tree.at? (place ++ names ++ [n]) = none) (trail : List Name) :
    (Layer.ofDir d (root.below names) trail).general = [] ∧
      (Layer.ofDir d (root.below names) trail).isRepository = false := by
  have hmissing : ∀ n ∈ ruleNames, d.pathExists ((root.below names).child n) = false :=
    fun n hn => pathExists_child_below hroot hdir (h n hn)
  exact ⟨rulesIn_of_missing (hmissing Layer.generalFile (by decide)),
    hmissing repositoryEntry (by decide)⟩

theorem silent_above {d : Disk} {place : List Name} (root : Path) (hdir : DirAt d.tree place)
    (h : NoRules d.tree place) : Silent (Layer.above d root place) := by
  rw [Layer.above]
  split
  next =>
    intro l hl
    obtain ⟨n, -, rfl⟩ := List.mem_map.mp hl
    have htop : LeadsTo d (.ofNames []) [] := leadsTo_top (DirAt.below (p := []) hdir)
    rw [ofNames_eq_below]
    refine silent_ofDir htop ?_ (h _ (.inl (List.take_prefix n place))) _
    rw [← List.take_append_drop n place] at hdir
    exact hdir.below
  next => simp [Silent]

theorem silent_enter {w : Walk} {layers : List Layer} {names : List Name} (h : Silent layers)
    (hroot : LeadsTo w.disk w.root w.place) (hdir : DirAt w.disk.tree (w.place ++ names))
    (hrules : NoRules w.disk.tree w.place) : Silent (w.enter layers names) := by
  intro l hl
  rcases List.mem_cons.mp hl with rfl | hl
  · exact silent_ofDir hroot hdir (hrules _ (.inr (List.prefix_append _ _))) []
  · exact h l hl

/-! ### Ways without rules -/

/-- From `names`, the names on a way are shown, and no path on it is skipped. -/
def Clear (w : Walk) (names : List Name) : List Name → Prop
  | [] => True
  | name :: rest =>
    (w.showHidden = true ∨ Walk.isHidden name = false) ∧
      anyMatch w.skipped (Path.joinNames (names ++ [name])) = false ∧ Clear w (names ++ [name]) rest

theorem admits_of_silent {w : Walk} {layers : List Layer} (h : Silent layers) (names : List Name)
    (name : Name) (t : FileTree) : w.admits layers names name t = true ↔
      (w.showHidden = true ∨ Walk.isHidden name = false) ∧
        anyMatch w.skipped (Path.joinNames (names ++ [name])) = false := by
  simp only [Walk.admits, verdict?_of_silent h]
  simp

theorem comes_iff_of_silent {w : Walk} (hroot : LeadsTo w.disk w.root w.place)
    (hrules : NoRules w.disk.tree w.place) : ∀ {layers : List Layer} {names more : List Name}
      {t : FileTree}, Silent layers → w.disk.tree.at? (w.place ++ names) = some t →
        (t.at? more).isSome → (Comes w layers names t more ↔ Clear w names more)
  | layers, names, [], t, _, _, _ => by
    rw [Comes, Clear]
  | layers, names, name :: rest, t, hsilent, ht, hmore => by
    cases t with
    | file old => cases hmore
    | link target => cases hmore
    | dir children =>
      have henter : Silent (w.enter layers names) := silent_enter hsilent hroot ⟨children, ht⟩ hrules
      rw [at?_dir_cons, Option.isSome_bind] at hmore
      cases hchild : child? children name with
      | none => rw [hchild] at hmore; cases hmore
      | some u =>
        rw [hchild] at hmore
        have hu : w.disk.tree.at? (w.place ++ (names ++ [name])) = some u := by
          rw [← List.append_assoc, at?_concat ht, hchild]
        have hrest := comes_iff_of_silent hroot hrules (silent_below henter name) hu hmore
        simp only [Comes, Clear, hchild, Option.some.injEq, exists_eq_left', hrest,
          admits_of_silent henter names name u, and_assoc]

/-- A way is clear if no name on it is hidden, or hidden files are shown, and no path that leads along
it for one name or more is skipped. -/
theorem clear_iff (w : Walk) (names more : List Name) : Clear w names more ↔
    (w.showHidden = true ∨ ∀ name ∈ more, Walk.isHidden name = false) ∧
      ∀ front, front ≠ [] → front <+: more →
        anyMatch w.skipped (Path.joinNames (names ++ front)) = false := by
  induction more generalizing names with
  | nil =>
    refine ⟨fun _ => ⟨.inr (by simp), fun front hne hfront => ?_⟩, fun _ => trivial⟩
    exact absurd (List.prefix_nil.mp hfront) hne
  | cons name rest ih =>
    rw [Clear, ih]
    constructor
    · rintro ⟨hname, hskip, hrest, hfronts⟩
      refine ⟨?_, fun front hne hfront => ?_⟩
      · rcases hname with hshow | hname
        · exact .inl hshow
        · exact hrest.imp_right fun hrest => by simpa [hname] using hrest
      · obtain rfl | ⟨more, rfl, hmore⟩ := List.prefix_cons_iff.mp hfront
        · exact absurd rfl hne
        · by_cases hnil : more = []
          · rw [hnil]
            exact hskip
          · rw [List.append_cons]
            exact hfronts more hnil hmore
    · rintro ⟨hshown, hfronts⟩
      refine ⟨hshown.imp_right fun h => h name List.mem_cons_self,
        hfronts [name] (List.cons_ne_nil _ _) ⟨rest, rfl⟩,
        hshown.imp_right fun h n hn => h n (List.mem_cons_of_mem _ hn), fun front _ hfront => ?_⟩
      rw [← List.append_cons]
      exact hfronts (name :: front) (List.cons_ne_nil _ _) (List.cons_prefix_cons.mpr ⟨rfl, hfront⟩)

end Manifest.Proofs.Scanning.Quiet
