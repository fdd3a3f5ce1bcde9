import Manifest.Proofs.Scanning.DeepGlobs
import Manifest.Proofs.Scanning.IgnoreFile

/-! # Narrower scans

A scan is narrower than another one of the same root if it passes over more, takes fewer names for
those of manifests, or takes only smaller files. What it finds is a part of what the other one finds, in
the same order but for manifests that are shown alike (`run_sublist_of_narrower`). This holds whatever
rules the tree has: the walk asks for the globs of the scan only after the rules have let a name
through, so more globs cut ways short and open none (`files_sublist`). -/

namespace Manifest.Proofs.Scanning.Narrowing

open Manifest.FileTree Manifest.Ignore Manifest.Scan
open Manifest.Proofs.Disks.Following Manifest.Proofs.Disks.Names
open Manifest.Proofs.Scanning.DeepGlobs Manifest.Proofs.Scanning.Exact
open Manifest.Proofs.Scanning.Globs Manifest.Proofs.Scanning.IgnoreFile
open Manifest.Proofs.Scanning.Isolated Manifest.Proofs.Scanning.LiteralGlobs
open Manifest.Proofs.Scanning.Pruning Manifest.Proofs.Scanning.Results
open Manifest.Proofs.Scanning.Walking

/-- The scan `s'` asks for no more than `s` from the same root. -/
structure Narrower (s' s : Scan) : Prop where
  root : s'.root = s.root
  showHidden : s'.config.showHidden = s.config.showHidden
  ignorePaths : s.config.ignorePaths ⊆ s'.config.ignorePaths
  ignoreGlobs : s.config.ignoreGlobs ⊆ s'.config.ignoreGlobs
  patterns : s'.config.patterns ⊆ s.config.patterns
  sizeLimit : s'.sizeLimit ≤ s.sizeLimit

variable {s s' : Scan} {d : Disk} {env : Environment}

/-! ### Globs -/

theorem stands_mono {texts texts' : List String} (h : texts ⊆ texts') {path : List UInt8}
    (hstands : Stands texts path) : Stands texts' path := by
  obtain ⟨text, htext, hmatch⟩ := hstands
  exact ⟨text, h htext, hmatch⟩

theorem valid_of_subset {texts texts' : List String} (h : texts ⊆ texts') (hvalid : Valid texts') :
    Valid texts := fun text htext => hvalid text (h htext)

theorem Narrower.skipTexts_subset (h : Narrower s' s) :
    skipTexts s.config [] ⊆ skipTexts s'.config [] := by
  intro text htext
  simp only [skipTexts, List.flatMap_nil, List.append_nil, List.mem_append, List.mem_flatMap] at htext ⊢
  rcases htext with ⟨name, hname, htext⟩ | htext
  · exact .inl ⟨name, h.ignorePaths hname, htext⟩
  · exact .inr (h.ignoreGlobs htext)

/-- What the ignore file of a root lists, as globs that a set can hold. -/
def listedGlobs (d : Disk) (root : Path) : Except Error (List Glob) :=
  rootNames d root >>= expandAll .badIgnoreLine >>= gathered .deepIgnore

/-- The globs of a scan are those of its settings, in front of those that the ignore file lists. -/
theorem exists_settingGlobs {c : Config} (h : Valid (skipTexts c [])) :
    ∃ globs, (∀ path, anyMatch globs path = true ↔ Stands (skipTexts c []) path) ∧
      ∀ d root, skipped d root c = (listedGlobs d root).map (globs ++ ·) := by
  obtain ⟨hpaths, hglobs⟩ := valid_append.mp (valid_append.mp h).1
  obtain ⟨paths, hpaths, hdepthPaths, hmatchPaths⟩ := exists_globs (fun _ => .badIgnorePath) hpaths
  obtain ⟨globs, hglobs, hdepthGlobs, hmatchGlobs⟩ := exists_globs (fun _ => .badIgnoreGlob) hglobs
  refine ⟨paths ++ globs, fun path => ?_, fun d root => ?_⟩
  · rw [anyMatch_append, Bool.or_eq_true, hmatchPaths, hmatchGlobs, skipTexts, List.flatMap_nil,
      List.append_nil, stands_append]
  · rw [skipped_eq, expandAll, hpaths, hglobs, listedGlobs]
    cases rootNames d root >>= expandAll .badIgnoreLine with
    | error e => rfl
    | ok listed =>
      have hdepth : (paths ++ globs ++ listed).all (·.isShallow) = listed.all (·.isShallow) := by
        rw [List.all_append, List.all_append, hdepthPaths, hdepthGlobs]
        rfl
      change gathered .deepIgnore (paths ++ globs ++ listed) =
        (gathered .deepIgnore listed).map (paths ++ globs ++ ·)
      rw [gathered, gathered, hdepth]
      split_ifs <;> rfl

/-! ### Files -/

/-- A walk that passes over all that another one passes over comes to no other files. -/
theorem files_sublist (h : Narrower s' s) {skips skips' : List Glob}
    (hskips : ∀ path, anyMatch skips path = true → anyMatch skips' path = true)
    (place : List Name) (t : FileTree) :
    (files s' d env place skips' t).Sublist (files s d env place skips t) := by
  have hwalk : walk s' d env place skips' = skipping (walk s d env place skips) skips' := by
    simp only [walk, skipping, h.root, h.showHidden]
  have hmore : ∀ path, anyMatch skips' path =
      (anyMatch (walk s d env place skips).skipped path || anyMatch skips' path) := by
    intro path
    change anyMatch skips' path = (anyMatch skips path || anyMatch skips' path)
    cases hpath : anyMatch skips path with
    | false => rw [Bool.false_or]
    | true => rw [hskips path hpath, Bool.true_or]
  rw [files, files, hwalk, h.root, leaves_skipping hmore]
  exact List.filter_sublist

/-- A file that counts for the narrower scan counts for the other one. -/
theorem counts_of_narrower (h : Narrower s' s) {wanted wanted' : List Glob}
    (hwanted : ∀ path, anyMatch wanted' path = true → anyMatch wanted path = true) (leaf : Leaf)
    (hcounts : s'.counts wanted' leaf = true) : s.counts wanted leaf = true := by
  rw [counts, Bool.and_eq_true, decide_eq_true_iff, Option.any_eq_true, h.root] at hcounts
  obtain ⟨hsize, name, hname, hmatch⟩ := hcounts
  rw [counts, Bool.and_eq_true, decide_eq_true_iff, Option.any_eq_true]
  exact ⟨hsize.trans h.sizeLimit, name, hname, hwanted name.bytes hmatch⟩

theorem counted_sublist (h : Narrower s' s) {wanted wanted' : List Glob}
    (hwanted : ∀ path, anyMatch wanted' path = true → anyMatch wanted path = true)
    {leaves leaves' : List Leaf} (hleaves : leaves'.Sublist leaves) :
    (counted s' wanted' leaves').Sublist (counted s wanted leaves) := by
  have hcounts := counts_of_narrower h hwanted
  rw [counted, counted, h.root]
  refine List.Sublist.map _ ((hleaves.filter _).trans ?_)
  exact List.monotone_filter_right leaves hcounts

theorem visitedWith_sublist (h : Narrower s' s) {skips skips' wanted wanted' : List Glob}
    (hskips : ∀ path, anyMatch skips path = true → anyMatch skips' path = true)
    (hwanted : ∀ path, anyMatch wanted' path = true → anyMatch wanted path = true) :
    (visitedWith s' d env skips' wanted').Sublist (visitedWith s d env skips wanted) := by
  rw [visitedWith, visitedWith, h.root]
  cases start? d s.root with
  | none => exact .slnil
  | some start => exact counted_sublist h hwanted (files_sublist h hskips start.1 start.2)

/-- With settings whose globs can be read, either the ignore file of the root keeps both scans from a
result, or the narrower scan comes to a part of what the other one comes to. -/
theorem visited_of_narrower (env : Environment) (h : Narrower s' s)
    (hskips : Valid (skipTexts s'.config [])) (hpatterns : Valid s.config.patterns) :
    (∃ e, listedGlobs d s.root = .error e ∧ s.visited d env = .error e ∧ s'.visited d env = .error e) ∨
      ∃ visited visited', s.visited d env = .ok visited ∧ s'.visited d env = .ok visited' ∧
        visited'.Sublist visited := by
  obtain ⟨globs', hmatch', hskipped'⟩ := exists_settingGlobs hskips
  obtain ⟨globs, hmatch, hskipped⟩ := exists_settingGlobs (valid_of_subset h.skipTexts_subset hskips)
  obtain ⟨wanted, hwanted, hmatchWanted⟩ := exists_wanted hpatterns
  obtain ⟨wanted', hwanted', hmatchWanted'⟩ := exists_wanted (valid_of_subset h.patterns hpatterns)
  specialize hskipped d s.root
  specialize hskipped' d s'.root
  rw [h.root] at hskipped'
  cases hlisted : listedGlobs d s.root with
  | error e =>
    rw [hlisted] at hskipped hskipped'
    exact .inl ⟨e, rfl, visited_of_skipped_error hskipped,
      visited_of_skipped_error (h.root.symm ▸ hskipped')⟩
  | ok listed =>
    rw [hlisted] at hskipped hskipped'
    refine .inr ⟨_, _, visited_eq hskipped hwanted, visited_eq (h.root.symm ▸ hskipped') hwanted', ?_⟩
    refine visitedWith_sublist h (fun path hpath => ?_) (fun path hpath => ?_)
    · rw [anyMatch_append, Bool.or_eq_true, hmatch] at hpath
      rw [anyMatch_append, Bool.or_eq_true, hmatch']
      exact hpath.imp_left (stands_mono h.skipTexts_subset)
    · rw [hmatchWanted'] at hpath
      rw [hmatchWanted]
      exact stands_mono h.patterns hpath

/-! ### Results -/

/-- Manifests in order of which one is shown in front of the other also come in this order. -/
theorem pair_sublist {found : List Found} (horder : InOrder found) {a b : Found} (ha : a ∈ found)
    (hb : b ∈ found) (hlt : a.shownPath < b.shownPath) : [a, b].Sublist found := by
  obtain ⟨front, back, rfl⟩ := List.append_of_mem ha
  obtain ⟨-, -, hfront⟩ := List.pairwise_append.mp horder
  rcases List.mem_append.mp hb with hb | hb
  · exact absurd hlt (String.not_lt.mpr (hfront b hb a List.mem_cons_self))
  · rcases List.mem_cons.mp hb with rfl | hb
    · exact absurd hlt (String.lt_irrefl _)
    · exact ((List.singleton_sublist.mpr hb).cons_cons a).trans (List.sublist_append_right _ _)

/-- Some manifests are a part of others, in the same order but for those that are shown alike. -/
structure IsPart (found' found : List Found) : Prop where
  subset : found' ⊆ found
  order : ∀ a b, a.shownPath ≠ b.shownPath → [a, b].Sublist found' → [a, b].Sublist found
  sublist : ShownApart found → found'.Sublist found

/-- What two scans may give is a part of one another if what they come to is. -/
theorem isPart_of_gives {visited visited' found found' : List Found}
    (hvisited : s.visited d env = .ok visited) (hvisited' : s'.visited d env = .ok visited')
    (hpart : visited'.Sublist visited) (hgives : s.Gives d env (.ok found))
    (hgives' : s'.Gives d env (.ok found')) : IsPart found' found := by
  obtain ⟨hperm, horder⟩ := (gives_ok_iff_of_visited hvisited).mp hgives
  obtain ⟨hperm', horder'⟩ := (gives_ok_iff_of_visited hvisited').mp hgives'
  have hsubset : found' ⊆ found := fun f hf =>
    hperm.mem_iff.mpr (hpart.subset (hperm'.mem_iff.mp hf))
  refine ⟨hsubset, fun a b hne hpair => ?_, fun happart => ?_⟩
  · have hle : a.shownPath ≤ b.shownPath := by simpa using horder'.sublist hpair
    exact pair_sublist horder (hsubset (hpair.subset (by simp))) (hsubset (hpair.subset (by simp)))
      (Std.lt_of_le_of_ne hle hne)
  · have hvisitedApart : ShownApart visited := happart.perm hperm.symm
    have hpartApart : ShownApart visited' := hvisitedApart.sublist (hpart.map _)
    rw [← sorted_eq_self horder, ← sorted_eq_self horder', sorted_eq_of_perm hperm happart,
      sorted_eq_of_perm hperm' (hpartApart.perm hperm')]
    exact sorted_sublist hpart

/-- **A narrower scan finds a part of what the other one finds**: with more names or globs to pass over,
fewer names for those of manifests, or a smaller limit of size. The tree may have any rules in it. What
both find comes in the same order, but for manifests that are shown alike, and there are none of these
where all names are texts. One thread keeps the order of these, too. With settings whose globs can be
read, only the ignore file of the root can keep a scan from its result, and then it does so for both. -/
theorem run_sublist_of_narrower (env : Environment) (h : Narrower s' s)
    (hskips : Valid (skipTexts s'.config [])) (hpatterns : Valid s.config.patterns) :
    (∃ e, listedGlobs d s.root = .error e ∧ (∀ result, s.Gives d env result ↔ result = .error e) ∧
      ∀ result, s'.Gives d env result ↔ result = .error e) ∨
    (∃ found found', s.run d env = .ok found ∧ s'.run d env = .ok found' ∧ found'.Sublist found) ∧
    ∀ result result', s.Gives d env result → s'.Gives d env result' →
      ∃ found found', result = .ok found ∧ result' = .ok found' ∧ IsPart found' found ∧
        (Everywhere IsText d.tree → ShownApart found) := by
  rcases visited_of_narrower env h hskips hpatterns with
    ⟨e, hlisted, herror, herror'⟩ | ⟨visited, visited', hvisited, hvisited', hpart⟩
  · exact .inl ⟨e, hlisted, gives_iff_of_error herror, gives_iff_of_error herror'⟩
  · refine .inr ⟨⟨_, _, run_eq_ok_iff.mpr ⟨_, hvisited, rfl⟩, run_eq_ok_iff.mpr ⟨_, hvisited', rfl⟩,
      sorted_sublist hpart⟩, fun result result' hgives hgives' => ?_⟩
    obtain ⟨found, rfl, -⟩ := (gives_iff_of_visited hvisited _).mp hgives
    obtain ⟨found', rfl, -⟩ := (gives_iff_of_visited hvisited' _).mp hgives'
    exact ⟨found, found', rfl, rfl, isPart_of_gives hvisited hvisited' hpart hgives hgives',
      fun htexts => shownApart_of_gives htexts hgives⟩

/-- A scan of the working directory that passes over the manifest that a rule keeps. -/
def narrowScan : Scan :=
  { hereScan with config := { hereScan.config with ignoreGlobs := [".a*"] } }

theorem narrower_narrowScan : Narrower narrowScan hereScan where
  root := rfl
  showHidden := rfl
  ignorePaths := List.Subset.refl _
  ignoreGlobs := List.nil_subset _
  patterns := List.Subset.refl _
  sizeLimit := Nat.le_refl _

/-- The narrower scan does not come to a file whose path its globs stand for. -/
theorem not_mem_visited_narrowScan {skips wanted : List Glob}
    (hskips : skipped keptDisk narrowScan.root narrowScan.config = .ok skips) :
    listed narrowScan.root [dotManifest] ∉ visitedWith narrowScan keptDisk ⟨[]⟩ skips wanted := by
  have hstart : start? keptDisk narrowScan.root = some ([], keptDisk.tree) :=
    start?_of_dir (by decide) (find_here rfl rfl)
  rw [mem_visitedWith hstart]
  rintro ⟨⟨names, content⟩, hleaf, -, hlisted⟩
  obtain ⟨-, -, hcomes⟩ := (mem_files (at?_nil _)).mp hleaf
  obtain rfl : names = [dotManifest] := listed_injective _ hlisted
  obtain ⟨t, -, hadmits, -⟩ := hcomes
  have hskipped : anyMatch skips dotManifest.bytes = true := by
    rw [anyMatch_skipped (.inr ⟨keptText, read_kept, rfl⟩) hskips]
    decide +kernel
  rw [Walk.admits, Bool.and_eq_true] at hadmits
  exact Bool.false_ne_true ((Bool.not_eq_true' _).mp hadmits.2 ▸ hskipped)

/-- A hidden manifest that a rule of the tree keeps is found, and no longer with one more glob. -/
theorem run_sublist_of_narrower_kept : ∃ found found',
    hereScan.run keptDisk ⟨[]⟩ = .ok found ∧ narrowScan.run keptDisk ⟨[]⟩ = .ok found' ∧
      found'.Sublist found ∧ listed hereScan.root [dotManifest] ∈ found ∧
      listed hereScan.root [dotManifest] ∉ found' := by
  have hresult := run_sublist_of_narrower (d := keptDisk) ⟨[]⟩ narrower_narrowScan (by decide +kernel)
    valid_patterns_builtIn
  have hrun : ∃ found, hereScan.run keptDisk ⟨[]⟩ = .ok found :=
    exists_run (.inr ⟨keptText, read_kept, rfl⟩) (by decide +kernel) valid_patterns_builtIn
  rcases hresult with ⟨e, -, hgives, -⟩ | ⟨⟨found, found', hfound, hfound', hsublist⟩, -⟩
  · obtain ⟨found, hfound⟩ := hrun
    cases hfound.symm.trans ((hgives _).mp (gives_run _ _ _))
  · refine ⟨found, found', hfound, hfound', hsublist, ?_, ?_⟩
    · obtain ⟨visited, hvisited, rfl⟩ := run_eq_ok_iff.mp hfound
      obtain ⟨skips, wanted, hskips, hwanted, rfl⟩ := visited_eq_ok_iff.mp hvisited
      exact (perm_sorted _).mem_iff.mpr (mem_visited_kept hskips hwanted)
    · obtain ⟨visited, hvisited, rfl⟩ := run_eq_ok_iff.mp hfound'
      obtain ⟨skips, wanted, hskips, -, rfl⟩ := visited_eq_ok_iff.mp hvisited
      rw [(perm_sorted _).mem_iff]
      exact not_mem_visited_narrowScan hskips

/-! ### Scans that give another order, or nothing -/

/-- The scan that takes larger files, too. -/
def largeScan : Scan := { hereScan with sizeLimit := defaultSizeLimit + 1 }

theorem narrower_largeScan : Narrower hereScan largeScan where
  root := rfl
  showHidden := rfl
  ignorePaths := List.Subset.refl _
  ignoreGlobs := List.Subset.refl _
  patterns := List.Subset.refl _
  sizeLimit := Nat.le_succ _

theorem isManifest_largeScan {skips : List String} {names : List Name} {content : ByteArray}
    (h : IsManifest hereScan skips names content) : IsManifest largeScan skips names content :=
  ⟨h.opens, Nat.le_succ_of_le h.small, h.wanted, h.kept, h.shown⟩

/-- A name for manifests in so many braces that no set of globs can hold it. -/
def deepText : String := String.ofList (braced 300 "manifest.yml".toList)

/-- The scan that takes what this glob stands for, too. -/
def deepScan : Scan :=
  { hereScan with config := { hereScan.config with patterns := Config.builtIn.patterns ++ [deepText] } }

theorem narrower_deepScan : Narrower hereScan deepScan where
  root := rfl
  showHidden := rfl
  ignorePaths := List.Subset.refl _
  ignoreGlobs := List.Subset.refl _
  patterns := List.subset_append_left _ _
  sizeLimit := Nat.le_refl _

theorem parse?_deepText : Glob.parse? Scan.globStyle deepText =
    some ⟨nested 300 (literals "manifest.yml".toList), false⟩ := by
  have hplain : "manifest.yml".toList.all (fun c => IsPlain c) = true := by decide
  exact parse?_braced 300 (fun c hc => of_decide_eq_true (List.all_eq_true.mp hplain c hc))
    (by decide)

/-- All its patterns are globs. -/
theorem isSome_deepScan :
    ∀ text ∈ deepScan.config.patterns, (Glob.parse? Scan.globStyle text).isSome := by
  have hbuiltIn : ∀ text ∈ Config.builtIn.patterns, (Glob.parse? Scan.globStyle text).isSome := by
    decide +kernel
  refine List.forall_mem_append.mpr ⟨hbuiltIn, fun text htext => ?_⟩
  obtain rfl := List.mem_singleton.mp htext
  rw [parse?_deepText]
  rfl

/-- Of two manifests that are shown alike the narrower scan may list one first and the other scan the
other. And with one more pattern, which is a glob but nested too deep, a scan finds nothing. -/
theorem narrower_reorders :
    let d := alikeDisk dashText
    Narrower hereScan largeScan ∧ Narrower hereScan deepScan ∧
      (∃ a b, a ≠ b ∧ hereScan.Gives d ⟨[]⟩ (.ok [a, b]) ∧ largeScan.Gives d ⟨[]⟩ (.ok [b, a])) ∧
      (∀ text ∈ deepScan.config.patterns, (Glob.parse? Scan.globStyle text).isSome) ∧
      deepScan.run d ⟨[]⟩ = .error .deepPattern := by
  have hlower : IsManifest hereScan (skipTexts Config.builtIn []) [lower] dashText :=
    isManifest_alike (.inl rfl) (by decide)
  have hupper : IsManifest hereScan (skipTexts Config.builtIn []) [upper] dashText :=
    isManifest_alike (.inr rfl) (by decide)
  obtain ⟨hgives, -⟩ := gives_alike ⟨[]⟩ dashText rfl valid_skipTexts_builtIn valid_patterns_builtIn
    hlower hupper
  obtain ⟨-, hswapped⟩ := gives_alike ⟨[]⟩ dashText rfl valid_skipTexts_builtIn
    valid_patterns_builtIn (isManifest_largeScan hlower) (isManifest_largeScan hupper)
  have hplain : Plain hereScan (alikeDisk dashText) [] _ [] :=
    plain_here rfl rfl rfl (everywhere_alike _ (by decide) (by decide)) rfl
      valid_skipTexts_builtIn valid_patterns_builtIn
  obtain ⟨skips, hskips, -⟩ := exists_skipped hplain.lists hplain.skips
  have hskips' : skipped (alikeDisk dashText) deepScan.root deepScan.config = .ok skips := hskips
  have hwanted : wanted deepScan.config = .error .deepPattern :=
    wanted_of_deep isSome_deepScan (List.mem_append_right _ (List.mem_singleton_self _))
      parse?_deepText (isShallow_nested false (by decide +kernel) (by decide))
  refine ⟨narrower_largeScan, narrower_deepScan, ⟨_, _, by decide, hgives, hswapped⟩,
    isSome_deepScan, ?_⟩
  rw [Scan.run, visited_of_wanted_error hskips' hwanted]
  rfl

end Manifest.Proofs.Scanning.Narrowing
