import Mathlib.Data.List.Infix
import Manifest.Proofs.Scanning.Globs
import Manifest.Proofs.Scanning.Quiet
import Manifest.Proofs.Scanning.Results

/-! # What a scan finds

Where nothing tells it what to ignore, a scan finds exactly the files below its root that can be opened,
are not too large, have a name for manifests, and lie on no path that is hidden or passed over. It lists
each of them once, in the order of their paths, whatever the order in which the files were visited
(`run_exact`). The exception is a root that is a lone `-`, below which nothing is found. -/

namespace Manifest.Proofs.Scanning.Exact

open Manifest.Ignore Manifest.Scan
open Manifest.Proofs.Disks.Below Manifest.Proofs.Disks.Following Manifest.Proofs.Disks.Names
open Manifest.Proofs.Disks.Places Manifest.Proofs.Scanning.Globs Manifest.Proofs.Scanning.Quiet
open Manifest.Proofs.Scanning.Results Manifest.Proofs.Scanning.Walking

/-! ### What is found -/

/-- A file that leads from the root of a scan over some names is a manifest that the scan finds, where
some texts stand for the paths that it passes over. -/
structure IsManifest (s : Scan) (skips : List String) (names : List Name) (content : ByteArray) :
    Prop where
  /-- Its path is short enough to be opened. -/
  opens : Disk.fits (s.root.below names) = true
  small : content.size ≤ s.sizeLimit
  wanted : ∃ name ∈ names.getLast?, Stands s.config.patterns name.bytes
  kept : ∀ front, front ≠ [] → front <+: names → ¬ Stands skips (Path.joinNames front)
  shown : s.config.showHidden = true ∨ ∀ name ∈ names, Walk.isHidden name = false

/-- A scan below a directory in a tree where nothing tells it what to ignore, with globs that can be
read, and with an ignore file that lists some names or is missing. -/
structure Plain (s : Scan) (d : Disk) (place : List Name) (children : List (Name × FileTree))
    (ignored : List String) : Prop where
  leads : d.find s.root = .ok (place, .dir children)
  noRules : NoRules d.tree place
  lists : Lists d s.root ignored
  skips : Valid (skipTexts s.config ignored)
  wanted : Valid s.config.patterns

section

variable {s : Scan} {d : Disk} {place : List Name} {ignored : List String}
variable {children : List (Name × FileTree)}

theorem Plain.at?_place (h : Plain s d place children ignored) :
    d.tree.at? place = some (.dir children) := at?_of_find h.leads

/-- The walk comes to the files on clear ways. -/
theorem mem_files_of_plain {env : Environment} {skips : List Glob} {leaf : Leaf}
    (h : Plain s d place children ignored) :
    leaf ∈ files s d env place skips (.dir children) ↔ Disk.fits (s.root.below leaf.names) = true ∧
      d.tree.at? (place ++ leaf.names) = some (.file leaf.content) ∧
        Clear (walk s d env place skips) [] leaf.names := by
  have hsilent : Silent (Layer.above d s.root place) :=
    silent_above s.root ⟨children, h.at?_place⟩ h.noRules
  have hbelow : (FileTree.dir children).at? leaf.names = d.tree.at? (place ++ leaf.names) := by
    rw [at?_append, h.at?_place, Option.bind_some]
  rw [mem_files h.at?_place]
  refine and_congr_right fun _ => and_congr_right fun hfile => ?_
  exact comes_iff_of_silent (w := walk s d env place skips) ⟨_, h.leads⟩ h.noRules hsilent
    (by rw [List.append_nil]; exact h.at?_place) (by rw [hbelow, hfile]; rfl)

/-- A file that stands on a clear way and that counts is a manifest of the scan. -/
theorem isManifest_iff {env : Environment} {texts : List String} {names : List Name}
    {skips wanted : List Glob} {content : ByteArray} (hne : names ≠ [])
    (hskips : ∀ path, anyMatch skips path = true ↔ Stands texts path)
    (hwanted : ∀ path, anyMatch wanted path = true ↔ Stands s.config.patterns path) :
    (Disk.fits (s.root.below names) = true ∧ Clear (walk s d env place skips) [] names) ∧
      s.counts wanted ⟨names, content⟩ = true ↔ IsManifest s texts names content := by
  obtain ⟨last, hlast⟩ := Option.isSome_iff_exists.mp (List.getLast?_isSome.mpr hne)
  have hname : nameOf? s.root names = some last.part := by rw [nameOf?, hlast]
  have hcounts : s.counts wanted ⟨names, content⟩ = true ↔
      content.size ≤ s.sizeLimit ∧ ∃ name ∈ names.getLast?, Stands s.config.patterns name.bytes := by
    rw [counts, hname, hlast, Bool.and_eq_true, decide_eq_true_iff, Option.any_some, hwanted]
    simp [Name.bytes]
  have hskip : ∀ path, anyMatch skips path = false ↔ ¬ Stands texts path := fun path => by
    rw [← hskips, Bool.not_eq_true]
  rw [clear_iff, hcounts]
  simp only [walk, List.nil_append, hskip]
  exact ⟨fun ⟨⟨hopen, hshown, hkept⟩, hsmall, hname⟩ => ⟨hopen, hsmall, hname, hkept, hshown⟩,
    fun h => ⟨⟨h.opens, h.shown, h.kept⟩, h.small, h.wanted⟩⟩

/-- What is found are the manifests. -/
theorem mem_visitedWith_of_plain {env : Environment} {skips wanted : List Glob} {f : Found}
    (h : Plain s d place children ignored) (hinput : isStandardInput s.root = false)
    (hskips : ∀ path, anyMatch skips path = true ↔ Stands (skipTexts s.config ignored) path)
    (hwanted : ∀ path, anyMatch wanted path = true ↔ Stands s.config.patterns path) :
    f ∈ visitedWith s d env skips wanted ↔
      ∃ names content, d.tree.at? (place ++ names) = some (.file content) ∧
        IsManifest s (skipTexts s.config ignored) names content ∧ f = listed s.root names := by
  have hbelow : ∀ {names : List Name} {content : ByteArray},
      d.tree.at? (place ++ names) = some (.file content) → names ≠ [] := by
    rintro names content hfile rfl
    rw [List.append_nil, h.at?_place] at hfile
    cases hfile
  rw [mem_visitedWith (start?_of_dir hinput h.leads)]
  constructor
  · rintro ⟨⟨names, content⟩, hleaf, hcounts, rfl⟩
    obtain ⟨hopen, hfile, hclear⟩ := (mem_files_of_plain h).mp hleaf
    exact ⟨names, content, hfile,
      (isManifest_iff (hbelow hfile) hskips hwanted).mp ⟨⟨hopen, hclear⟩, hcounts⟩, rfl⟩
  · rintro ⟨names, content, hfile, hmanifest, rfl⟩
    obtain ⟨⟨hopen, hclear⟩, hcounts⟩ := (isManifest_iff (hbelow hfile) hskips hwanted).mpr hmanifest
    exact ⟨⟨names, content⟩, (mem_files_of_plain h).mpr ⟨hopen, hfile, hclear⟩, hcounts, rfl⟩

end

/-! ### A directory named `-` -/

/-- The name of a directory that can be taken for the standard input. -/
def dash : Name := .ofText "-"

/-- A name for manifests. -/
def manifest : Name := .ofText "manifest.yml"

/-- The name of a directory that scans pass over. -/
def target : Name := .ofText "target"

/-- The name of a directory that they do not pass over. -/
def folder : Name := .ofText "a"

/-- The text of a manifest. -/
def dashText : ByteArray := "name: a\n".toUTF8

/-- A manifest, and another one in a directory that scans pass over. -/
def dashChildren : List (Name × FileTree) :=
  [(manifest, .file dashText), (target, .dir [(manifest, .file dashText)])]

/-- A disk on which these stand in a directory named `-`. -/
def dashDisk : Disk where
  tree := .dir [(dash, .dir dashChildren)]
  here := []

/-- A scan with the built-in settings. -/
def dashScan (root : Path) : Scan := ⟨root, .builtIn, defaultSizeLimit⟩

theorem valid_skipTexts_builtIn : Valid (skipTexts Config.builtIn []) := by decide +kernel

theorem valid_patterns_builtIn : Valid Config.builtIn.patterns := by decide +kernel

/-- No path along some names is passed over, if none of the finitely many is. -/
theorem kept_of_inits {skips : List String} {names : List Name}
    (h : ∀ front ∈ names.inits, front ≠ [] → ¬ Stands skips (Path.joinNames front)) :
    ∀ front, front ≠ [] → front <+: names → ¬ Stands skips (Path.joinNames front) :=
  fun front hne hfront => h front ((List.mem_inits ..).mpr hfront) hne

/-- The scan of the working directory with the built-in settings. -/
def hereScan : Scan := dashScan ⟨.here, []⟩

theorem find_here {d : Disk} {children : List (Name × FileTree)} (htree : d.tree = .dir children)
    (hhere : d.here = []) : d.find ⟨.here, []⟩ = .ok ([], .dir children) := by
  have hat : d.tree.at? [] = some (.dir children) := by rw [FileTree.at?_nil, htree]
  have hdone : Leads d.tree Disk.linkLimit [] [] ⟨[], d.tree.at? []⟩ := .done ⟨_, hat, by simp⟩
  rw [hat, ← hhere] at hdone
  rw [← hhere]
  exact find_of_leads (by decide) (by decide) (by decide) hdone

/-- A scan of a working directory in which nothing tells it what to ignore. -/
theorem plain_here {s : Scan} {d : Disk} {children : List (Name × FileTree)}
    (hroot : s.root = ⟨.here, []⟩) (htree : d.tree = .dir children) (hhere : d.here = [])
    (hrules : Everywhere (· ∉ ruleNames) d.tree)
    (hlist : FileTree.child? children ignoreFileName = none)
    (hskips : Valid (skipTexts s.config [])) (hwanted : Valid s.config.patterns) :
    Plain s d [] children [] := by
  have hleads : d.find s.root = .ok ([], .dir children) := by rw [hroot, find_here htree hhere]
  have hat : d.tree.at? [] = some (.dir children) := at?_of_find hleads
  have hmissing : d.tree.at? [ignoreFileName] = none := by
    rw [htree]
    exact (at?_dir_cons ..).trans (by rw [hlist]; rfl)
  have hlists : Lists d s.root [] :=
    .inl ⟨@pathExists_child_below d s.root [] [] ignoreFileName ⟨_, hleads⟩ ⟨_, hat⟩ hmissing, rfl⟩
  exact ⟨hleads, noRules_of_everywhere hrules _, hlists, hskips, hwanted⟩

/-- A name for manifests with a byte in it that is none of a text. -/
def lower : Name := ⟨⟨Text.bytes "manifest-" ++ 0xfe :: Text.bytes ".yml"⟩, by decide⟩

/-- Another name, with another such byte. -/
def upper : Name := ⟨⟨Text.bytes "manifest-" ++ 0xff :: Text.bytes ".yml"⟩, by decide⟩

/-- Two manifests whose names are shown alike. -/
def alikeChildren (content : ByteArray) : List (Name × FileTree) :=
  [(lower, .file dashText), (upper, .file content)]

/-- A disk on which these stand. -/
def alikeDisk (content : ByteArray) : Disk where
  tree := .dir (alikeChildren content)
  here := []
  distinct := by rfl

theorem everywhere_alike {P : Name → Prop} (content : ByteArray) (hlower : P lower)
    (hupper : P upper) : Everywhere P (alikeDisk content).tree := by
  refine everywhere_dir fun c hc => ?_
  rcases List.mem_pair.mp hc with rfl | rfl
  · exact ⟨hlower, everywhere_file _⟩
  · exact ⟨hupper, everywhere_file _⟩

theorem file_of_alike {content content' : ByteArray} {names : List Name}
    (hfile : (alikeDisk content).tree.at? names = some (.file content')) :
    names = [lower] ∨ names = [upper] := by
  cases names with
  | nil => cases hfile
  | cons name rest =>
    obtain ⟨t, hchild, hat⟩ := Option.bind_eq_some_iff.mp ((at?_dir_cons ..).symm.trans hfile)
    have hrest : ∀ content : ByteArray, (FileTree.file content).at? rest = some (.file content') →
        rest = [] := by
      intro content hat
      cases rest with
      | nil => rfl
      | cons next rest => cases hat
    rcases List.mem_pair.mp (FileTree.mem_of_child? hchild) with heq | heq
    · cases heq
      exact .inl (by rw [hrest _ hat])
    · cases heq
      exact .inr (by rw [hrest _ hat])

/-- **Manifests that are shown alike may be listed in either order.** -/
theorem gives_alike {s : Scan} (env : Environment) (content : ByteArray)
    (hroot : s.root = ⟨.here, []⟩) (hskips : Valid (skipTexts s.config []))
    (hwanted : Valid s.config.patterns)
    (hlower : IsManifest s (skipTexts s.config []) [lower] dashText)
    (hupper : IsManifest s (skipTexts s.config []) [upper] content) :
    s.Gives (alikeDisk content) env (.ok [listed s.root [lower], listed s.root [upper]]) ∧
      s.Gives (alikeDisk content) env (.ok [listed s.root [upper], listed s.root [lower]]) := by
  have hplain : Plain s (alikeDisk content) [] (alikeChildren content) [] :=
    plain_here hroot rfl rfl (everywhere_alike content (by decide) (by decide)) rfl hskips hwanted
  have hinput : isStandardInput s.root = false := by rw [hroot]; decide
  obtain ⟨skips, hread, hskipped⟩ := exists_skipped hplain.lists hplain.skips
  obtain ⟨wanted, hread', hmatch⟩ := exists_wanted hplain.wanted
  have hne : listed s.root [lower] ≠ listed s.root [upper] := fun heq =>
    absurd (listed_injective s.root heq) (by decide)
  have hshown : (listed s.root [lower]).shownPath = (listed s.root [upper]).shownPath := by
    have hbytes : Text.shown (Path.joinNames [lower]) = Text.shown (Path.joinNames [upper]) := by
      decide +kernel
    exact hbytes
  have hmem : ∀ f, f ∈ [listed s.root [lower], listed s.root [upper]] ↔
      f ∈ visitedWith s (alikeDisk content) env skips wanted := by
    intro f
    rw [mem_visitedWith_of_plain hplain hinput hskipped hmatch, List.mem_pair]
    constructor
    · rintro (rfl | rfl)
      · exact ⟨_, _, rfl, hlower, rfl⟩
      · exact ⟨_, _, rfl, hupper, rfl⟩
    · rintro ⟨names, content', hfile, -, rfl⟩
      rcases file_of_alike hfile with rfl | rfl
      · exact .inl rfl
      · exact .inr rfl
  have hperm : [listed s.root [lower], listed s.root [upper]].Perm
      (visitedWith s (alikeDisk content) env skips wanted) :=
    (List.perm_ext_iff_of_nodup (by simp [hne]) (nodup_visitedWith _ _ _ _ _)).mpr hmem
  have hvisited : s.visited (alikeDisk content) env = _ := visited_eq hread hread'
  exact ⟨gives_ok_iff.mpr ⟨_, hvisited, hperm, by simp [InOrder, hshown]⟩,
    gives_ok_iff.mpr ⟨_, hvisited, (List.Perm.swap _ _ _).trans hperm, by simp [InOrder, hshown]⟩⟩

end Manifest.Proofs.Scanning.Exact
