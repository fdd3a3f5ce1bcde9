import Manifest.Proofs.Disks.Erasing
import Manifest.Proofs.Disks.Writing
import Manifest.Proofs.Scanning.Isolated
import Manifest.Proofs.Scanning.Listing

/-! # The ignore file and the setting

A scan gives the same with the ignore file of its root and without it, if the names that the file lists
are set instead (`listed_iff_set`). The disk without the file has the same ways to every directory, and
so the walk comes to the same files (`mem_files_withoutList`), as long as it finds all its rules there
(`KeepsRules`). It does not if they are read over the ignore file, by a link that leads to it
(`linked_list_differs`). -/

namespace Manifest.Proofs.Scanning.IgnoreFile

open Manifest.FileTree Manifest.Disk Manifest.Ignore Manifest.Scan
open Manifest.Proofs.Disks.Below Manifest.Proofs.Disks.Editing Manifest.Proofs.Disks.Erasing
open Manifest.Proofs.Disks.Following Manifest.Proofs.Disks.Names Manifest.Proofs.Disks.Places
open Manifest.Proofs.Disks.Ways Manifest.Proofs.Disks.Writing Manifest.Proofs.Scanning.Exact
open Manifest.Proofs.Scanning.Globs Manifest.Proofs.Scanning.Isolated
open Manifest.Proofs.Scanning.Listing Manifest.Proofs.Scanning.Pruning Manifest.Proofs.Scanning.Quiet
open Manifest.Proofs.Scanning.Results Manifest.Proofs.Scanning.RuleFiles
open Manifest.Proofs.Scanning.Walking

variable {s : Scan} {d d' : Disk} {env : Environment} {place names : List Name}
variable {entries : List String} {text : String}

/-! ### The disk without the ignore file -/

/-- The disk without the ignore file of a root. -/
def withoutList (d : Disk) (place : List Name) : Disk := d.erase (place ++ [ignoreFileName])

theorem erased_withoutList (d : Disk) (place : List Name) :
    Erased d (withoutList d place) (place ++ [ignoreFileName]) :=
  erased_erase d (by simp)

/-- What stands on both disks below the root is of the same kind, with all that is on the way to it. -/
theorem kind_withoutList {more front : List Name}
    (hmore : ((withoutList d place).tree.at? (place ++ more)).isSome) (hfront : front <+: more) :
    ((withoutList d place).tree.at? (place ++ front)).map FileTree.isDir =
      (d.tree.at? (place ++ front)).map FileTree.isDir := by
  have herased := erased_withoutList d place
  refine (herased.others _ fun hbelow => ?_).kind_eq
  obtain ⟨rest, rfl⟩ := hfront
  rw [← List.append_assoc, herased.gone _ (hbelow.trans (List.prefix_append _ rest))] at hmore
  cases hmore

/-- What a scan consults for rules on the first disk is on the second, too. -/
def KeepsRules (s : Scan) (d : Disk) (env : Environment) (d' : Disk) : Prop :=
  ∀ p, Consulted s d env p → d.pathExists p = true → d'.pathExists p = true

/-- The root of a scan is a directory with an ignore file, whose name is not one for manifests, and no
rules are missing without the file. -/
structure HasList (s : Scan) (d : Disk) (env : Environment) (place : List Name) (text : String) :
    Prop where
  root : ∃ children, d.find s.root = .ok (place, .dir children)
  text : d.read (s.root.child ignoreFileName) = .ok text
  unwanted : ¬ Stands s.config.patterns ignoreFileName.bytes
  keeps : KeepsRules s d env (withoutList d place)

/-- A path that leads to something on the second disk, if it does on the first, leads to the same. -/
theorem alike_erased {target : List Name} {p : Path} (h : Erased d d' target)
    (hkeeps : d.pathExists p = true → d'.pathExists p = true) : Alike d d' p := by
  cases hfind' : d'.find p with
  | ok found =>
    obtain ⟨t, hfind, hshape⟩ := find_of_erased h hfind'
    exact .inr ⟨_, t, _, hfind, hfind', hshape⟩
  | error e' =>
    cases hfind : d.find p with
    | error e => exact .inl ⟨e, e', hfind, hfind'⟩
    | ok found =>
      have hexists : d'.pathExists p = true := hkeeps (by rw [pathExists, hfind])
      rw [pathExists, hfind'] at hexists
      cases hexists

namespace HasList

theorem leadsTo (h : HasList s d env place text) : LeadsTo d s.root place := by
  obtain ⟨children, hroot⟩ := h.root
  exact ⟨_, hroot⟩

theorem dirAt (h : HasList s d env place text) : DirAt d.tree place := by
  obtain ⟨children, hroot⟩ := h.root
  exact ⟨children, at?_of_find hroot⟩

/-- The ignore file is a file in the root, or a link there that leads to one. -/
theorem leads (h : HasList s d env place text) : ∃ links target content,
    Leads d.tree links place [ignoreFileName.part] ⟨target, some (.file content)⟩ := by
  obtain ⟨content, hbytes⟩ := readBytes_of_read h.text
  obtain ⟨target, hfind⟩ := find_of_readBytes hbytes
  have hfollow := follow_of_find hfind
  rw [child_eq] at hfollow
  have hstart := (dirAt_of_follow (by simp) hfollow).solid
  obtain ⟨links, mid, hfront, hname⟩ := leads_split (leads_of_follow rfl hstart hfollow) (by simp)
  obtain ⟨t, hleads⟩ := leads_root h.leadsTo h.dirAt
  obtain ⟨idle, hparts, hidle⟩ := parts_eq_openParts s.root
  rw [hparts] at hleads
  have hmid : mid.place = place := place_of_leads_idle hleads hidle hfront
  exact ⟨links, target, content, hmid ▸ hname⟩

theorem not_dirAt (h : HasList s d env place text) : ¬ DirAt d.tree (place ++ [ignoreFileName]) := by
  obtain ⟨links, target, content, hfile⟩ := h.leads
  exact not_dirAt_of_leads hfile

/-- The root is still there. -/
theorem root_withoutList (h : HasList s d env place text) :
    ∃ children, (withoutList d place).find s.root = .ok (place, .dir children) := by
  obtain ⟨links, target, content, hfile⟩ := h.leads
  exact find_dir_erased (erased_withoutList d place) hfile h.leadsTo h.dirAt

/-- No names are listed any more. -/
theorem lists_withoutList (h : HasList s d env place text) :
    Lists (withoutList d place) s.root [] := by
  obtain ⟨children, hroot⟩ := h.root_withoutList
  have hdir : DirAt (withoutList d place).tree (place ++ []) :=
    ⟨children, by rw [List.append_nil, at?_of_find hroot]⟩
  have hgone : (withoutList d place).tree.at? (place ++ [] ++ [ignoreFileName]) = none :=
    (erased_withoutList d place).gone _ (by rw [List.append_nil])
  exact .inl ⟨pathExists_child_below ⟨_, hroot⟩ hdir hgone, rfl⟩

/-- All paths that are consulted for rules lead to the same. -/
theorem alike (h : HasList s d env place text) {p : Path} (hp : Consulted s d env p) :
    Alike d (withoutList d place) p :=
  alike_erased (erased_withoutList d place) (h.keeps p hp)

/-- The layers above the root are the same. -/
theorem above_eq (h : HasList s d env place text) {t : FileTree}
    (hroot : start? d s.root = some (place, t)) :
    Layer.above (withoutList d place) s.root place = Layer.above d s.root place := by
  obtain ⟨links, target, content, hfile⟩ := h.leads
  have hcanonical := canonical_erased (erased_withoutList d place) hfile h.leadsTo h.dirAt
  exact above_congr hcanonical fun hsome n hn p hp => h.alike (.above hroot hsome hn hp)

/-- A file below the root is there on both disks, unless it is the ignore file. -/
theorem file_iff (h : HasList s d env place text) {content : ByteArray} :
    (withoutList d place).tree.at? (place ++ names) = some (.file content) ↔
      d.tree.at? (place ++ names) = some (.file content) ∧ names ≠ [ignoreFileName] := by
  have herased := erased_withoutList d place
  constructor
  · intro hat
    refine ⟨((herased.shape hat).eq_of_not_dir (by simp [hat])).trans hat, ?_⟩
    rintro rfl
    cases hat.symm.trans (herased.gone _ List.prefix_rfl)
  · rintro ⟨hat, hne⟩
    refine ((herased.others _ fun hbelow => ?_).eq_of_not_dir (by simp [hat])).trans hat
    obtain ⟨more, hmore⟩ := hbelow
    by_cases hnil : more = []
    · rw [hnil, List.append_nil] at hmore
      exact hne (List.append_cancel_left hmore).symm
    · rw [← hmore] at hat
      exact h.not_dirAt (dir_of_above (by rw [hat]; rfl) hnil)

end HasList

section

variable {t t' : FileTree} {skips skips' wanted : List Glob}

/-- The walk comes to the same files on both disks, but for the ignore file. -/
theorem mem_files_withoutList (h : HasList s d env place text)
    (hroot : start? d s.root = some (place, t))
    (hat' : (withoutList d place).tree.at? place = some t')
    (hskips : skipped d s.root s.config = .ok skips)
    (hmatch : ∀ path, anyMatch skips' path = anyMatch skips path) (leaf : Leaf) :
    leaf ∈ files (ignoring s entries) (withoutList d place) env place skips' t' ↔
      leaf ∈ files s d env place skips t ∧ leaf.names ≠ [ignoreFileName] := by
  have hat := at?_of_find (find_of_start? hroot)
  have hglobal : globalRules (withoutList d place) env = globalRules d env :=
    globalRules_congr (s := s) fun p hp => h.alike hp
  have hsimilar : Similar (walk s d env place skips)
      (walk (ignoring s entries) (withoutList d place) env place skips') :=
    ⟨rfl, rfl, hmatch, rfl, hglobal⟩
  have hplace : place ++ [] = place := List.append_nil place
  have hcomes : ((withoutList d place).tree.at? (place ++ leaf.names)).isSome →
      (Comes (walk (ignoring s entries) (withoutList d place) env place skips')
          (Layer.above (withoutList d place) s.root place) [] t' leaf.names ↔
        Comes (walk s d env place skips) (Layer.above d s.root place) [] t leaf.names) := by
    intro hfile
    rw [h.above_eq hroot]
    refine comes_congr hsimilar (hplace.symm ▸ hat) (hplace.symm ▸ hat') ?_ fun front hfront hdir => ?_
    · exact fun front hfront => hplace.symm ▸ kind_withoutList hfile hfront
    · exact ofDir_congr (fun p hp => h.alike (.below hroot hskips hfront (hplace ▸ hdir) hp)) []
  have hsame : (ignoring s entries).root = s.root := rfl
  rw [mem_files hat', mem_files hat, h.file_iff, hsame]
  constructor
  · rintro ⟨hopen, ⟨hfile, hne⟩, hleaf⟩
    exact ⟨⟨hopen, hfile, (hcomes (by rw [h.file_iff.mpr ⟨hfile, hne⟩]; rfl)).mp hleaf⟩, hne⟩
  · rintro ⟨⟨hopen, hfile, hleaf⟩, hne⟩
    exact ⟨hopen, ⟨hfile, hne⟩, (hcomes (by rw [h.file_iff.mpr ⟨hfile, hne⟩]; rfl)).mpr hleaf⟩

/-! ### Scans -/

/-- Without the ignore file the same is found, if what is passed over is the same. -/
theorem perm_visitedWith (h : HasList s d env place text)
    (hskips : skipped d s.root s.config = .ok skips)
    (hmatch : ∀ path, anyMatch skips' path = anyMatch skips path)
    (hwanted : Scan.wanted s.config = .ok wanted) :
    (visitedWith (ignoring s entries) (withoutList d place) env skips' wanted).Perm
      (visitedWith s d env skips wanted) := by
  have hsame : (ignoring s entries).root = s.root := rfl
  refine (List.perm_ext_iff_of_nodup (nodup_visitedWith _ _ _ _ _) (nodup_visitedWith _ _ _ _ _)).mpr
    fun f => ?_
  cases hinput : isStandardInput s.root with
  | true =>
    have hstart : ∀ d, start? d s.root = none := fun d => by simp [start?, hinput]
    rw [visitedWith, visitedWith, hsame, hstart, hstart]
  | false =>
    obtain ⟨children, hfind⟩ := h.root
    obtain ⟨children', hfind'⟩ := h.root_withoutList
    have hstart := start?_of_dir hinput hfind
    have hstart' : start? (withoutList d place) (ignoring s entries).root = _ :=
      start?_of_dir hinput hfind'
    have hlist : ∀ leaf, s.counts wanted leaf = true → leaf.names ≠ [ignoreFileName] := by
      intro leaf hcounts hnames
      rw [counts, hnames, Bool.and_eq_true] at hcounts
      exact h.unwanted ((anyMatch_wanted hwanted ignoreFileName.bytes).mp hcounts.2)
    rw [mem_visitedWith hstart, mem_visitedWith hstart']
    constructor
    · rintro ⟨leaf, hleaf, hcounts, hlisted⟩
      obtain ⟨hleaf, -⟩ :=
        (mem_files_withoutList h hstart (at?_of_find hfind') hskips hmatch leaf).mp hleaf
      exact ⟨leaf, hleaf, hcounts, hlisted⟩
    · rintro ⟨leaf, hleaf, hcounts, hlisted⟩
      exact ⟨leaf, (mem_files_withoutList h hstart (at?_of_find hfind') hskips hmatch leaf).mpr
        ⟨hleaf, hlist leaf hcounts⟩, hcounts, hlisted⟩

end

/-- A scan that can read its globs gives a result. -/
theorem exists_run {listed : List String} (hlists : Lists d s.root listed)
    (hskips : Valid (skipTexts s.config listed)) (hwanted : Valid s.config.patterns) :
    ∃ found, s.run d env = .ok found := by
  obtain ⟨skips, hskips, -⟩ := exists_skipped hlists hskips
  obtain ⟨wanted, hwanted, -⟩ := exists_wanted hwanted
  exact ⟨_, run_eq_ok_iff.mpr ⟨_, visited_eq hskips hwanted, rfl⟩⟩

/-- Two scans agree: what one may give the other may give, and where all names are texts, what one gives
the other gives. -/
structure Agree (s : Scan) (d : Disk) (s' : Scan) (d' : Disk) (env : Environment) : Prop where
  gives : ∀ found, s.Gives d env (.ok found) ↔ s'.Gives d' env (.ok found)
  run : Everywhere IsText d.tree → ∀ found, s.run d env = .ok found ↔ s'.run d' env = .ok found

theorem agree_of_gives {s' : Scan}
    (h : ∀ found, s.Gives d env (.ok found) ↔ s'.Gives d' env (.ok found)) : Agree s d s' d' env where
  gives := h
  run htexts _ := run_congr h htexts

/-- Without the ignore file a scan gives the same, if the names that it lists are set instead. -/
theorem agree_withoutList (h : HasList s d env place text)
    (hnames : SameNames entries (listedNames text)) :
    Agree s d (ignoring s entries) (withoutList d place) env := by
  refine agree_of_gives fun found => ?_
  rcases skipped_listed (s := s) (.inr ⟨text, h.text, rfl⟩) h.lists_withoutList hnames with
    ⟨-, hnone, hnone'⟩ | ⟨skips, skips', hskips, hskips', hmatch⟩
  · refine iff_of_false (fun hgives => ?_) fun hgives => ?_
    · obtain ⟨visited, hvisited, -⟩ := gives_ok_iff.mp hgives
      obtain ⟨skips, -, hskips, -⟩ := visited_eq_ok_iff.mp hvisited
      exact hnone skips hskips
    · obtain ⟨visited, hvisited, -⟩ := gives_ok_iff.mp hgives
      obtain ⟨skips, -, hskips, -⟩ := visited_eq_ok_iff.mp hvisited
      exact hnone' skips hskips
  · cases hwanted : Scan.wanted s.config with
    | error e =>
      have herror' : (ignoring s entries).visited (withoutList d place) env = .error e :=
        visited_of_wanted_error hskips' hwanted
      exact gives_congr_of_error (visited_of_wanted_error hskips hwanted) herror' _
    | ok wanted =>
      have hvisited' : (ignoring s entries).visited (withoutList d place) env = _ :=
        visited_eq hskips' hwanted
      exact gives_congr_of_perm (visited_eq hskips hwanted) hvisited'
        (perm_visitedWith h hskips hmatch hwanted).symm _

/-- **The ignore file and the setting agree.** Let the root of a scan hold an ignore file without which
no rules are missing. The names that it lists are its lines without the blanks at their ends, but for
blank lines and comments. A scan gives the same result without the file, if these names are set in
addition to those that are set, in any order and however often, with any blanks and slashes around them;
and it gives one, if what it is told are globs. So the result depends only on which lines the file has
without the blanks at their ends, and not on carriage returns. -/
theorem listed_iff_set (h : HasList s d env place text) :
    (∀ name, name ∈ listedNames text ↔
      ∃ line ∈ trimmedLines text, line ≠ [] ∧ line.head? ≠ some '#' ∧ String.ofList line = name) ∧
    (∀ entries, SameNames entries (listedNames text) →
      Agree s d (ignoring s entries) (withoutList d place) env) ∧
    (Valid (skipTexts s.config (listedNames text)) → Valid s.config.patterns →
      ∃ found, s.run d env = .ok found) ∧
    (∀ other text', HasList s other env place text' → withoutList other place = withoutList d place →
      (∀ line, line ∈ trimmedLines text' ↔ line ∈ trimmedLines text) → Agree s other s d env) ∧
    trimmedLines (withReturns text) = trimmedLines text := by
  refine ⟨fun name => mem_listedNames, fun entries hnames => agree_withoutList h hnames,
    exists_run (.inr ⟨text, h.text, rfl⟩), fun other text' hother hsame hlines => ?_,
    trimmedLines_withReturns text⟩
  refine agree_of_gives fun found => ?_
  rw [(agree_withoutList hother fun _ _ => .rfl).gives, hsame,
    (agree_withoutList h (sameNames_of_lines hlines)).gives]

/-! ### A disk without rules -/

/-- Nothing that is consulted for a directory leads anywhere, if no entry there is one for rules. -/
theorem not_pathExists_of_consults {root p : Path} (hroot : LeadsTo d root place)
    (hdir : DirAt d.tree (place ++ names))
    (hnone : ∀ n ∈ ruleNames, d.tree.at? (place ++ names ++ [n]) = none)
    (h : Consults d (root.below names) p) : d.pathExists p = false := by
  have hchild : ∀ n ∈ ruleNames, d.pathExists ((root.below names).child n) = false :=
    fun n hn => pathExists_child_below hroot hdir (hnone n hn)
  have hentry : ∀ found, d.find ((root.below names).child repositoryEntry) ≠ .ok found := by
    intro found hfind
    have hmissing := hchild repositoryEntry (by decide)
    rw [pathExists, hfind] at hmissing
    cases hmissing
  cases h with
  | general => exact hchild Layer.generalFile (by decide)
  | versioned => exact hchild Layer.versionedFile (by decide)
  | entry => exact hchild repositoryEntry (by decide)
  | excluded =>
    have hpath : Layer.excludeFile ((root.below names).child repositoryEntry) =
        root.below (names ++ repositoryEntry :: [.ofText "info", .ofText "exclude"]) := by
      simp only [Path.below, List.foldl_append, List.foldl_cons, List.foldl_nil]
      rfl
    rw [hpath]
    exact pathExists_below_of_none hroot hdir (hnone repositoryEntry (by decide)) _
  | common hfind hnamed => exact absurd hfind (hentry _)
  | shared hfind hshared => exact absurd hfind (hentry _)

/-- Where nothing tells a walk what to ignore, no rules can be missing. -/
theorem keepsRules_of_noRules {children : List (Name × FileTree)} (hhome : env.home? = none)
    (hsettings : settingsDir? env = none) (hroot : d.find s.root = .ok (place, .dir children))
    (h : NoRules d.tree place) : KeepsRules s d env d' := by
  have hdir : DirAt d.tree place := ⟨children, at?_of_find hroot⟩
  have hglobal : globalFile? d env = none := by simp [globalFile?, hhome, hsettings]
  intro p hp hexists
  rw [← Bool.not_eq_false] at hexists
  cases hp with
  | homeSettings hfile => cases hhome.symm.trans hfile
  | settings hfile => cases hsettings.symm.trans hfile
  | global hfile => cases hglobal.symm.trans hfile
  | @above place' t _ hstart hcanonical n hn hp =>
    obtain rfl : place = place' :=
      congrArg Prod.fst (Except.ok.inj (hroot.symm.trans (find_of_start? hstart)))
    rw [ofNames_eq_below] at hp
    have htop : LeadsTo d (.ofNames []) [] := leadsTo_top (DirAt.below (p := []) hdir)
    have hupper : DirAt d.tree (place.take n) := by
      rw [← List.take_append_drop n place] at hdir
      exact hdir.below
    exact absurd (not_pathExists_of_consults htop hupper (h _ (.inl (List.take_prefix n place))) hp)
      hexists
  | @below place' names t skips _ hstart hskips hcomes hinner hp =>
    have hfind := find_of_start? hstart
    obtain rfl : place = place' := congrArg Prod.fst (Except.ok.inj (hroot.symm.trans hfind))
    exact absurd (not_pathExists_of_consults ⟨t, hfind⟩ hinner
      (h _ (.inr (List.prefix_append place names))) hp) hexists

/-- The name of a directory. -/
def build : Name := .ofText "build"

/-- What the ignore file of a root lists, with blanks and a comment. -/
def buildText : String := "# output\n  build/ \n"

/-- The ignore file, a manifest, and another one in a directory that the file names. -/
def buildDisk : Disk where
  tree := .dir [(ignoreFileName, .file buildText.toUTF8),
    (build, .dir [(manifest, .file dashText)]), (manifest, .file dashText)]
  here := []

theorem everywhere_build {P : Name → Prop} (hlist : P ignoreFileName) (hbuild : P build)
    (hmanifest : P manifest) : Everywhere P buildDisk.tree := by
  refine everywhere_dir fun c hc => ?_
  rcases List.mem_cons.mp hc with rfl | hc
  · exact ⟨hlist, everywhere_file _⟩
  · rcases List.mem_pair.mp hc with rfl | rfl
    · refine ⟨hbuild, everywhere_dir fun c hc => ?_⟩
      obtain rfl := List.mem_singleton.mp hc
      exact ⟨hmanifest, everywhere_file _⟩
    · exact ⟨hmanifest, everywhere_file _⟩

theorem hasList_build : HasList hereScan buildDisk ⟨[]⟩ [] buildText := by
  have hroot : buildDisk.find hereScan.root = .ok ([], buildDisk.tree) := find_here rfl rfl
  refine ⟨⟨_, hroot⟩, ?_, (by decide +kernel : ¬ Stands Config.builtIn.patterns ignoreFileName.bytes),
    keepsRules_of_noRules (by decide) (by decide) hroot
      (noRules_of_everywhere (everywhere_build (by decide) (by decide) (by decide)) _)⟩
  have hfind : buildDisk.find (hereScan.root.child ignoreFileName) =
      .ok ([ignoreFileName], .file buildText.toUTF8) :=
    @find_below buildDisk hereScan.root [] [ignoreFileName] _ ⟨_, hroot⟩ rfl nofun (by decide)
  rw [read_of_find hfind, decode_toUTF8]

/-- Without the file and with the one name that it lists set, the scan gives the same. -/
theorem listed_iff_set_build : HasList hereScan buildDisk ⟨[]⟩ [] buildText ∧
    ∃ found, hereScan.run buildDisk ⟨[]⟩ = .ok found ∧
      (ignoring hereScan ["build"]).run (withoutList buildDisk []) ⟨[]⟩ = .ok found := by
  obtain ⟨-, hset, hexists, -⟩ := listed_iff_set hasList_build
  obtain ⟨found, hrun⟩ := hexists (by decide +kernel) valid_patterns_builtIn
  have hnames : SameNames ["build"] (listedNames buildText) := by
    have htrimmed : ["build"].map trimName = (listedNames buildText).map trimName := by decide +kernel
    intro name _
    rw [htrimmed]
  have htexts : Everywhere IsText buildDisk.tree :=
    everywhere_build (isText_ofText _ _) (isText_ofText _ _) (isText_ofText _ _)
  exact ⟨hasList_build, found, hrun, ((hset _ hnames).run htexts found).mp hrun⟩

/-! ### Rules over the ignore file -/

/-- The name of a manifest that is hidden. -/
def dotManifest : Name := .ofText ".a.manifest.yml"

/-- What the ignore file of a root lists, which as a rule keeps a hidden manifest. -/
def keptText : String := "!.a.manifest.yml\n"

/-- A link to the ignore file under the name of a file of rules, and a hidden manifest. -/
def linkedChildren : List (Name × FileTree) :=
  [(Layer.generalFile, .link ⟨.bare, [ignoreFileName]⟩), (dotManifest, .file dashText)]

/-- A disk with these in its root. -/
def linkedDisk : Disk where
  tree := .dir linkedChildren
  here := []

/-- The disk with the ignore file, too. -/
def keptDisk : Disk where
  tree := .dir ((ignoreFileName, .file keptText.toUTF8) :: linkedChildren)
  here := []

theorem withoutList_kept : withoutList keptDisk [] = linkedDisk := by
  rw [withoutList, List.nil_append, Disk.erase]
  rfl

theorem everywhere_kept {P : Name → Prop} (hlist : P ignoreFileName) (hlink : P Layer.generalFile)
    (hhidden : P dotManifest) : Everywhere P keptDisk.tree := by
  refine everywhere_dir (List.forall_mem_cons.mpr ⟨⟨hlist, everywhere_file _⟩, fun c hc => ?_⟩)
  rcases List.mem_pair.mp hc with rfl | rfl
  · exact ⟨hlink, everywhere_link _⟩
  · exact ⟨hhidden, everywhere_file _⟩

theorem read_kept : keptDisk.read (hereScan.root.child ignoreFileName) = .ok keptText := by
  have hfind : keptDisk.find (hereScan.root.child ignoreFileName) =
      .ok ([ignoreFileName], .file keptText.toUTF8) :=
    @find_below keptDisk hereScan.root [] [ignoreFileName] _ ⟨_, find_here rfl rfl⟩ rfl nofun
      (by decide)
  rw [read_of_find hfind, decode_toUTF8]

/-- With the ignore file a rule keeps the manifest. -/
theorem verdict?_kept (global : List Rule) (path : List UInt8) :
    verdict? [Layer.ofDir keptDisk hereScan.root []] global path dotManifest false = some .kept := by
  have hfind : keptDisk.find (hereScan.root.child Layer.generalFile) =
      .ok ([ignoreFileName], .file keptText.toUTF8) :=
    find_of_leads (by decide) (by decide) (by decide)
      (.through Layer.generalFile ⟨_, rfl⟩ rfl
        (.into ignoreFileName ⟨_, rfl⟩ ⟨_, rfl, nofun⟩ (.done ⟨_, rfl, nofun⟩)))
  have hrules : (Layer.ofDir keptDisk hereScan.root []).general = rulesOf keptText.toUTF8 := by
    rw [Layer.ofDir, rulesIn, readBytes, hfind]
  have hkept : decide? (rulesOf keptText.toUTF8) dotManifest.bytes false = some .kept := by
    decide +kernel
  have hpath : (Layer.ofDir keptDisk hereScan.root []).pathOf dotManifest = dotManifest.bytes := rfl
  rw [verdict?, decideBy?, List.findSome?_singleton, hrules, hpath, hkept]
  rfl

/-- The walk comes to the hidden manifest, unless its path is passed over. -/
theorem comes_kept {skips : List Glob} (hskips : anyMatch skips dotManifest.bytes = false) :
    Comes (walk hereScan keptDisk ⟨[]⟩ [] skips) (Layer.above keptDisk hereScan.root []) []
      keptDisk.tree [dotManifest] := by
  have habove : Layer.above keptDisk hereScan.root [] = [] := by
    rw [Layer.above]
    split <;> rfl
  have hlayers : (walk hereScan keptDisk ⟨[]⟩ [] skips).enter [] [] =
      [Layer.ofDir keptDisk hereScan.root []] := rfl
  have hfile : (FileTree.file dashText).isDir = false := rfl
  refine ⟨.file dashText, rfl, ?_, trivial⟩
  rw [Walk.admits, habove, hlayers, hfile, verdict?_kept]
  exact congrArg (!·) hskips

/-- Without the ignore file there are no rules. -/
theorem silent_linked : Silent [Layer.ofDir linkedDisk hereScan.root []] := by
  intro l hl
  obtain rfl := List.mem_singleton.mp hl
  constructor
  · exact rulesIn_of_missing (pathExists_of_leads
      (.through Layer.generalFile ⟨_, rfl⟩ rfl (.missing ignoreFileName ⟨_, rfl⟩ rfl)))
  · exact pathExists_of_leads (.missing repositoryEntry ⟨_, rfl⟩ rfl)

/-- Without the ignore file all that is there is hidden. -/
theorem not_mem_files_linked {skips : List Glob} {leaf : Leaf} :
    leaf ∉ files (ignoring hereScan entries) linkedDisk ⟨[]⟩ [] skips linkedDisk.tree := by
  have habove : Layer.above linkedDisk (ignoring hereScan entries).root [] = [] := by
    rw [Layer.above]
    split <;> rfl
  intro hleaf
  obtain ⟨-, hfile, hcomes⟩ := (mem_files (at?_nil _)).mp hleaf
  rw [List.nil_append] at hfile
  cases hnames : leaf.names with
  | nil =>
    rw [hnames] at hfile
    cases hfile
  | cons name rest =>
    rw [hnames, habove] at hcomes
    obtain ⟨t, hchild, hadmits, -⟩ := hcomes
    have hshown : Walk.isHidden name = false :=
      ((admits_of_silent silent_linked [] name t).mp hadmits).1.resolve_left Bool.false_ne_true
    rcases List.mem_pair.mp (mem_of_child? hchild) with heq | heq <;> cases heq <;>
      exact absurd hshown (by decide)

/-- With the ignore file the hidden manifest is found. -/
theorem mem_visited_kept {skips wanted : List Glob}
    (hskips : skipped keptDisk hereScan.root hereScan.config = .ok skips)
    (hwanted : Scan.wanted hereScan.config = .ok wanted) :
    listed hereScan.root [dotManifest] ∈ visitedWith hereScan keptDisk ⟨[]⟩ skips wanted := by
  have hkept : anyMatch skips dotManifest.bytes = false := by
    rw [← Bool.not_eq_true, anyMatch_skipped (.inr ⟨keptText, read_kept, rfl⟩) hskips]
    decide +kernel
  have hname : anyMatch wanted dotManifest.bytes = true := by
    rw [anyMatch_wanted hwanted]
    decide +kernel
  refine (mem_visitedWith (start?_of_dir (by decide) (find_here rfl rfl))).mpr
    ⟨⟨[dotManifest], dashText⟩, (mem_files (at?_nil _)).mpr ⟨by decide, rfl, comes_kept hkept⟩, ?_, rfl⟩
  exact Bool.and_eq_true_iff.mpr ⟨by decide, hname⟩

/-- **Where a link leads to the ignore file, the file can hold rules, too**, and then the scan without
it finds something else: here a hidden manifest, which a rule keeps. -/
theorem linked_list_differs :
    Everywhere IsText keptDisk.tree ∧
    (∃ children, keptDisk.find hereScan.root = .ok ([], .dir children)) ∧
    keptDisk.read (hereScan.root.child ignoreFileName) = .ok keptText ∧
    ¬ Stands hereScan.config.patterns ignoreFileName.bytes ∧
    Valid (skipTexts hereScan.config (listedNames keptText)) ∧ Valid hereScan.config.patterns ∧
    ∃ found, hereScan.run keptDisk ⟨[]⟩ = .ok found ∧
      (ignoring hereScan (listedNames keptText)).run (withoutList keptDisk []) ⟨[]⟩ ≠ .ok found := by
  have hvalid : Valid (skipTexts hereScan.config (listedNames keptText)) := by decide +kernel
  have hpatterns : Valid hereScan.config.patterns := valid_patterns_builtIn
  obtain ⟨found, hrun⟩ : ∃ found, hereScan.run keptDisk ⟨[]⟩ = .ok found :=
    exists_run (.inr ⟨keptText, read_kept, rfl⟩) hvalid hpatterns
  refine ⟨everywhere_kept (isText_ofText _ _) (isText_ofText _ _) (isText_ofText _ _),
    ⟨_, find_here rfl rfl⟩, read_kept, by decide +kernel, hvalid, hpatterns, found, hrun,
    fun hrun' => ?_⟩
  obtain ⟨visited, hvisited, rfl⟩ := run_eq_ok_iff.mp hrun
  obtain ⟨skips, wanted, hskips, hwanted, rfl⟩ := visited_eq_ok_iff.mp hvisited
  rw [withoutList_kept] at hrun'
  obtain ⟨visited', hvisited', hfound⟩ := run_eq_ok_iff.mp hrun'
  obtain ⟨skips', wanted', -, -, rfl⟩ := visited_eq_ok_iff.mp hvisited'
  have hstart : start? linkedDisk (ignoring hereScan (listedNames keptText)).root =
      some ([], linkedDisk.tree) := start?_of_dir (by decide) (find_here rfl rfl)
  have hmem := (perm_sorted _).mem_iff.mpr (mem_visited_kept hskips hwanted)
  rw [← hfound, (perm_sorted _).mem_iff, mem_visitedWith hstart] at hmem
  obtain ⟨leaf, hleaf, -⟩ := hmem
  exact not_mem_files_linked hleaf

end Manifest.Proofs.Scanning.IgnoreFile
