import Manifest.Proofs.Disks.Writing
import Manifest.Proofs.Scanning.Exact
import Manifest.Proofs.Scanning.RuleFiles

/-! # Manifests apart from one another

What a scan shows of a manifest depends on no other manifest. Where a walk comes to depends on the
rules and on which of the names on the way are directories (`comes_congr`). So if one file is given
another content, and is not read for rules, the walk comes to the same files, and as long as the file
stays on the same side of the size limit the same of them count (`gives_edited`). What is shown of them
is the same but for the row of that file (`scans_isolated`). -/

namespace Manifest.Proofs.Scanning.Isolated

open Manifest.FileTree Manifest.Ignore Manifest.Scan
open Manifest.Proofs.Disks.Below Manifest.Proofs.Disks.Editing Manifest.Proofs.Disks.Following
open Manifest.Proofs.Disks.Names Manifest.Proofs.Disks.Places Manifest.Proofs.Disks.Writing
open Manifest.Proofs.Scanning.Exact
open Manifest.Proofs.Scanning.Globs Manifest.Proofs.Scanning.Quiet Manifest.Proofs.Scanning.Results
open Manifest.Proofs.Scanning.RuleFiles Manifest.Proofs.Scanning.Walking

variable {s : Scan} {d d' : Disk} {env : Environment} {target place : List Name}
variable {old new : ByteArray} {t t' : FileTree} {found : List Found}

/-! ### The walk -/

/-- Two walks that pass over the same, by the same rules of the user. -/
structure Similar (w w' : Walk) : Prop where
  here : w'.disk.here = w.disk.here
  root : w'.root = w.root
  skipped : ∀ path, anyMatch w'.skipped path = anyMatch w.skipped path
  showHidden : w'.showHidden = w.showHidden
  global : w'.global = w.global

/-- A name is admitted by both walks or by neither: its kind counts and not its content. -/
theorem admits_similar {w w' : Walk} (h : Similar w w') (layers : List Layer) (names : List Name)
    (name : Name) (hdir : t'.isDir = t.isDir) :
    w'.admits layers names name t' = w.admits layers names name t := by
  have hpath : w'.globalPath = w.globalPath := by
    have hnames : w'.pathOf = w.pathOf := by
      funext names
      rw [Walk.pathOf, Walk.pathOf, h.root]
    have hhere : w'.disk.workingDir = w.disk.workingDir := by
      rw [Disk.workingDir, Disk.workingDir, h.here]
    funext names
    rw [Walk.globalPath, Walk.globalPath, hnames, hhere]
  rw [Walk.admits, Walk.admits, hpath, hdir, h.global, h.showHidden, h.skipped]

/-- **Two walks come to the same place**, if what stands on the way is of the same kind for both and the
same rules are in force there. -/
theorem comes_congr {w w' : Walk} (h : Similar w w') {layers : List Layer} {names more : List Name}
    (hat : w.disk.tree.at? (w.place ++ names) = some t)
    (hat' : w'.disk.tree.at? (w.place ++ names) = some t')
    (hkind : ∀ front, front <+: more →
      (w'.disk.tree.at? (w.place ++ names ++ front)).map isDir =
        (w.disk.tree.at? (w.place ++ names ++ front)).map isDir)
    (hlayer : ∀ front, Comes w layers names t front → DirAt w.disk.tree (w.place ++ names ++ front) →
      Layer.ofDir w'.disk (w.root.below (names ++ front)) [] =
        Layer.ofDir w.disk (w.root.below (names ++ front)) []) :
    Comes w' layers names t' more ↔ Comes w layers names t more := by
  induction more generalizing layers names t t' with
  | nil => rw [Comes, Comes]
  | cons name rest ih =>
    have hdir : t'.isDir = t.isDir := by
      have hhere := hkind [] List.nil_prefix
      rw [List.append_nil, hat, hat'] at hhere
      exact Option.some.inj hhere
    cases t with
    | file content => cases t' <;> first | rfl | cases hdir
    | link p => cases t' <;> first | rfl | cases hdir
    | dir children =>
      obtain ⟨children', rfl⟩ : ∃ children', t' = dir children' := by
        cases t' <;> first | exact ⟨_, rfl⟩ | cases hdir
      have henter : w'.enter layers names = w.enter layers names := by
        have hplace := hlayer [] trivial ⟨children, by rw [List.append_nil, hat]⟩
        rw [List.append_nil] at hplace
        rw [Walk.enter, Walk.enter, Walk.pathOf, Walk.pathOf, h.root, hplace]
      have hname := hkind [name] (List.prefix_append [name] rest)
      rw [at?_concat hat, at?_concat hat'] at hname
      rw [Comes, Comes, henter]
      cases hchild : child? children name with
      | none =>
        rw [hchild, Option.map_none, Option.map_eq_none_iff] at hname
        simp [hname]
      | some u =>
        rw [hchild, Option.map_some, Option.map_eq_some_iff] at hname
        obtain ⟨u', hchild', hkind'⟩ := hname
        have hadmits := admits_similar h (w.enter layers names) names name hkind'
        simp only [hchild', Option.some.injEq, exists_eq_left', hadmits]
        refine and_congr_right fun hadmitted => ?_
        have hu := (at?_concat hat name).trans hchild
        have hu' := (at?_concat hat' name).trans hchild'
        rw [List.append_assoc] at hu hu'
        refine ih hu hu' (fun front hfront => ?_) fun front hfront hinner => ?_
        · have hbelow := hkind (name :: front) ((List.prefix_append_right_inj [name]).mpr hfront)
          simpa using hbelow
        · have hbelow := hlayer (name :: front) ⟨u, hchild, hadmitted, hfront⟩ (by simpa using hinner)
          simpa using hbelow

/-- **The walk of a scan comes to the same on both disks**, if the file is not read for rules. -/
theorem comes_edited {skips : List Glob} (h : Edited d d' target old new)
    (hrule : ¬ IsRuleFile s d env target) (hroot : start? d s.root = some (place, t))
    (hroot' : start? d' s.root = some (place, t'))
    (hskips : Scan.skipped d s.root s.config = .ok skips) (names : List Name) :
    Comes (walk s d' env place skips) (Layer.above d' s.root place) [] t' names ↔
      Comes (walk s d env place skips) (Layer.above d s.root place) [] t names := by
  have hat := at?_of_find (find_of_start? hroot)
  have hat' := at?_of_find (find_of_start? hroot')
  have hplace : place ++ [] = place := List.append_nil place
  have hsimilar : Similar (walk s d env place skips) (walk s d' env place skips) :=
    ⟨h.here, rfl, fun _ => rfl, rfl, globalRules_edited h hrule⟩
  rw [above_edited h hrule hroot]
  refine comes_congr hsimilar (hplace.symm ▸ hat) (hplace.symm ▸ hat') (fun _ _ => h.kind_eq _)
    fun front hfront hdir => ofDir_congr (fun p hp => ?_) []
  exact alike_of_consulted h hrule (.below hroot hskips hfront (hplace ▸ hdir) hp)

/-! ### The root -/

/-- A scan starts at the same place on both disks. -/
theorem start?_edited (h : Edited d d' target old new) (hstart : start? d s.root = some (place, t)) :
    ∃ t', start? d' s.root = some (place, t') := by
  obtain ⟨t', hfind', hat'⟩ := find_edited h (find_of_start? hstart)
  refine ⟨t', ?_⟩
  rw [start?] at hstart ⊢
  split_ifs at hstart ⊢
  split at hstart
  next => cases hstart
  next found hfind hnot =>
    rw [hfind']
    split
    next found' content linkPlace p hfile hresolve =>
      cases hfile
      cases hstart
      obtain ⟨content', hfile⟩ := h.symm.at?_isFile hat'
      obtain rfl : t = .file content' := Option.some.inj ((at?_of_find hfind).symm.trans hfile)
      exact (hnot _ _ _ _ (resolve_link_edited h.symm hresolve) rfl).elim
    next found' hfound _ => rw [Except.ok.inj hfound]
    next e herror => cases herror
  next => cases hstart

theorem start?_edited_none (h : Edited d d' target old new) (hstart : start? d s.root = none) :
    start? d' s.root = none := by
  cases hstart' : start? d' s.root with
  | none => rfl
  | some found =>
    obtain ⟨t, ht⟩ := start?_edited h.symm hstart'
    rw [hstart] at ht
    cases ht

/-! ### What is found -/

/-- A file counts on both disks or on neither. -/
theorem counts_edited (h : Edited d d' target old new)
    (hsize : old.size ≤ s.sizeLimit ↔ new.size ≤ s.sizeLimit) (wanted : List Glob) {names : List Name}
    {content content' : ByteArray} (hat : d.tree.at? (place ++ names) = some (.file content))
    (hat' : d'.tree.at? (place ++ names) = some (.file content')) :
    s.counts wanted ⟨names, content'⟩ = s.counts wanted ⟨names, content⟩ := by
  have hcontent : content'.size ≤ s.sizeLimit ↔ content.size ≤ s.sizeLimit := by
    by_cases htarget : place ++ names = target
    · rw [htarget, h.old] at hat
      rw [htarget, h.new] at hat'
      cases hat
      cases hat'
      exact hsize.symm
    · rw [h.at?_file hat htarget] at hat'
      cases hat'
      rfl
  rw [counts, counts, decide_eq_decide.mpr hcontent]

/-- What is found on one disk is found on the other. -/
theorem visitedWith_subset {skips wanted : List Glob} (h : Edited d d' target old new)
    (hrule : ¬ IsRuleFile s d env target) (hsize : old.size ≤ s.sizeLimit ↔ new.size ≤ s.sizeLimit)
    (hskips : Scan.skipped d s.root s.config = .ok skips) :
    visitedWith s d env skips wanted ⊆ visitedWith s d' env skips wanted ∧
      visitedWith s d' env skips wanted ⊆ visitedWith s d env skips wanted := by
  cases hstart : start? d s.root with
  | none =>
    have hstart' := start?_edited_none h hstart
    rw [visitedWith, visitedWith, hstart, hstart']
    exact ⟨List.Subset.refl _, List.Subset.refl _⟩
  | some start =>
    obtain ⟨place, t⟩ := start
    obtain ⟨t', hstart'⟩ := start?_edited h hstart
    have hat := at?_of_find (find_of_start? hstart)
    have hat' := at?_of_find (find_of_start? hstart')
    have hcomes := comes_edited h hrule hstart hstart' hskips
    constructor
    · intro f hf
      obtain ⟨⟨names, content⟩, hleaf, hcounts, rfl⟩ := (mem_visitedWith hstart).mp hf
      obtain ⟨hopen, hfile, hway⟩ := (mem_files hat).mp hleaf
      obtain ⟨content', hfile'⟩ := h.at?_isFile hfile
      exact (mem_visitedWith hstart').mpr ⟨⟨names, content'⟩,
        (mem_files hat').mpr ⟨hopen, hfile', (hcomes names).mpr hway⟩,
          (counts_edited h hsize wanted hfile hfile').trans hcounts, rfl⟩
    · intro f hf
      obtain ⟨⟨names, content'⟩, hleaf, hcounts, rfl⟩ := (mem_visitedWith hstart').mp hf
      obtain ⟨hopen, hfile', hway⟩ := (mem_files hat').mp hleaf
      obtain ⟨content, hfile⟩ := h.symm.at?_isFile hfile'
      exact (mem_visitedWith hstart).mpr ⟨⟨names, content⟩,
        (mem_files hat).mpr ⟨hopen, hfile, (hcomes names).mp hway⟩,
          (counts_edited h hsize wanted hfile hfile').symm.trans hcounts, rfl⟩

/-- **Two scans, one of each content, give the same.** -/
theorem gives_edited (h : Edited d d' target old new) (hrule : ¬ IsRuleFile s d env target)
    (hsize : old.size ≤ s.sizeLimit ↔ new.size ≤ s.sizeLimit)
    (result : Except Scan.Error (List Found)) : s.Gives d' env result ↔ s.Gives d env result := by
  have hskipped := skipped_edited h hrule
  cases hskips : Scan.skipped d s.root s.config with
  | error e =>
    rw [hskips] at hskipped
    exact gives_congr_of_error (visited_of_skipped_error hskipped) (visited_of_skipped_error hskips)
      result
  | ok skips =>
    rw [hskips] at hskipped
    cases hwanted : Scan.wanted s.config with
    | error e =>
      exact gives_congr_of_error (visited_of_wanted_error hskipped hwanted)
        (visited_of_wanted_error hskips hwanted) result
    | ok wanted =>
      obtain ⟨hsubset, hsubset'⟩ : _ ⊆ visitedWith s d' env skips wanted ∧ _ :=
        visitedWith_subset h hrule hsize hskips
      refine gives_congr_of_perm (visited_eq hskipped hwanted) (visited_eq hskips hwanted) ?_ result
      exact (List.perm_ext_iff_of_nodup (nodup_visitedWith _ _ _ _ _) (nodup_visitedWith _ _ _ _ _)).mpr
        fun f => ⟨fun hf => hsubset' hf, fun hf => hsubset hf⟩

/-! ### The rows -/

/-- The manifest is the file at `target`. -/
def IsAt (s : Scan) (d : Disk) (target : List Name) (f : Found) : Prop :=
  ∃ place names, LeadsTo d s.root place ∧ place ++ names = target ∧ f = listed s.root names

/-- The row shows whether a content can be read: it has an error if the content is not UTF-8, and
with an error it has no entries. -/
structure Shows (v : View) (content : ByteArray) : Prop where
  error_iff : v.error?.isSome = true ↔ ¬ content.IsValidUTF8
  empty : v.error?.isSome = true → v.located.entries = []

/-- What is shown of a manifest before and after the edit: of the file that was edited its content, and
of any other the same. -/
structure Apart (s : Scan) (d d' : Disk) (target : List Name) (old new : ByteArray) (l : Locator)
    (f : Found) : Prop where
  other : ¬ IsAt s d target f → view d' l f = view d l f
  own : IsAt s d target f → Shows (view d l f) old ∧ Shows (view d' l f) new

theorem read_of_find {p : Path} {content : ByteArray} (h : d.find p = .ok (place, .file content)) :
    d.read p = Disk.decode content := by
  rw [Disk.read, Disk.readBytes, h]
  rfl

/-- What is shown of a manifest is what its path leads to. -/
theorem shows_view (l : Locator) {f : Found} {content : ByteArray}
    (h : d.find f.path = .ok (place, .file content)) : Shows (view d l f) content := by
  rw [view, read_of_find h, Disk.decode, String.fromUTF8?]
  split_ifs with hvalid
  · exact ⟨by simp [View.ofText, hvalid], by simp [View.ofText]⟩
  · exact ⟨by simp [View.unreadable, hvalid], fun _ => rfl⟩

/-- The row of a manifest before and after the edit. -/
theorem apart_of_visited (h : Edited d d' target old new) (hvisited : s.visited d env = .ok found)
    (l : Locator) {f : Found} (hf : f ∈ found) : Apart s d d' target old new l f := by
  obtain ⟨place, names, content, ⟨t, hroot⟩, hat, hopen, rfl⟩ := exists_of_visited hvisited hf
  obtain ⟨t', hroot', -⟩ := find_edited h hroot
  have hpath : (listed s.root names).path = s.root.below names := rfl
  have hfind := find_below ⟨t, hroot⟩ hat (fun p => by simp) hopen
  rw [← hpath] at hfind
  constructor
  · intro hother
    have hplace : place ++ names ≠ target := fun htarget =>
      hother ⟨place, names, ⟨t, hroot⟩, htarget, rfl⟩
    have hfind' := find_below ⟨t', hroot'⟩ (h.at?_file hat hplace) (fun p => by simp) hopen
    rw [← hpath] at hfind'
    rw [view, view, read_of_find hfind, read_of_find hfind']
  · rintro ⟨place', names', ⟨u, hu⟩, htarget, hlisted⟩
    obtain rfl : names = names' := listed_injective s.root hlisted
    obtain rfl : place = place' := congrArg Prod.fst (Except.ok.inj (hroot.symm.trans hu))
    rw [htarget, h.old] at hat
    cases hat
    have hfind' := find_below ⟨t', hroot'⟩ (htarget ▸ h.new) (fun p => by simp) hopen
    exact ⟨shows_view l hfind, shows_view l hfind'⟩

/-- **Scanned manifests are apart from one another.** Let two disks differ in the content of one file
that is not read for rules and that is on the same side of the size limit on both. Then a scan gives the
same on both: it fails for the same reason, or it finds the same manifests, in the same order if no two
of them are shown alike, as it is where all names are texts. They are shown with the same rows, but for
the row of that file. On each disk this row has an error if and only if the content there is not UTF-8,
and then it has no entries. -/
theorem scans_isolated (h : Edited d d' target old new) (hrule : ¬ IsRuleFile s d env target)
    (hsize : old.size ≤ s.sizeLimit ↔ new.size ≤ s.sizeLimit) (l : Locator) :
    (∀ result, s.Gives d' env result ↔ s.Gives d env result) ∧
    ∀ found found', s.Gives d env (.ok found) → s.Gives d' env (.ok found') →
      found'.Perm found ∧ (ShownApart found → found' = found) ∧
        (Everywhere IsText d.tree → ShownApart found) ∧
        ∀ f ∈ found, Apart s d d' target old new l f := by
  have hgives := gives_edited h hrule hsize
  refine ⟨hgives, fun found found' hfound hfound' => ?_⟩
  rw [hgives] at hfound'
  obtain ⟨visited, hvisited, hperm, -⟩ := gives_ok_iff.mp hfound
  refine ⟨perm_of_gives hfound hfound',
    fun happart => Except.ok.inj (eq_of_gives hfound happart hfound'),
    fun htexts => shownApart_of_gives htexts hfound, fun f hf => ?_⟩
  exact apart_of_visited h hvisited l (hperm.mem_iff.mp hf)

/-! ### Two manifests -/

/-- A manifest in a directory, and another one with some content beside it. -/
def pairDisk (content : ByteArray) : Disk where
  tree := .dir [(folder, .dir [(manifest, .file dashText)]), (manifest, .file content)]
  here := []
  distinct := by rfl

theorem everywhere_pair {P : Name → Prop} (content : ByteArray) (hfolder : P folder)
    (hmanifest : P manifest) :
    Everywhere P (pairDisk content).tree := by
  refine everywhere_dir fun c hc => ?_
  rcases List.mem_pair.mp hc with rfl | rfl
  · refine ⟨hfolder, everywhere_dir fun c hc => ?_⟩
    obtain rfl := List.mem_singleton.mp hc
    exact ⟨hmanifest, everywhere_file _⟩
  · exact ⟨hmanifest, everywhere_file _⟩

theorem linkless_pair (content : ByteArray) : Linkless (pairDisk content).tree := by
  refine linkless_dir fun c hc => ?_
  rcases List.mem_pair.mp hc with rfl | rfl
  · refine linkless_dir fun c hc => ?_
    obtain rfl := List.mem_singleton.mp hc
    exact linkless_file _
  · exact linkless_file _

theorem isManifest_pair {names : List Name} (h : names = [manifest] ∨ names = [folder, manifest]) :
    IsManifest hereScan (skipTexts Config.builtIn []) names dashText := by
  rcases h with rfl | rfl
  · exact ⟨by decide, (by decide : dashText.size ≤ defaultSizeLimit),
      ⟨_, rfl, (by decide +kernel : Stands Config.builtIn.patterns manifest.bytes)⟩,
      kept_of_inits (by decide +kernel), .inr (by decide)⟩
  · exact ⟨by decide, (by decide : dashText.size ≤ defaultSizeLimit),
      ⟨_, rfl, (by decide +kernel : Stands Config.builtIn.patterns manifest.bytes)⟩,
      kept_of_inits (by decide +kernel), .inr (by decide)⟩

/-- A scan finds both manifests. -/
theorem exists_run_pair : ∃ found, hereScan.run (pairDisk dashText) ⟨[]⟩ = .ok found ∧
    listed hereScan.root [manifest] ∈ found ∧ listed hereScan.root [folder, manifest] ∈ found := by
  have hplain : Plain hereScan (pairDisk dashText) [] _ [] :=
    plain_here rfl rfl rfl (everywhere_pair _ (by decide) (by decide)) rfl
      valid_skipTexts_builtIn valid_patterns_builtIn
  obtain ⟨skips, hskips, hskipped⟩ := exists_skipped hplain.lists hplain.skips
  obtain ⟨wanted, hwanted, hmatch⟩ := exists_wanted hplain.wanted
  have hmem : ∀ names, names = [manifest] ∨ names = [folder, manifest] → listed hereScan.root names ∈
      sorted (visitedWith hereScan (pairDisk dashText) ⟨[]⟩ skips wanted) := by
    intro names hnames
    rw [(perm_sorted _).mem_iff, mem_visitedWith_of_plain hplain (by decide) hskipped hmatch]
    refine ⟨names, dashText, ?_, isManifest_pair hnames, rfl⟩
    rcases hnames with rfl | rfl <;> rfl
  refine ⟨_, ?_, hmem _ (.inl rfl), hmem _ (.inr rfl)⟩
  rw [Scan.run, visited_eq hskips hwanted]
  rfl

theorem isAt_pair {names : List Name} :
    IsAt hereScan (pairDisk dashText) [manifest] (listed hereScan.root names) ↔ names = [manifest] := by
  constructor
  · rintro ⟨place, names', ⟨t, hplace⟩, htarget, hlisted⟩
    obtain rfl := listed_injective _ hlisted
    obtain rfl : [] = place := congrArg Prod.fst (Except.ok.inj ((find_here rfl rfl).symm.trans hplace))
    exact htarget
  · rintro rfl
    exact ⟨[], [manifest], ⟨_, find_here rfl rfl⟩, rfl, rfl⟩

/-- The manifest beside the directory loses its text: its new content is not UTF-8. Its row then has an
error and no entries, and the row of the other one still has its entry. -/
theorem scans_isolated_pair :
    let d := pairDisk dashText
    let d' := pairDisk ⟨#[0xff]⟩
    let edited := listed hereScan.root [manifest]
    let other := listed hereScan.root [folder, manifest]
    Edited d d' [manifest] dashText ⟨#[0xff]⟩ ∧ ¬ IsRuleFile hereScan d ⟨[]⟩ [manifest] ∧
      ∃ found, hereScan.run d ⟨[]⟩ = .ok found ∧ hereScan.run d' ⟨[]⟩ = .ok found ∧
        edited ∈ found ∧ other ∈ found ∧
        (view d' ⟨none⟩ edited).error?.isSome = true ∧ (view d' ⟨none⟩ edited).located.entries = [] ∧
        view d' ⟨none⟩ other = view d ⟨none⟩ other ∧ (view d ⟨none⟩ other).error? = none ∧
        (view d ⟨none⟩ other).located.entries.map (·.name) = ["a"] := by
  have hat : (pairDisk dashText).tree.at? [manifest] = some (.file dashText) := rfl
  have hedited : Edited (pairDisk dashText) (pairDisk ⟨#[0xff]⟩) [manifest] dashText ⟨#[0xff]⟩ :=
    edited_put hat ⟨#[0xff]⟩
  have hrule : ¬ IsRuleFile hereScan (pairDisk dashText) ⟨[]⟩ [manifest] :=
    not_isRuleFile (linkless_pair _) hat (by decide) fun p hp => by cases hp
  have htexts := everywhere_pair dashText (isText_ofText "a" (by decide)) (isText_ofText _ (by decide))
  obtain ⟨found, hrun, hmem, hmem'⟩ := exists_run_pair
  obtain ⟨hsame, hrows⟩ :=
    scans_isolated hedited hrule (by decide) ⟨none⟩
  have hgives : hereScan.Gives (pairDisk dashText) ⟨[]⟩ (.ok found) := hrun ▸ gives_run _ _ _
  obtain ⟨-, -, happart, hshown⟩ := hrows found found hgives ((hsame _).mpr hgives)
  have hrun' : hereScan.run (pairDisk ⟨#[0xff]⟩) ⟨[]⟩ = .ok found :=
    eq_of_gives hgives (happart htexts) ((hsame _).mp (gives_run _ _ _))
  obtain ⟨-, hbroken⟩ := (hshown _ hmem).own (isAt_pair.mpr rfl)
  have herror := hbroken.error_iff.mpr (by decide +kernel)
  have hother := (hshown _ hmem').other fun hat => absurd (isAt_pair.mp hat) (by decide)
  have hview : view (pairDisk dashText) ⟨none⟩ (listed hereScan.root [folder, manifest]) =
      .ofText "./a/manifest.yml" "a/manifest.yml" "name: a\n" ⟨none⟩ none := by
    have hfind : (pairDisk dashText).find (listed hereScan.root [folder, manifest]).path =
        .ok ([folder, manifest], .file dashText) :=
      @find_below _ _ [] _ _ ⟨_, find_here rfl rfl⟩ rfl nofun (by decide)
    have hpath : (listed hereScan.root [folder, manifest]).path.text = "./a/manifest.yml" := by
      decide +kernel
    have hshownPath : (listed hereScan.root [folder, manifest]).shownPath = "a/manifest.yml" := by
      decide +kernel
    rw [view, read_of_find hfind, dashText, decode_toUTF8, hpath, hshownPath]
  refine ⟨hedited, hrule, found, hrun, hrun', hmem, hmem', herror, hbroken.empty herror, hother, ?_, ?_⟩
  · rw [hview]
    rfl
  · rw [hview]
    decide +kernel

/-! ### Scans that give no order, or nothing -/

/-- The scan that takes one malformed glob for the names of manifests. -/
def malformedScan : Scan :=
  { hereScan with config := { hereScan.config with patterns := ["["] } }

theorem linkless_alike (content : ByteArray) : Linkless (alikeDisk content).tree := by
  refine linkless_dir fun c hc => ?_
  rcases List.mem_pair.mp hc with rfl | rfl <;> exact linkless_file _

theorem isManifest_alike {content : ByteArray} {name : Name} (hname : name = lower ∨ name = upper)
    (hsmall : content.size ≤ defaultSizeLimit) :
    IsManifest hereScan (skipTexts Config.builtIn []) [name] content := by
  rcases hname with rfl | rfl
  · exact ⟨by decide, hsmall,
      ⟨_, rfl, (by decide +kernel : Stands Config.builtIn.patterns lower.bytes)⟩,
      kept_of_inits (by decide +kernel), .inr (by decide)⟩
  · exact ⟨by decide, hsmall,
      ⟨_, rfl, (by decide +kernel : Stands Config.builtIn.patterns upper.bytes)⟩,
      kept_of_inits (by decide +kernel), .inr (by decide)⟩

/-- Of two manifests that are shown alike either may be listed first, before one of them has been given
another content and after that. And a scan with a glob that cannot be read lists nothing. -/
theorem alike_reordered :
    let d := alikeDisk dashText
    let d' := alikeDisk ⟨#[0xff]⟩
    Edited d d' [upper] dashText ⟨#[0xff]⟩ ∧ ¬ IsRuleFile hereScan d ⟨[]⟩ [upper] ∧
      (∃ found found', hereScan.Gives d ⟨[]⟩ (.ok found) ∧ hereScan.Gives d' ⟨[]⟩ (.ok found') ∧
        found'.map (·.path) ≠ found.map (·.path)) ∧
      malformedScan.run d ⟨[]⟩ = .error (.badPattern "[") := by
  have hat : (alikeDisk dashText).tree.at? [upper] = some (.file dashText) := rfl
  have hedited : Edited (alikeDisk dashText) (alikeDisk ⟨#[0xff]⟩) [upper] dashText ⟨#[0xff]⟩ :=
    edited_put hat ⟨#[0xff]⟩
  have hgives := fun (content : ByteArray) (hsmall : content.size ≤ defaultSizeLimit) =>
    gives_alike (s := hereScan) ⟨[]⟩ content rfl
      valid_skipTexts_builtIn valid_patterns_builtIn
      (isManifest_alike (.inl rfl) (by decide)) (isManifest_alike (.inr rfl) hsmall)
  have hrule : ¬ IsRuleFile hereScan (alikeDisk dashText) ⟨[]⟩ [upper] :=
    not_isRuleFile (linkless_alike _) hat (by decide) fun p hp => by cases hp
  have hplain : Plain hereScan (alikeDisk dashText) [] _ [] :=
    plain_here rfl rfl rfl (everywhere_alike _ (by decide) (by decide)) rfl
      valid_skipTexts_builtIn valid_patterns_builtIn
  obtain ⟨skips, hskips, -⟩ := exists_skipped hplain.lists hplain.skips
  have hskips' : skipped (alikeDisk dashText) malformedScan.root malformedScan.config = .ok skips :=
    hskips
  have hwanted : wanted malformedScan.config = .error (.badPattern "[") := by rfl
  refine ⟨hedited, hrule,
    ⟨_, _, (hgives dashText (by decide)).1, (hgives ⟨#[0xff]⟩ (by decide)).2, by decide⟩, ?_⟩
  rw [Scan.run, visited_of_wanted_error hskips' hwanted]
  rfl

end Manifest.Proofs.Scanning.Isolated
