import Manifest.Proofs.Scanning.Results

/-! # The files that a scan reads for rules

A scan reads some files for rules before it has found a single manifest: the ignore file of its root,
the settings of the user and the ignore file that they name, and for each directory that the walk comes
to, or that lies above the root, the ignore files and what belongs to a repository. If all paths that it
consults for them (`Consulted`) lead to the same on two disks, the rules are the same (`ofDir_congr`,
`globalRules_congr`). So a file that is none of these can be given another content
(`alike_of_consulted`, `skipped_edited`). Where there are no links, it is enough that the file does not
bear the name of one of them (`not_isRuleFile`). -/

namespace Manifest.Proofs.Scanning.RuleFiles

open Manifest.FileTree Manifest.Disk Manifest.Ignore Manifest.Ignore.Layer Manifest.Scan
open Manifest.Proofs.Disks.Below Manifest.Proofs.Disks.Editing Manifest.Proofs.Disks.Following
open Manifest.Proofs.Disks.Places Manifest.Proofs.Scanning.Results
open Manifest.Proofs.Scanning.Walking

/-! ### The paths -/

/-- The directory that the content of a file in place of a repository's own directory names. -/
def namedDir? (content : ByteArray) : Option Path :=
  (firstLine? content).bind fun line => (afterWord? "gitdir: " line).map Path.ofText

/-- The path is consulted for the rules of a directory. -/
inductive Consults (d : Disk) (dir : Path) : Path → Prop
  | general : Consults d dir (dir.child generalFile)
  | versioned : Consults d dir (dir.child versionedFile)
  /-- The own directory of a repository, or the file in its place. -/
  | entry : Consults d dir (dir.child repositoryEntry)
  | excluded : Consults d dir (excludeFile (dir.child repositoryEntry))
  /-- It names the directory that the repository shares with others. -/
  | common {found : List Name} {content : ByteArray} {named : Path}
      (hentry : d.find (dir.child repositoryEntry) = .ok (found, .file content))
      (hnamed : namedDir? content = some named) : Consults d dir (named.child "commondir")
  /-- The rules in that directory. -/
  | shared {found : List Name} {content : ByteArray} {shared : Path}
      (hentry : d.find (dir.child repositoryEntry) = .ok (found, .file content))
      (hshared : sharedDir? d content = some shared) : Consults d dir (excludeFile shared)

/-- The path is one that a scan consults for rules. -/
inductive Consulted (s : Scan) (d : Disk) (env : Environment) : Path → Prop
  /-- The settings that may name the ignore file of the user. -/
  | homeSettings {home : Path} (hhome : env.home? = some home) :
      Consulted s d env (home.child ".gitconfig")
  /-- The same for the settings at their other place. -/
  | settings {dir : Path} (hdir : settingsDir? env = some dir) :
      Consulted s d env ((dir.child "git").child "config")
  /-- The ignore file of the user. -/
  | global {file : Path} (hfile : globalFile? d env = some file) : Consulted s d env file
  /-- It is consulted for a directory above the root. -/
  | above {place : List Name} {t : FileTree} {p : Path}
      (hroot : start? d s.root = some (place, t)) (hcanonical : ∃ c, d.canonical s.root = .ok c)
      {n : Nat} (hn : n < place.length) (h : Consults d (.ofNames (place.take n)) p) :
      Consulted s d env p
  /-- It is consulted for the root or for a directory below it that the walk comes to. -/
  | below {place names : List Name} {t : FileTree} {skips : List Glob} {p : Path}
      (hroot : start? d s.root = some (place, t)) (hskips : skipped d s.root s.config = .ok skips)
      (hcomes : Comes (walk s d env place skips) (above d s.root place) [] t names)
      (hdir : DirAt d.tree (place ++ names)) (h : Consults d (s.root.below names) p) :
      Consulted s d env p

/-- The file at `target` is one that a scan reads for rules. -/
inductive IsRuleFile (s : Scan) (d : Disk) (env : Environment) (target : List Name) : Prop
  /-- It lists names to pass over. -/
  | listing (h : LeadsTo d (s.root.child ignoreFileName) target)
  | consulted {p : Path} (hp : Consulted s d env p) (h : LeadsTo d p target)

/-! ### Rules on two disks -/

/-- The path leads to nothing on both disks, or to the same place with the same file, or to a directory
on both. -/
def Alike (d d' : Disk) (p : Path) : Prop :=
  (∃ e e', d.find p = .error e ∧ d'.find p = .error e') ∨
    ∃ place t t', d.find p = .ok (place, t) ∧ d'.find p = .ok (place, t') ∧
      SameShape (some t) (some t')

section

variable {s : Scan} {d d' : Disk} {env : Environment} {place : List Name} {p : Path}

theorem Alike.pathExists_eq (h : Alike d d' p) : d'.pathExists p = d.pathExists p := by
  rw [pathExists, pathExists]
  rcases h with ⟨e, e', hfind, hfind'⟩ | ⟨place, t, t', hfind, hfind', -⟩ <;> rw [hfind, hfind']

theorem Alike.toOption_readBytes (h : Alike d d' p) :
    (d'.readBytes p).toOption = (d.readBytes p).toOption := by
  rw [readBytes, readBytes]
  rcases h with ⟨e, e', hfind, hfind'⟩ | ⟨place, t, t', hfind, hfind', hshape⟩
  · rw [hfind, hfind']
    rfl
  · rw [hfind, hfind']
    rcases hshape with heq | ⟨children, children', hdir, hdir'⟩
    · cases heq
      rfl
    · cases hdir
      cases hdir'
      rfl

theorem Alike.rulesIn_eq (h : Alike d d' p) : rulesIn d' p = rulesIn d p := by
  have hrules : ∀ d : Disk, rulesIn d p = ((d.readBytes p).toOption.map rulesOf).getD [] := by
    intro d
    rw [rulesIn]
    cases d.readBytes p <;> rfl
  rw [hrules, hrules, h.toOption_readBytes]

theorem sharedDir?_congr {content : ByteArray}
    (h : ∀ dir, namedDir? content = some dir → Alike d d' (dir.child "commondir")) :
    sharedDir? d' content = sharedDir? d content := by
  rw [namedDir?] at h
  rw [sharedDir?, sharedDir?]
  cases hline : firstLine? content with
  | none => simp
  | some line =>
    cases hword : afterWord? "gitdir: " line with
    | none => simp [hword]
    | some text =>
      have hread := (h (.ofText text) (by simp [hline, hword])).toOption_readBytes
      simp [hword, hread]

theorem excludedRules_congr {dir : Path} (h : ∀ p, Consults d dir p → Alike d d' p) :
    excludedRules d' dir = excludedRules d dir := by
  have hown := (h _ .excluded).rulesIn_eq
  rw [excludedRules, excludedRules]
  rcases h _ .entry with ⟨e, e', hfind, hfind'⟩ | ⟨found, t, t', hfind, hfind', hshape⟩
  · rw [hfind, hfind']
    exact hown
  · rw [hfind, hfind']
    rcases hshape with heq | ⟨children, children', hdir, hdir'⟩
    · cases heq
      cases t with
      | file content =>
        have hshared : sharedDir? d' content = sharedDir? d content :=
          sharedDir?_congr fun named hnamed => h _ (.common hfind hnamed)
        simp only [hshared]
        cases hdir : sharedDir? d content with
        | none => rfl
        | some shared => exact (h _ (.shared hfind hdir)).rulesIn_eq
      | link q => exact hown
      | dir children => exact hown
    · cases hdir
      cases hdir'
      exact hown

/-- The layer of a directory is the same, if all paths lead to the same that are consulted for it. -/
theorem ofDir_congr {dir : Path} (h : ∀ p, Consults d dir p → Alike d d' p) (trail : List Name) :
    Layer.ofDir d' dir trail = Layer.ofDir d dir trail := by
  rw [Layer.ofDir, Layer.ofDir, Disk.isRepository, Disk.isRepository, (h _ .entry).pathExists_eq,
    (h _ .general).rulesIn_eq, (h _ .versioned).rulesIn_eq, excludedRules_congr h]

theorem above_congr {root : Path} (hcanonical : d'.canonical root = d.canonical root)
    (h : (∃ c, d.canonical root = .ok c) → ∀ n < place.length, ∀ p,
      Consults d (.ofNames (place.take n)) p → Alike d d' p) :
    Layer.above d' root place = Layer.above d root place := by
  rw [Layer.above, Layer.above, hcanonical]
  cases hroot : d.canonical root with
  | error e => rfl
  | ok c =>
    refine List.map_congr_left fun n hn => ofDir_congr (h ⟨c, hroot⟩ n ?_) _
    simpa using hn

theorem globalFile?_congr (h : ∀ p, Consulted s d env p → Alike d d' p) :
    globalFile? d' env = globalFile? d env := by
  have hhome : ∀ home, env.home? = some home →
      (d'.readBytes (home.child ".gitconfig")).toOption =
        (d.readBytes (home.child ".gitconfig")).toOption :=
    fun home hhome => (h _ (.homeSettings hhome)).toOption_readBytes
  have hsettings : ∀ dir, settingsDir? env = some dir →
      (d'.readBytes ((dir.child "git").child "config")).toOption =
        (d.readBytes ((dir.child "git").child "config")).toOption :=
    fun dir hdir => (h _ (.settings hdir)).toOption_readBytes
  rw [globalFile?, globalFile?]
  cases henv : env.home? with
  | none =>
    cases hdir : settingsDir? env with
    | none => simp
    | some dir => simp [hsettings dir hdir]
  | some home =>
    cases hdir : settingsDir? env with
    | none => simp [hhome home henv]
    | some dir => simp [hhome home henv, hsettings dir hdir]

/-- The rules of the user are the same, if all paths lead to the same that a scan consults. -/
theorem globalRules_congr (h : ∀ p, Consulted s d env p → Alike d d' p) :
    globalRules d' env = globalRules d env := by
  rw [globalRules, globalRules, globalFile?_congr h]
  cases hfile : globalFile? d env with
  | none => rfl
  | some file => exact (h _ (.global hfile)).rulesIn_eq

end

/-! ### Rules after an edit -/

variable {s : Scan} {d d' : Disk} {env : Environment} {target place : List Name}
variable {old new : ByteArray}

/-- A path that does not lead to the edited file leads to the same on both disks. -/
theorem alike_edited (h : Edited d d' target old new) {p : Path} (hp : ¬ LeadsTo d p target) :
    Alike d d' p := by
  cases hfind : d.find p with
  | error e => exact .inl ⟨e, e, hfind, find_error_edited h hfind⟩
  | ok found =>
    obtain ⟨found, t⟩ := found
    have hne : found ≠ target := by
      rintro rfl
      exact hp ⟨t, hfind⟩
    obtain ⟨t', hfind', hshape⟩ := find_edited_of_ne h hfind hne
    exact .inr ⟨found, t, t', hfind, hfind', hshape⟩

/-- What a scan consults for rules is the same, if the file is none that it reads for them. -/
theorem alike_of_consulted (h : Edited d d' target old new) (hrule : ¬ IsRuleFile s d env target)
    {p : Path} (hp : Consulted s d env p) : Alike d d' p :=
  alike_edited h fun hlead => hrule (.consulted hp hlead)

/-- The layers above the root are the same. -/
theorem above_edited {t : FileTree} (h : Edited d d' target old new)
    (hrule : ¬ IsRuleFile s d env target) (hroot : start? d s.root = some (place, t)) :
    Layer.above d' s.root place = Layer.above d s.root place :=
  above_congr (canonical_edited h s.root) fun hcanonical _ hn _ hp =>
    alike_of_consulted h hrule (.above hroot hcanonical hn hp)

/-- The rules of the user are the same. -/
theorem globalRules_edited (h : Edited d d' target old new) (hrule : ¬ IsRuleFile s d env target) :
    globalRules d' env = globalRules d env :=
  globalRules_congr (s := s) fun _ hp => alike_of_consulted h hrule hp

/-- The globs for paths to pass over are the same. -/
theorem skipped_edited (h : Edited d d' target old new) (hrule : ¬ IsRuleFile s d env target) :
    skipped d' s.root s.config = skipped d s.root s.config := by
  have hlisting : ¬ LeadsTo d (s.root.child ignoreFileName) target := fun hlead =>
    hrule (.listing hlead)
  have hnames : rootNames d' s.root = rootNames d s.root := by
    rw [rootNames, rootNames, pathExists_edited h, read_edited h hlisting]
  rw [skipped, skipped, hnames]

/-! ### Files with names of their own -/

/-- A tree without links. -/
def Linkless (t : FileTree) : Prop := ∀ place p, t.at? place ≠ some (link p)

theorem linkless_file (content : ByteArray) : Linkless (file content) := by
  intro place p h
  cases place <;> cases h

theorem linkless_dir {children : List (Name × FileTree)} (h : ∀ c ∈ children, Linkless c.2) :
    Linkless (dir children) := by
  intro place p hat
  cases place with
  | nil =>
    rw [at?_nil] at hat
    cases hat
  | cons name rest =>
    obtain ⟨t, hchild, hat⟩ := Option.bind_eq_some_iff.mp hat
    exact h _ (mem_of_child? hchild) rest p hat

/-- The names of the files that a scan reads for rules, but for the ignore file of the user. -/
def ruleFileNames : List Part :=
  [ignoreFileName, ".gitconfig", "config", generalFile, versionedFile, repositoryEntry, "exclude",
    "commondir"]

/-- Where there are no links, parts lead on to a place that ends with the last of them. -/
theorem name_of_leads {tree : FileTree} {links : Nat} {todo : List Part} {spot : Disk.Spot}
    (hlinks : Linkless tree) (h : Leads tree links place todo spot)
    (hfile : ¬ DirAt tree spot.place) : (todo = [] ∧ spot.place = place) ∨
      ∃ front name init, todo = front ++ [Name.part name] ∧ spot.place = init ++ [name] := by
  induction h with
  | done h => exact .inl ⟨rfl, rfl⟩
  | idle hdir hidle next ih =>
    rcases ih hfile with ⟨-, hplace⟩ | ⟨front, name, init, hrest, hplace⟩
    · exact absurd (hplace ▸ hdir) hfile
    · exact .inr ⟨_ :: front, name, init, congrArg _ hrest, hplace⟩
  | above hdir next ih =>
    rcases ih hfile with ⟨-, hplace⟩ | ⟨front, name, init, hrest, hplace⟩
    · exact absurd (hplace ▸ hdir.dropLast) hfile
    · exact .inr ⟨_ :: front, name, init, congrArg _ hrest, hplace⟩
  | missing name hdir h => exact .inr ⟨[], name, _, rfl, rfl⟩
  | through name hdir h next ih => exact absurd h (hlinks _ _)
  | into name hdir h next ih =>
    rcases ih hfile with ⟨rfl, hplace⟩ | ⟨front, last, init, hrest, hplace⟩
    · exact .inr ⟨[], name, _, rfl, hplace⟩
    · exact .inr ⟨_ :: front, last, init, congrArg _ hrest, hplace⟩

theorem getLast?_parts_child (base : Path) (part : Part) :
    (base.child part).parts.getLast? = some part := by
  rw [child_eq, List.getLast?_concat]

/-- Where there are no links, a path that leads to a file ends with the name of the file. -/
theorem getLast?_of_leadsTo {p : Path} {part : Part} (hlinks : Linkless d.tree)
    (htarget : d.tree.at? target = some (file old)) (hpart : p.parts.getLast? = some part)
    (h : LeadsTo d p target) : ∃ name ∈ target.getLast?, name.part = part := by
  obtain ⟨t, hfind⟩ := h
  have hne : p.parts ≠ [] := by
    rintro hnil
    rw [hnil] at hpart
    cases hpart
  have hfollow := follow_of_find hfind
  have hleads := leads_of_follow rfl (dirAt_of_follow hne hfollow).solid hfollow
  have hfile : ¬ DirAt d.tree target := by
    rintro ⟨children, hdir⟩
    rw [htarget] at hdir
    cases hdir
  rcases name_of_leads hlinks hleads hfile with ⟨hnil, -⟩ | ⟨front, last, init, hparts, hplace⟩
  · exact absurd hnil hne
  · rw [hparts, List.getLast?_concat, Option.some.injEq] at hpart
    change target = _ at hplace
    exact ⟨last, by rw [hplace, List.getLast?_concat]; rfl, hpart⟩

/-- What is consulted for a directory bears one of the names. -/
theorem getLast?_of_consults {dir p : Path} (h : Consults d dir p) :
    ∃ part ∈ ruleFileNames, p.parts.getLast? = some part := by
  cases h with
  | general => exact ⟨_, by decide, getLast?_parts_child _ _⟩
  | versioned => exact ⟨_, by decide, getLast?_parts_child _ _⟩
  | entry => exact ⟨_, by decide, getLast?_parts_child _ _⟩
  | excluded => exact ⟨_, by decide, getLast?_parts_child _ _⟩
  | common hentry hnamed => exact ⟨_, by decide, getLast?_parts_child _ _⟩
  | shared hentry hshared => exact ⟨_, by decide, getLast?_parts_child _ _⟩

/-- **Where there are no links, a file is read for rules only if it bears the name of such a file** or
is the ignore file of the user. -/
theorem not_isRuleFile (hlinks : Linkless d.tree) (htarget : d.tree.at? target = some (file old))
    (hname : ∀ name ∈ target.getLast?, name.part ∉ ruleFileNames)
    (hglobal : ∀ p, globalFile? d env = some p → ¬ LeadsTo d p target) :
    ¬ IsRuleFile s d env target := by
  have hnot : ∀ {p part}, part ∈ ruleFileNames → p.parts.getLast? = some part →
      ¬ LeadsTo d p target := by
    intro p part hmem hlast hlead
    obtain ⟨name, hname', rfl⟩ := getLast?_of_leadsTo hlinks htarget hlast hlead
    exact hname name hname' hmem
  intro hrule
  cases hrule with
  | listing h => exact hnot (by decide) (getLast?_parts_child _ _) h
  | consulted hp h =>
    cases hp with
    | homeSettings hhome => exact hnot (by decide) (getLast?_parts_child _ _) h
    | settings hdir => exact hnot (by decide) (getLast?_parts_child _ _) h
    | global hfile => exact hglobal _ hfile h
    | above hroot hcanonical hn hp =>
      obtain ⟨part, hmem, hlast⟩ := getLast?_of_consults hp
      exact hnot hmem hlast h
    | below hroot hskips hcomes hdir hp =>
      obtain ⟨part, hmem, hlast⟩ := getLast?_of_consults hp
      exact hnot hmem hlast h

end Manifest.Proofs.Scanning.RuleFiles
