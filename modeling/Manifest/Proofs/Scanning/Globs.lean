import Manifest.Proofs.Disks.Following
import Manifest.Scan.Filter

/-! # The globs of a scan

The texts that a scan reads as globs for what it passes over come from the settings and from the
ignore file of its root (`skipTexts`). If all of them are globs, and none is nested too deep, these are
read, and a path is passed over if one of the texts stands for it (`exists_skipped`); likewise for the
names of manifests (`exists_wanted`). -/

namespace Manifest.Proofs.Scanning.Globs

open Manifest.Scan Manifest.Proofs.Disks.Following

/-- One of some texts, read as a glob, stands for a path. -/
def Stands (texts : List String) (path : List UInt8) : Prop :=
  ∃ text ∈ texts, ∃ g ∈ Glob.parse? globStyle text, g.isMatch path = true

instance (texts : List String) (path : List UInt8) : Decidable (Stands texts path) :=
  inferInstanceAs (Decidable (∃ text ∈ texts, ∃ g ∈ Glob.parse? globStyle text, g.isMatch path = true))

/-- All of some texts are globs, and a set can hold them. -/
def Valid (texts : List String) : Prop :=
  ∀ text ∈ texts, ∃ g ∈ Glob.parse? globStyle text, g.isShallow = true

instance (texts : List String) : Decidable (Valid texts) :=
  inferInstanceAs (Decidable (∀ text ∈ texts, ∃ g ∈ Glob.parse? globStyle text, g.isShallow = true))

/-- The ignore file of a root lists names, or there is no such file and no names are listed. -/
def Lists (d : Disk) (root : Path) (names : List String) : Prop :=
  (d.pathExists (root.child ignoreFileName) = false ∧ names = []) ∨
    ∃ text, d.read (root.child ignoreFileName) = .ok text ∧ names = listedNames text

/-- What a scan reads as globs for paths to pass over, where the ignore file lists names. -/
def skipTexts (c : Config) (names : List String) : List String :=
  c.ignorePaths.flatMap expand ++ c.ignoreGlobs ++ names.flatMap expand

/-! ### Reading globs -/

theorem mapM_glob (e : String → Error) {texts : List String}
    (h : ∀ text ∈ texts, (Glob.parse? globStyle text).isSome) :
    texts.mapM (fun text => glob (e text) text) = .ok (texts.filterMap (Glob.parse? globStyle)) := by
  induction texts with
  | nil => rfl
  | cons text texts ih =>
    obtain ⟨hfirst, hrest⟩ := List.forall_mem_cons.mp h
    obtain ⟨g, hparse⟩ := Option.isSome_iff_exists.mp hfirst
    have hglob : glob (e text) text = .ok g := by rw [glob, hparse]
    rw [List.mapM_cons, hglob, ih hrest, List.filterMap_cons, hparse]
    rfl

theorem exists_globs (e : String → Error) {texts : List String} (h : Valid texts) :
    ∃ globs, texts.mapM (fun text => glob (e text) text) = .ok globs ∧
      globs.all (·.isShallow) = true ∧ ∀ path, anyMatch globs path = true ↔ Stands texts path := by
  refine ⟨_, mapM_glob e fun text htext => ?_, List.all_eq_true.mpr fun g hg => ?_, fun path => ?_⟩
  · obtain ⟨g, hg, -⟩ := h text htext
    exact Option.isSome_of_mem hg
  · obtain ⟨text, htext, hparse⟩ := List.mem_filterMap.mp hg
    obtain ⟨g', hg', hshallow⟩ := h text htext
    obtain rfl : g = g' := Option.some.inj (hparse.symm.trans hg')
    exact hshallow
  · simp only [anyMatch, Stands, List.any_eq_true, List.mem_filterMap, Option.mem_def]
    constructor
    · rintro ⟨g, ⟨text, htext, hg⟩, hmatch⟩
      exact ⟨text, htext, g, hg, hmatch⟩
    · rintro ⟨text, htext, g, hg, hmatch⟩
      exact ⟨g, ⟨text, htext, hg⟩, hmatch⟩

/-- Where globs have been read that a set can hold, all texts are globs. -/
theorem valid_of_globs {e : String → Error} {texts : List String} {globs : List Glob}
    (h : texts.mapM (fun text => glob (e text) text) = .ok globs)
    (hall : ∀ g ∈ globs, g.isShallow = true) : Valid texts := by
  induction texts generalizing globs with
  | nil => exact fun text htext => by cases htext
  | cons text texts ih =>
    rw [List.mapM_cons] at h
    cases hglob : glob (e text) text with
    | error err => rw [hglob] at h; cases h
    | ok g =>
      rw [hglob] at h
      cases hrest : texts.mapM fun text => glob (e text) text with
      | error err => rw [hrest] at h; cases h
      | ok rest =>
        rw [hrest] at h
        obtain rfl : g :: rest = globs := Except.ok.inj h
        obtain ⟨hg, hallRest⟩ := List.forall_mem_cons.mp hall
        refine List.forall_mem_cons.mpr ⟨⟨g, ?_, hg⟩, ih hrest hallRest⟩
        rw [glob] at hglob
        split at hglob
        next g' hparse => exact hparse.trans (congrArg some (Except.ok.inj hglob))
        next => cases hglob

theorem valid_append {texts more : List String} :
    Valid (texts ++ more) ↔ Valid texts ∧ Valid more := List.forall_mem_append

theorem anyMatch_append (globs more : List Glob) (path : List UInt8) :
    anyMatch (globs ++ more) path = (anyMatch globs path || anyMatch more path) := List.any_append

theorem stands_append {texts more : List String} {path : List UInt8} :
    Stands (texts ++ more) path ↔ Stands texts path ∨ Stands more path := by
  simp [Stands, or_and_right, exists_or]

theorem rootNames_of_lists {d : Disk} {root : Path} {names : List String}
    (h : Lists d root names) : rootNames d root = .ok names := by
  rcases h with ⟨hmissing, rfl⟩ | ⟨text, hread, rfl⟩
  · simp [rootNames, hmissing]
  · obtain ⟨content, hbytes⟩ := readBytes_of_read hread
    obtain ⟨place, hfind⟩ := find_of_readBytes hbytes
    have hexists : d.pathExists (root.child ignoreFileName) = true := by rw [Disk.pathExists, hfind]
    simp [rootNames, hexists, hread]

/-- The globs of a scan from its three sources, names and globs of the settings and listed names, which
together must make a set. -/
theorem skipped_eq (d : Disk) (root : Path) (c : Config) : skipped d root c =
    (do let paths ← expandAll .badIgnorePath c.ignorePaths
        let globs ← c.ignoreGlobs.mapM (glob .badIgnoreGlob)
        let listed ← rootNames d root >>= expandAll .badIgnoreLine
        gathered .deepIgnore (paths ++ globs ++ listed)) := by
  simp only [skipped, bind_assoc]

/-- The globs for paths to pass over stand for what their texts stand for. -/
theorem exists_skipped {d : Disk} {root : Path} {c : Config} {names : List String}
    (hnames : Lists d root names) (h : Valid (skipTexts c names)) :
    ∃ globs, skipped d root c = .ok globs ∧
      ∀ path, anyMatch globs path = true ↔ Stands (skipTexts c names) path := by
  obtain ⟨hfront, hlisted⟩ := valid_append.mp h
  obtain ⟨hpaths, hglobs⟩ := valid_append.mp hfront
  obtain ⟨paths, hpaths, hdepth, hmatchPaths⟩ := exists_globs (fun _ => .badIgnorePath) hpaths
  obtain ⟨globs, hglobs, hdepth', hmatchGlobs⟩ := exists_globs (fun _ => .badIgnoreGlob) hglobs
  obtain ⟨listed, hlisted, hdepth'', hmatchListed⟩ := exists_globs (fun _ => .badIgnoreLine) hlisted
  have hall : (paths ++ globs ++ listed).all (·.isShallow) = true := by
    rw [List.all_append, List.all_append, hdepth, hdepth', hdepth'']
    rfl
  refine ⟨paths ++ globs ++ listed, ?_, fun path => ?_⟩
  · rw [skipped, expandAll, hpaths, hglobs, rootNames_of_lists hnames]
    change (names.flatMap expand).mapM (glob .badIgnoreLine) >>= _ = _
    rw [hlisted]
    exact if_pos hall
  · rw [anyMatch_append, anyMatch_append, Bool.or_eq_true, Bool.or_eq_true, hmatchPaths, hmatchGlobs,
      hmatchListed, skipTexts, stands_append, stands_append]

theorem of_gathered {e : Error} {globs globs' : List Glob} (h : gathered e globs = .ok globs') :
    globs' = globs ∧ ∀ g ∈ globs, g.isShallow = true := by
  rw [gathered] at h
  split_ifs at h with hall
  exact ⟨(Except.ok.inj h).symm, List.all_eq_true.mp hall⟩

/-- A scan that knows what to pass over has read it from globs. -/
theorem valid_of_skipped {d : Disk} {root : Path} {c : Config} {names : List String}
    {globs : List Glob} (hnames : Lists d root names) (h : skipped d root c = .ok globs) :
    Valid (skipTexts c names) := by
  rw [skipped, rootNames_of_lists hnames] at h
  cases hpaths : expandAll .badIgnorePath c.ignorePaths with
  | error e => rw [hpaths] at h; cases h
  | ok paths =>
    cases htexts : c.ignoreGlobs.mapM (glob .badIgnoreGlob) with
    | error e => rw [hpaths, htexts] at h; cases h
    | ok texts =>
      rw [hpaths, htexts] at h
      cases hlisted : expandAll .badIgnoreLine names with
      | error e =>
        change expandAll .badIgnoreLine names >>= _ = _ at h
        rw [hlisted] at h
        cases h
      | ok listed =>
        change expandAll .badIgnoreLine names >>= _ = _ at h
        rw [hlisted] at h
        obtain ⟨-, hall⟩ := of_gathered h
        simp only [List.forall_mem_append] at hall
        exact valid_append.mpr ⟨valid_append.mpr
          ⟨valid_of_globs hpaths hall.1.1, valid_of_globs htexts hall.1.2⟩,
            valid_of_globs hlisted hall.2⟩

/-- The globs that have been read for paths to pass over stand for what their texts stand for. -/
theorem anyMatch_skipped {d : Disk} {root : Path} {c : Config} {names : List String}
    {globs : List Glob} (hnames : Lists d root names) (h : skipped d root c = .ok globs)
    (path : List UInt8) : anyMatch globs path = true ↔ Stands (skipTexts c names) path := by
  obtain ⟨read, hread, hmatch⟩ := exists_skipped hnames (valid_of_skipped hnames h)
  obtain rfl : read = globs := Except.ok.inj (hread.symm.trans h)
  exact hmatch path

/-- The globs for the names of manifests stand for what their texts stand for. -/
theorem exists_wanted {c : Config} (h : Valid c.patterns) :
    ∃ globs, wanted c = .ok globs ∧
      ∀ path, anyMatch globs path = true ↔ Stands c.patterns path := by
  obtain ⟨globs, hglobs, hall, hmatch⟩ := exists_globs .badPattern h
  refine ⟨globs, ?_, hmatch⟩
  rw [wanted, hglobs]
  exact if_pos hall

/-- The globs that have been read for the names of manifests stand for what their texts stand for. -/
theorem anyMatch_wanted {c : Config} {globs : List Glob} (h : wanted c = .ok globs)
    (path : List UInt8) : anyMatch globs path = true ↔ Stands c.patterns path := by
  have hvalid : Valid c.patterns := by
    rw [wanted] at h
    cases hread : c.patterns.mapM fun pattern => glob (.badPattern pattern) pattern with
    | error e => rw [hread] at h; cases h
    | ok read =>
      rw [hread] at h
      exact valid_of_globs hread (of_gathered h).2
  obtain ⟨read, hread, hmatch⟩ := exists_wanted hvalid
  obtain rfl : read = globs := Except.ok.inj (hread.symm.trans h)
  exact hmatch path

end Manifest.Proofs.Scanning.Globs
