import Manifest.Proofs.Disks.Making
import Manifest.Proofs.Remembering.Runs
import Manifest.Proofs.Sessions

/-! # Histories of runs that remember

Selections are kept under what is shown for the canonical path of a file. So over any history of runs
that remember inside one repository, the store holds for every text the selection of the last run on a
file that is shown like that (`load_of_history`). As long as no other file is shown like a file, and
none ever is if the names are UTF-8, each run on it locates what a session of its manifest locates, and
runs on other files make no difference (`located_history`). Files whose names are not UTF-8 can be
shown alike, and then one run goes on with the selection of the other (`alike_disturbs`). -/

namespace Manifest.Proofs.Remembering.Histories

open Manifest.Path Manifest.Proofs.Disks.Editing Manifest.Proofs.Disks.Following
open Manifest.Proofs.Disks.Making Manifest.Proofs.Disks.Names Manifest.Proofs.Disks.Repositories
open Manifest.Proofs.Disks.Writing Manifest.Proofs.Remembering.Runs Manifest.Proofs.Sessions

/-! ### Histories -/

/-- Runs inside a repository that has no store at first, the last one in front. Between two runs
anything may happen on the disk, as long as the store stays as it was left. -/
inductive History (root : List Name) : List Run → Prop
  | none : History root []
  | first {r : Run} (hin : Inside root r.before)
      (hnew : r.before.pathExists (storeFile root) = false) : History root [r]
  | next {r r' : Run} {earlier : List Run} (hin : Inside root r'.before)
      (hkept : r'.before.readBytes (storeFile root) = r.result.disk.readBytes (storeFile root))
      (h : History root (r :: earlier)) : History root (r' :: r :: earlier)

/-- What the last run on a file has selected, the last run standing in front. -/
def lastSelection? (file : Path) : List Run → Option Selection
  | [] => none
  | r :: earlier => if r.file = file then r.located.selection? else lastSelection? file earlier

/-- What the last run on a file that is shown as a text has selected. -/
def lastShown? (text : String) : List Run → Option Selection
  | [] => none
  | r :: earlier => if r.file.text = text then r.located.selection? else lastShown? text earlier

/-- No other file of the runs is shown like this one. -/
def Apart (file : Path) (runs : List Run) : Prop := ∀ r ∈ runs, r.file.text = file.text → r.file = file

/-- The absolute path of UTF-8 names. -/
def IsTextual (file : Path) : Prop := ∃ names, (∀ n ∈ names, IsText n) ∧ file = ofNames names

/-- The pass of a session over the text of a run. -/
def pass (r : Run) : Step := .reconcile (.ofText r.text) none

/-- The runs on a file, the first one in front. -/
def runsOn (file : Path) (runs : List Run) : List Run := (runs.filter (·.file = file)).reverse

/-- The selections are those of the last runs on files that are shown like the keys. -/
def Remembers (m : Selections) (runs : List Run) : Prop := ∀ text, m.get? text = lastShown? text runs

/-! ### All runs -/

/-- Files with UTF-8 names are shown apart. -/
theorem apart_of_isTextual {file : Path} {runs : List Run} (h : ∀ r ∈ runs, IsTextual r.file)
    (hfile : IsTextual file) : Apart file runs := by
  intro r hr htext
  obtain ⟨names, hnames, heq⟩ := h r hr
  obtain ⟨own, hown, rfl⟩ := hfile
  rw [heq] at htext ⊢
  rw [eq_of_text_ofNames hnames hown htext]

theorem lastShown?_of_apart {file : Path} {runs : List Run} (h : Apart file runs) :
    lastShown? file.text runs = lastSelection? file runs := by
  induction runs with
  | nil => rfl
  | cons r earlier ih =>
    have hr : r.file.text = file.text ↔ r.file = file :=
      ⟨h r List.mem_cons_self, congrArg Path.text⟩
    simp only [lastShown?, lastSelection?, hr, ih fun q hq => h q (List.mem_cons_of_mem _ hq)]

/-- A run leaves in the store what it has selected, and under other keys what was there. -/
theorem remembers_update {r : Run} {earlier : List Run} {s : Store}
    (h : Remembers s.selections earlier) :
    Remembers (s.update r.before r.request.file r.located.selection?).selections
      (r :: earlier) := by
  intro text
  rw [get?_update, r.key_eq, h text, lastShown?]

/-- **The store that a run opens** holds under each key what the last run on a file that is shown like
it has selected. -/
theorem load_of_history {root : List Name} {r : Run} {earlier : List Run}
    (h : History root (r :: earlier)) :
    Inside root r.before ∧
      ∃ s, Store.load r.before (.ofNames root) = .ok s ∧ Remembers s.selections earlier := by
  induction earlier generalizing r with
  | nil =>
    cases h with
    | first hin hnew => exact ⟨hin, _, load_of_missing hnew, fun text => rfl⟩
  | cons last earlier ih =>
    cases h with
    | next hin hkept h =>
      obtain ⟨hinLast, s, hload, hs⟩ := ih h
      obtain ⟨s', hload', -, -⟩ := r.opens hin
      obtain ⟨t, hopens, -, hsave⟩ := last.opens hinLast
      obtain rfl : s = t := Except.ok.inj (hload.symm.trans hopens)
      have hfile := hkept.trans (last.saves hload hsave)
      refine ⟨hin, s', hload', ?_⟩
      rw [load_of_readBytes hfile] at hload'
      split_ifs at hload'
      obtain rfl := Except.ok.inj hload'
      exact remembers_update hs

theorem History.tail {root : List Name} {r : Run} {earlier : List Run}
    (h : History root (r :: earlier)) : History root earlier := by
  cases h with
  | first hin hnew => exact .none
  | next hin hkept h => exact h

theorem History.drop {root : List Name} {runs : List Run} :
    ∀ later : List Run, History root (later ++ runs) → History root runs
  | [], h => h
  | _ :: later, h => History.drop later h.tail

/-- A run locates from what the last run on a file that is shown like its own has selected. -/
theorem located_eq {root : List Name} {r : Run} {earlier : List Run}
    (h : History root (r :: earlier)) :
    r.located = r.locator.locate (.ofText r.text) (lastShown? r.file.text earlier) := by
  obtain ⟨hin, s, hload, hs⟩ := load_of_history h
  obtain ⟨t, hopens, hlocated, -⟩ := r.opens hin
  obtain rfl : s = t := Except.ok.inj (hload.symm.trans hopens)
  rw [hlocated, hs]

/-- With no other file shown like its own, that is the last run on the same file. -/
theorem located_eq_of_apart {root : List Name} {r : Run} {earlier : List Run}
    (h : History root (r :: earlier)) (hapart : Apart r.file earlier) :
    r.located = r.locator.locate (.ofText r.text) (lastSelection? r.file earlier) := by
  rw [located_eq h, lastShown?_of_apart hapart]

/-! ### Sessions -/

theorem trace_concat (s : Session) (steps : List Step) (step : Step) :
    trace s (steps ++ [step]) = trace s steps ++ [(step.take (run s steps)).1] := by
  induction steps generalizing s with
  | nil => rfl
  | cons first steps ih =>
    rw [List.cons_append, trace, trace, ih, List.cons_append]
    rfl

theorem run_concat (s : Session) (steps : List Step) (step : Step) :
    run s (steps ++ [step]) = (step.take (run s steps)).2 := by
  rw [run, List.foldl_append]
  rfl

theorem runsOn_cons_self {file : Path} {r : Run} (h : r.file = file) (earlier : List Run) :
    runsOn file (r :: earlier) = runsOn file earlier ++ [r] := by
  simp [runsOn, h]

theorem runsOn_cons_of_ne {file : Path} {r : Run} (h : r.file ≠ file) (earlier : List Run) :
    runsOn file (r :: earlier) = runsOn file earlier := by
  simp [runsOn, h]

theorem take_pass {r : Run} {s : Session}
    (h : r.located = s.locator.locate (.ofText r.text) s.selection?) :
    ((pass r).take s).1.map Pass.located = some r.located ∧
      ((pass r).take s).2 = ⟨s.locator, r.located⟩ := by
  rw [h]
  exact ⟨rfl, rfl⟩

/-- Behind the passes over the texts of the runs on a file, a session has located what these runs have
located, and starts from what the last of them has selected. -/
theorem session_of_history {root : List Name} {file : Path} {l : Locator} :
    ∀ {runs : List Run}, History root runs → Apart file runs →
      (∀ r ∈ runs, r.file = file → r.locator = l) →
      (run (.start l) ((runsOn file runs).map pass)).locator = l ∧
      (run (.start l) ((runsOn file runs).map pass)).selection? = lastSelection? file runs ∧
      (trace (.start l) ((runsOn file runs).map pass)).map (Option.map Pass.located) =
        (runsOn file runs).map fun r => some r.located
  | [], _, _, _ => ⟨rfl, rfl, rfl⟩
  | r :: earlier, h, hapart, hl => by
    have hearlier : Apart file earlier := fun q hq => hapart q (List.mem_cons_of_mem _ hq)
    obtain ⟨hlocator, hselection, htrace⟩ :=
      session_of_history h.tail hearlier fun q hq => hl q (List.mem_cons_of_mem _ hq)
    by_cases hfile : r.file = file
    · have hlocated : r.located =
          (run (.start l) ((runsOn file earlier).map pass)).locator.locate (.ofText r.text)
            (run (.start l) ((runsOn file earlier).map pass)).selection? := by
        rw [hlocator, hselection, located_eq_of_apart h (hfile ▸ hearlier),
          hl r List.mem_cons_self hfile, hfile]
      obtain ⟨hfound, hsession⟩ := take_pass hlocated
      rw [runsOn_cons_self hfile, List.map_append, List.map_singleton, run_concat, hsession,
        trace_concat, List.map_append, List.map_singleton, htrace, hfound, List.map_append,
        lastSelection?, if_pos hfile]
      exact ⟨hlocator, rfl, rfl⟩
    · rw [runsOn_cons_of_ne hfile, lastSelection?, if_neg hfile]
      exact ⟨hlocator, hselection, htrace⟩

/-- **Every run locates its text from what the last run on the same file has selected**, whatever runs
on other files lie between, if none of these is shown like its own file. So as long as the locator
stays the same, the runs on a file locate what a session locates that passes over the same texts. Files
with UTF-8 names are always shown apart. -/
theorem located_history {root : List Name} {runs : List Run} (h : History root runs) :
    (∀ later r earlier, runs = later ++ r :: earlier → Apart r.file earlier →
      r.located = r.locator.locate (.ofText r.text) (lastSelection? r.file earlier)) ∧
    (∀ file l, Apart file runs → (∀ r ∈ runs, r.file = file → r.locator = l) →
      (trace (.start l) ((runsOn file runs).map pass)).map (Option.map Pass.located) =
        (runsOn file runs).map fun r => some r.located) ∧
    ∀ file, IsTextual file → (∀ r ∈ runs, IsTextual r.file) → Apart file runs := by
  refine ⟨fun later r earlier hruns hapart => ?_, fun file l hapart hl => ?_,
    fun file hfile htexts => apart_of_isTextual htexts hfile⟩
  · subst hruns
    exact located_eq_of_apart (h.drop later) hapart
  · exact (session_of_history h hapart hl).2.2

/-! ### Two runs in a repository -/

/-- The name of a manifest. -/
def manifest : Name := .ofText "m"

/-- Two names that are not UTF-8, for which the same is shown. -/
def oddManifest : Name := ⟨⟨[0x6d, 0xff]⟩, by decide⟩

@[inherit_doc oddManifest] def likeOddManifest : Name := ⟨⟨[0x6d, 0xfe]⟩, by decide⟩

/-- The name of a directory. -/
def lower : Name := .ofText "b"

/-- A repository at the top with manifests, a directory, and the program's own directory, in which
there may be a store. -/
def sampleTree (content : String) (store? : Option Selections) : FileTree :=
  .dir [(repositoryEntry, .emptyDir), (manifest, .file content.toUTF8),
    (oddManifest, .file content.toUTF8), (likeOddManifest, .file content.toUTF8), (lower, .emptyDir),
    (settingsDir, .dir (store?.toList.map fun m => (Store.fileName, .file m.print.toUTF8)))]

theorem isDistinct_sampleTree (content : String) (store? : Option Selections) :
    (sampleTree content store?).isDistinct = true := by
  cases store? <;> rfl

/-- The sample repository as seen from a working directory. -/
def sampleDisk (content : String) (store? : Option Selections) (here : List Name) : Disk :=
  ⟨sampleTree content store?, here, isDistinct_sampleTree content store?⟩

/-- The path leads to a file at the top, in whatever way it is followed there. -/
structure IsFileAt (d : Disk) (p : Path) (name : Name) (content : String) : Prop where
  find : d.find p = .ok ([name], .file content.toUTF8)
  canonical : d.canonical p = .ok (ofNames [name])

theorem isFileAt_of_resolve {d : Disk} {p : Path} {name : Name} {content : String}
    (hname : Disk.fits (ofNames [name]) = true)
    (h : ∀ m, Disk.Manner.allows m [name] = true →
      d.resolve p m = .ok ⟨[name], some (.file content.toUTF8)⟩) : IsFileAt d p name content where
  find := spotted_eq_ok_iff.mpr (h .whole rfl)
  canonical := by
    have hallows : Disk.Manner.spelledOut.allows [name] = true := by
      rw [Disk.Manner.allows, hname, Bool.or_true]
    rw [Disk.canonical, h _ hallows]
    rfl

section

variable (content : String) (store? : Option Selections) (here : List Name)

theorem solid_sampleTree {name : Name}
    (hat : (sampleTree content store?).at? [name] = some (.file content.toUTF8)) :
    Solid (sampleTree content store?) [name] := ⟨_, hat, fun p => by simp⟩

/-- A file at the top is found there under its name. -/
theorem isFileAt_top {name : Name}
    (hat : (sampleTree content store?).at? [name] = some (.file content.toUTF8)) :
    IsFileAt (sampleDisk content store? []) ⟨.bare, [name.part]⟩ name content := by
  have hbytes : (⟨.bare, [name.part]⟩ : Path).bytes = name.part.bytes := rfl
  have hlimit : name.part.bytes.length + 1 < Disk.pathLimit :=
    Nat.lt_of_le_of_lt (Nat.succ_le_succ name.length_part_le) (by decide)
  have hnul : (⟨.bare, [name.part]⟩ : Path).bytes.contains 0 = false := by
    simpa [hbytes] using name.nul_notMem
  have hempty : (⟨.bare, [name.part]⟩ : Path) ≠ .empty := by
    simp [Path.empty, part_ne_empty]
  have hshort : Disk.fits ⟨.bare, [name.part]⟩ = true :=
    decide_eq_true (hbytes ▸ Nat.lt_of_succ_lt hlimit)
  refine isFileAt_of_resolve (decide_eq_true (by rw [bytes_ofNames]; exact hlimit)) fun m hallows =>
    resolve_of_follow hnul hempty hshort ?_
  refine (follow_of_solid ⟨_, rfl⟩ hallows (solid_sampleTree content store? hat)).trans ?_
  rw [Disk.follow, ← hat]
  rfl

theorem isFileAt_here : IsFileAt (sampleDisk content store? []) (.ofText "m") manifest content := by
  have hpath : Path.ofText "m" = ⟨.bare, [manifest.part]⟩ := by decide
  exact hpath ▸ isFileAt_top content store? rfl

/-- From the directory a file at the top is found above. -/
theorem isFileAt_above :
    IsFileAt (sampleDisk content store? [lower]) (.ofText "../m") manifest content := by
  refine isFileAt_of_resolve (by decide) fun m hallows =>
    resolve_of_follow (by decide) (by decide) (by decide) ?_
  have hat : (sampleTree content store?).at? [lower] = some .emptyDir := rfl
  have hstep : Disk.follow (sampleTree content store?) m Disk.linkLimit [lower]
      [.up, manifest.part] = Disk.follow (sampleTree content store?) m Disk.linkLimit []
        [manifest.part] := by
    rw [Disk.follow, hat]
    rfl
  refine hstep.trans ?_
  refine (follow_of_solid ⟨_, rfl⟩ hallows (solid_sampleTree content store? rfl)).trans ?_
  rw [Disk.follow]
  rfl

theorem isRepository_top :
    (sampleDisk content store? here).isRepository (ofNames []) = true := by
  have hfind : (sampleDisk content store? here).find ((ofNames []).child repositoryEntry) =
      .ok ([repositoryEntry], .emptyDir) := by
    refine find_of_leads (by decide) (by decide) (by decide) ?_
    exact .into repositoryEntry ⟨_, rfl⟩ ⟨_, rfl, by simp [FileTree.emptyDir]⟩
      (.done ⟨_, rfl, by simp [FileTree.emptyDir]⟩)
  rw [Disk.isRepository, Disk.pathExists, hfind]

theorem isRepository_below :
    (sampleDisk content store? here).isRepository (ofNames [lower]) = false :=
  pathExists_of_leads (.into lower ⟨_, rfl⟩ ⟨_, rfl, by simp [FileTree.emptyDir]⟩
    (.missing repositoryEntry ⟨_, rfl⟩ rfl))

theorem inside_top : Inside [] (sampleDisk content store? []) where
  below := List.nil_prefix
  repository := isRepository_top content store? []
  nearest := fun _ hmore hbelow => absurd (List.prefix_nil.mp hbelow) hmore

theorem inside_below : Inside [] (sampleDisk content store? [lower]) where
  below := List.nil_prefix
  repository := isRepository_top content store? [lower]
  nearest := by
    intro more hmore hbelow
    rcases List.prefix_cons_iff.mp hbelow with hnil | ⟨rest, rfl, hrest⟩
    · exact absurd hnil hmore
    · rw [List.prefix_nil.mp hrest]
      exact isRepository_below content store? [lower]

theorem leads_store : Leads (sampleTree content store?) Disk.linkLimit [] (storeFile []).parts
    ⟨[settingsDir, Store.fileName], store?.map fun m => .file m.print.toUTF8⟩ := by
  cases store? with
  | none =>
    exact .into settingsDir ⟨_, rfl⟩ ⟨_, rfl, by simp⟩ (.missing Store.fileName ⟨_, rfl⟩ rfl)
  | some m =>
    exact .into settingsDir ⟨_, rfl⟩ ⟨_, rfl, by simp⟩
      (.into Store.fileName ⟨_, rfl⟩ ⟨_, rfl, by simp⟩ (.done ⟨_, rfl, by simp⟩))

theorem readBytes_store (m : Selections) :
    (sampleDisk content (some m) here).readBytes (storeFile []) = .ok m.print.toUTF8 := by
  rw [Disk.readBytes,
    find_of_leads (by decide) (by decide) (by decide) (leads_store content (some m))]

theorem makeDirs_settings : (sampleDisk content store? here).makeDirs
    (Store.new (ofNames [])).dir = .ok (sampleDisk content store? here) := by
  have hpath : (Store.new (ofNames [])).dir = ofNames ([] ++ [settingsDir]) := by decide
  have htop : DirAt (sampleDisk content store? here).tree [] := ⟨_, rfl⟩
  obtain ⟨e, he, hmake⟩ : ∃ e, e ≠ .notFound ∧
      (sampleDisk content store? here).makeDir (ofNames ([] ++ [settingsDir])) = .error e :=
    (makeDir_cases htop).resolve_left fun hfree => by cases hfree.1
  have hdir : (sampleDisk content store? here).isDir (ofNames ([] ++ [settingsDir])) = true := by
    rw [Disk.isDir, find_of_leads (by decide) (by decide) (by decide)
      (.into settingsDir ⟨_, rfl⟩ ⟨_, rfl, by simp⟩ (.done ⟨_, rfl, by simp⟩))]
    rfl
  rw [hpath, Disk.makeDirs, if_neg (by decide), hmake]
  simp only [hdir, if_true]

theorem save_sampleTree (m : Selections) :
    Store.save (sampleDisk content store? here) ⟨ofNames [], m⟩ =
      .ok (sampleDisk content (some m) here) := by
  have hdirs : (sampleDisk content store? here).makeDirs (Store.mk (ofNames []) m).dir =
      .ok (sampleDisk content store? here) := makeDirs_settings content store? here
  have hresolve : (sampleDisk content store? here).resolve (storeFile []) .whole =
      .ok ⟨[settingsDir, Store.fileName], store?.map fun m => .file m.print.toUTF8⟩ :=
    resolve_of_leads (by decide) (by decide) (by decide) (leads_store content store?)
  have hwrite : (sampleDisk content store? here).write (Store.mk (ofNames []) m).path
      m.print.toUTF8 = .ok (sampleDisk content (some m) here) := by
    change Disk.write _ (storeFile []) _ = _
    rw [Disk.write, hresolve]
    cases store? <;> rfl
  rw [Store.save, hdirs]
  simp only [hwrite]

end

/-- The text of a manifest with two applications. -/
def sampleText : String := "applications:\n- name: a\n- name: b\n"

/-- The same text with another application in front. -/
def longerText : String := "applications:\n- name: c\n- name: a\n- name: b\n"

/-- A run that remembers. -/
def sampleRequest (file : Path) (app? : Option String) : LocateRequest :=
  ⟨some file, ⟨app?, none, false⟩, true, false⟩

theorem IsFileAt.read {d : Disk} {p : Path} {name : Name} {content : String}
    (h : IsFileAt d p name content) : d.read p = .ok content := by
  rw [Disk.read, Disk.readBytes, h.find]
  exact decode_toUTF8 content

theorem IsFileAt.key {d : Disk} {p : Path} {name : Name} {content : String}
    (h : IsFileAt d p name content) : Store.key d p = (ofNames [name]).text := by
  rw [Store.key, h.canonical]

theorem exists_sampleRun {content : String} {file : Path} {name : Name} {app? : Option String}
    {store? : Option Selections} {here : List Name} {m : Selections} {s : Selection}
    (hin : Inside [] (sampleDisk content store? here))
    (hfile : IsFileAt (sampleDisk content store? here) file name content)
    (hload : Store.load (sampleDisk content store? here) (ofNames []) = .ok ⟨ofNames [], m⟩)
    (hselection : ((Config.builtIn.locator app?).locate (.ofText content)
      (m.get? (ofNames [name]).text)).selection? = some s) :
    ∃ r : Run, r.request = sampleRequest file app? ∧ r.config = .builtIn ∧
      r.before = sampleDisk content store? here ∧ r.text = content ∧ r.file = ofNames [name] ∧
      r.result.disk = sampleDisk content (some (m.insert (ofNames [name]).text s)) here := by
  refine exists_run rfl rfl hin hfile.read hfile.canonical hload ?_
  change ((Store.mk (ofNames []) m).update _ file ((Config.builtIn.locator app?).locate
    (.ofText content) (m.get? (ofNames [name]).text)).selection?).save _ = _
  rw [hselection, Store.update, Store.set, hfile.key]
  exact save_sampleTree content _ here _

theorem text_manifest : (ofNames [manifest]).text = "/m" := by decide +kernel

/-- The store after the second application of a file was selected. -/
def pinnedStore (name : Name) : Selections :=
  Selections.empty.insert (ofNames [name]).text ⟨"b", 26⟩

/-- One run at the top pins the second application of a file, and the next run lists a file without a
pin. -/
theorem exists_twoRuns {name name' : Name} {file file' : Path} {content : String} {here : List Name}
    {s : Selection} (hfile : IsFileAt (sampleDisk sampleText none []) file name sampleText)
    (hin : Inside [] (sampleDisk content (some (pinnedStore name)) here))
    (hfile' : IsFileAt (sampleDisk content (some (pinnedStore name)) here) file' name' content)
    (hcarried : ((Config.builtIn.locator none).locate (.ofText content)
      ((pinnedStore name).get? (ofNames [name']).text)).selection? = some s) :
    ∃ first second : Run, History [] [second, first] ∧
      first.request = sampleRequest file (some "b") ∧ second.request = sampleRequest file' none ∧
      first.text = sampleText ∧ second.text = content ∧
      first.file = ofNames [name] ∧ second.file = ofNames [name'] ∧
      first.located.selection? = some ⟨"b", 26⟩ ∧ second.locator = ⟨none⟩ := by
  have hpinned : ((Config.builtIn.locator (some "b")).locate (.ofText sampleText)
      (Selections.empty.get? (ofNames [name]).text)).selection? = some ⟨"b", 26⟩ := by
    change ((Config.builtIn.locator (some "b")).locate (.ofText sampleText) none).selection? = _
    decide +kernel
  have hnone : (sampleDisk sampleText none []).pathExists (storeFile []) = false :=
    pathExists_of_leads (leads_store sampleText none)
  have hfits : ∀ e ∈ (pinnedStore name).entries, e.2.start < Text.wordCount := by
    intro e he
    obtain rfl := List.mem_singleton.mp he
    exact (by decide : 26 < Text.wordCount)
  obtain ⟨first, hrequest, hconfig, hbefore, htext, hname, hafter⟩ :=
    exists_sampleRun (inside_top sampleText none) hfile (load_of_missing hnone) hpinned
  have hstored := readBytes_store content here (pinnedStore name)
  obtain ⟨second, hrequest', hconfig', hbefore', htext', hname', -⟩ :=
    exists_sampleRun hin hfile' ((load_of_readBytes hstored).trans (if_pos hfits)) hcarried
  have hhistory : History [] [second, first] := by
    refine .next ?_ ?_ (.first ?_ ?_)
    · rw [hbefore']
      exact hin
    · rw [hbefore', hafter, readBytes_store]
      exact (readBytes_store sampleText [] (pinnedStore name)).symm
    · rw [hbefore]
      exact inside_top sampleText none
    · rw [hbefore]
      exact hnone
  have hselected : first.located.selection? = some ⟨"b", 26⟩ := by
    rw [located_eq hhistory.tail, Run.locator, hconfig, hrequest, htext]
    exact hpinned
  refine ⟨first, second, hhistory, hrequest, hrequest', htext, htext', hname, hname', hselected, ?_⟩
  rw [Run.locator, hconfig', hrequest']
  rfl

/-- One run pins the second application. The next run, from another directory and over a longer text,
goes on with it. -/
theorem located_history_pinnedOnce : ∃ first second : Run, History [] [second, first] ∧
    first.request = sampleRequest (.ofText "m") (some "b") ∧
    second.request = sampleRequest (.ofText "../m") none ∧
    first.text = sampleText ∧ second.text = longerText ∧
    second.located = Locator.locate ⟨none⟩ (.ofText longerText) (some ⟨"b", 26⟩) ∧
    second.located.selection? = some ⟨"b", 36⟩ := by
  have hcarried : ((Config.builtIn.locator none).locate (.ofText longerText)
      ((pinnedStore manifest).get? (ofNames [manifest]).text)).selection? = some ⟨"b", 36⟩ := by
    decide +kernel
  obtain ⟨first, second, hhistory, hrequest, hrequest', htext, htext', hfile, hfile', hselected,
      hlocator⟩ := exists_twoRuns (isFileAt_here sampleText none) (inside_below longerText _)
        (isFileAt_above longerText _) hcarried
  have hsame : first.file = second.file := hfile.trans hfile'.symm
  have hapart : Apart second.file [first] := fun r hr _ => List.mem_singleton.mp hr ▸ hsame
  have hlocated : second.located = Locator.locate ⟨none⟩ (.ofText longerText) (some ⟨"b", 26⟩) := by
    rw [(located_history hhistory).1 [] second [first] rfl hapart, hlocator, htext',
      lastSelection?, if_pos hsame, hselected]
  refine ⟨first, second, hhistory, hrequest, hrequest', htext, htext', hlocated, ?_⟩
  rw [hlocated]
  decide +kernel

/-- One run pins the second application of a file. A run on another file that is shown like it selects
the second application, too, although no run on that file has selected anything. -/
theorem alike_disturbs : ∃ first second : Run, History [] [second, first] ∧
    first.file = ofNames [oddManifest] ∧ second.file = ofNames [likeOddManifest] ∧
    lastSelection? second.file [first] = none ∧ second.located.selection? = some ⟨"b", 26⟩ ∧
    (second.locator.locate (.ofText second.text) none).selection? = some ⟨"a", 16⟩ := by
  have halike : (ofNames [oddManifest]).text = (ofNames [likeOddManifest]).text := by
    decide +kernel
  have hcarried : ((Config.builtIn.locator none).locate (.ofText sampleText)
      ((pinnedStore oddManifest).get? (ofNames [likeOddManifest]).text)).selection? =
        some ⟨"b", 26⟩ := by
    decide +kernel
  have hodd : IsFileAt (sampleDisk sampleText none []) ⟨.bare, [oddManifest.part]⟩ oddManifest
      sampleText := isFileAt_top sampleText none rfl
  have hlike : IsFileAt (sampleDisk sampleText (some (pinnedStore oddManifest)) [])
      ⟨.bare, [likeOddManifest.part]⟩ likeOddManifest sampleText := isFileAt_top sampleText _ rfl
  obtain ⟨first, second, hhistory, -, -, -, htext', hfile, hfile', hselected, hlocator⟩ :=
    exists_twoRuns hodd (inside_top sampleText _) hlike hcarried
  have hother : first.file ≠ second.file := by
    rw [hfile, hfile']
    decide
  have hshown : lastShown? second.file.text [first] = some ⟨"b", 26⟩ := by
    rw [hfile', ← halike, ← hfile, lastShown?, if_pos rfl, hselected]
  refine ⟨first, second, hhistory, hfile, hfile', if_neg hother, ?_, ?_⟩
  · rw [located_eq hhistory, hshown, hlocator, htext']
    decide +kernel
  · rw [hlocator, htext']
    decide +kernel

end Manifest.Proofs.Remembering.Histories
