import Manifest.Proofs.Disks.Names
import Manifest.Proofs.Scanning.Walking
import Manifest.Scan

/-! # What a scan gives

The manifests that a scan finds are the files that its walk comes to and that count (`mem_visitedWith`),
each of them once (`nodup_visitedWith`). They are sorted by what is shown for their paths, and those
that are shown alike may come in any order (`gives_ok_iff`). If no two are, there is one order only
(`eq_of_gives`); so it is in a tree whose names are all texts (`shownApart_of_text`). Sorting keeps the
order of those that are shown alike, so it makes no difference whether manifests are picked before they
are sorted or behind that (`sorted_sublist`, `sorted_filter`). -/

namespace Manifest.Proofs.Scanning.Results

open Manifest.Ignore Manifest.Path Manifest.Scan
open Manifest.Proofs.Disks.Below Manifest.Proofs.Disks.Editing Manifest.Proofs.Disks.Following
open Manifest.Proofs.Disks.Making Manifest.Proofs.Disks.Names Manifest.Proofs.Disks.Places
open Manifest.Proofs.Scanning.Walking

/-! ### Sorting -/

/-- No two of some manifests are shown alike. -/
def ShownApart (found : List Found) : Prop := (found.map (·.shownPath)).Nodup

section

variable {l l' : List Found}

theorem ShownApart.perm (h : ShownApart l) (hperm : l'.Perm l) : ShownApart l' :=
  (hperm.map _).nodup_iff.mpr h

theorem perm_sorted (l : List Found) : (sorted l).Perm l := List.mergeSort_perm _ _

theorem le_trans_shown (a b c : Found) (hab : decide (a.shownPath ≤ b.shownPath) = true)
    (hbc : decide (b.shownPath ≤ c.shownPath) = true) : decide (a.shownPath ≤ c.shownPath) = true :=
  decide_eq_true (String.le_trans (of_decide_eq_true hab) (of_decide_eq_true hbc))

theorem le_total_shown (a b : Found) :
    (decide (a.shownPath ≤ b.shownPath) || decide (b.shownPath ≤ a.shownPath)) = true := by
  simpa using String.le_total a.shownPath b.shownPath

/-- What is shown for the paths does not decrease. -/
def InOrder (found : List Found) : Prop := found.Pairwise fun a b => a.shownPath ≤ b.shownPath

theorem inOrder_sorted (l : List Found) : InOrder (sorted l) :=
  (List.pairwise_mergeSort le_trans_shown le_total_shown l).imp fun h => of_decide_eq_true h

theorem sorted_eq_self (h : InOrder l) : sorted l = l :=
  List.mergeSort_of_pairwise (h.imp fun hab => decide_eq_true hab)

/-- What is sorted is in increasing order, if no two are shown alike. -/
theorem pairwise_sorted (h : ShownApart l) :
    (sorted l).Pairwise fun a b => a.shownPath < b.shownPath := by
  have hne : (sorted l).Pairwise fun a b => a.shownPath ≠ b.shownPath :=
    List.pairwise_map.mp (h.perm (perm_sorted l))
  exact ((inOrder_sorted l).and hne).imp fun hab => Std.lt_of_le_of_ne hab.1 hab.2

/-- The order before sorting makes no difference, if no two are shown alike. -/
theorem sorted_eq_of_perm (hperm : l.Perm l') (h : ShownApart l) : sorted l = sorted l' := by
  have h' : ShownApart l' := h.perm hperm.symm
  refine List.Perm.eq_of_pairwise (fun a b _ _ hab hba => ?_) (pairwise_sorted h)
    (pairwise_sorted h') ((perm_sorted l).trans (hperm.trans (perm_sorted l').symm))
  exact absurd hab (String.lt_asymm hba)

/-- Where one more is put in when it comes in front of what is sorted: behind what is less and in front
of all else. -/
theorem sorted_cons (a : Found) (l : List Found) : ∃ less more, sorted (a :: l) = less ++ a :: more ∧
    sorted l = less ++ more ∧ (∀ b ∈ less, ¬ a.shownPath ≤ b.shownPath) ∧
      ∀ b ∈ more, a.shownPath ≤ b.shownPath := by
  obtain ⟨less, more, hcons, hrest, hless⟩ := List.mergeSort_cons le_trans_shown le_total_shown a l
  refine ⟨less, more, hcons, hrest, fun b hb => by simpa using hless b hb, fun b hb => ?_⟩
  have hpairwise := inOrder_sorted (a :: l)
  rw [sorted, hcons] at hpairwise
  exact (List.pairwise_cons.mp (List.pairwise_append.mp hpairwise).2.1).1 b hb

/-- What is less and all else, told apart again. -/
theorem filter_append_of_le {a : Found} {less more : List Found}
    (hless : ∀ b ∈ less, ¬ a.shownPath ≤ b.shownPath) (hmore : ∀ b ∈ more, a.shownPath ≤ b.shownPath) :
    (less ++ more).filter (fun b => ¬ a.shownPath ≤ b.shownPath) = less ∧
      (less ++ more).filter (fun b => a.shownPath ≤ b.shownPath) = more := by
  have hlessKept : ∀ b ∈ less, decide (¬ a.shownPath ≤ b.shownPath) = true :=
    fun b hb => decide_eq_true (hless b hb)
  have hmoreKept : ∀ b ∈ more, decide (a.shownPath ≤ b.shownPath) = true :=
    fun b hb => decide_eq_true (hmore b hb)
  have hlessLeft : ∀ b ∈ less, ¬ decide (a.shownPath ≤ b.shownPath) = true :=
    fun b hb hkept => hless b hb (of_decide_eq_true hkept)
  have hmoreLeft : ∀ b ∈ more, ¬ decide (¬ a.shownPath ≤ b.shownPath) = true :=
    fun b hb hkept => of_decide_eq_true hkept (hmore b hb)
  constructor
  · rw [List.filter_append, List.filter_eq_self.mpr hlessKept, List.filter_eq_nil_iff.mpr hmoreLeft,
      List.append_nil]
  · rw [List.filter_append, List.filter_eq_nil_iff.mpr hlessLeft, List.filter_eq_self.mpr hmoreKept,
      List.nil_append]

/-- **Sorting keeps a part a part**, in the same order. -/
theorem sorted_sublist (h : l'.Sublist l) : (sorted l').Sublist (sorted l) := by
  induction h with
  | slnil => exact List.Sublist.refl _
  | @cons l' l a h ih =>
    obtain ⟨less, more, hcons, hrest, -, -⟩ := sorted_cons a l
    rw [hrest] at ih
    rw [hcons]
    exact ih.trans ((List.sublist_cons_self a more).append_left less)
  | @cons_cons l' l a h ih =>
    obtain ⟨less, more, hcons, hrest, hless, hmore⟩ := sorted_cons a l
    obtain ⟨less', more', hcons', hrest', hless', hmore'⟩ := sorted_cons a l'
    rw [hrest, hrest'] at ih
    obtain ⟨hfilterLess, hfilterMore⟩ := filter_append_of_le hless hmore
    obtain ⟨hfilterLess', hfilterMore'⟩ := filter_append_of_le hless' hmore'
    have hfront := ih.filter fun b => ¬ a.shownPath ≤ b.shownPath
    have hback := ih.filter fun b => a.shownPath ≤ b.shownPath
    rw [hfilterLess, hfilterLess'] at hfront
    rw [hfilterMore, hfilterMore'] at hback
    rw [hcons, hcons']
    exact hfront.append (hback.cons_cons a)

/-- It makes no difference whether manifests are picked before they are sorted or behind that. -/
theorem sorted_filter (q : Found → Bool) (l : List Found) :
    sorted (l.filter q) = (sorted l).filter q := by
  have hperm : (sorted (l.filter q)).Perm ((sorted l).filter q) :=
    (perm_sorted _).trans ((perm_sorted l).filter q).symm
  have hpicked : (sorted (l.filter q)).filter q = sorted (l.filter q) :=
    List.filter_eq_self.mpr fun f hf => List.of_mem_filter ((perm_sorted _).mem_iff.mp hf)
  have hsublist := (sorted_sublist (l.filter_sublist (p := q))).filter q
  rw [hpicked] at hsublist
  exact hsublist.eq_of_length hperm.length_eq

end

/-! ### Names of what is listed -/

/-- The names on the way from the root of a scan to a manifest. -/
def namesOf (root : Path) (f : Found) : List Name :=
  (f.path.parts.drop (openParts root).length).filterMap Name.ofPart?

theorem ofPart?_of_isIdle {part : Part} (h : part.isIdle = true) : Name.ofPart? part = none := by
  rw [Name.ofPart?, dif_neg]
  simp [Part.isName, h]

theorem namesOf_listed (root : Path) (names : List Name) :
    namesOf root (listed root names) = names := by
  have hpath : (listed root names).path = root.below names := rfl
  rw [namesOf, hpath]
  cases names with
  | nil =>
    obtain ⟨idle, hparts, hidle⟩ := parts_eq_openParts root
    change (root.parts.drop _).filterMap _ = _
    rw [hparts, List.drop_left]
    exact List.filterMap_eq_nil_iff.mpr fun part hpart => ofPart?_of_isIdle (hidle part hpart)
  | cons name rest =>
    have hsome : Name.ofPart? ∘ Name.part = some := funext Name.ofPart?_part
    rw [below_cons, List.drop_left, List.filterMap_map, hsome, List.filterMap_some]

theorem listed_injective (root : Path) : Function.Injective (listed root) :=
  Function.LeftInverse.injective (namesOf_listed root)

/-! ### What is found -/

/-- The walk of a scan. -/
def walk (s : Scan) (d : Disk) (env : Environment) (place : List Name) (skips : List Glob) : Walk :=
  ⟨d, s.root, place, skips, s.config.showHidden, globalRules d env⟩

/-- The files that the walk of a scan comes to from a place. -/
def files (s : Scan) (d : Disk) (env : Environment) (place : List Name) (skips : List Glob)
    (t : FileTree) : List Leaf :=
  (walk s d env place skips).leaves (Layer.above d s.root place) [] t

/-- The files that count as manifests, as a scan lists them. -/
def counted (s : Scan) (wanted : List Glob) (leaves : List Leaf) : List Found :=
  (leaves.filter (s.counts wanted)).map fun leaf => listed s.root leaf.names

/-- The manifests below the root, with globs that have been read. -/
def visitedWith (s : Scan) (d : Disk) (env : Environment) (skips wanted : List Glob) : List Found :=
  match start? d s.root with
  | none => []
  | some (place, t) => counted s wanted (files s d env place skips t)

variable {s : Scan} {d : Disk} {env : Environment} {place names : List Name}
variable {skips texts : List Glob} {t : FileTree} {found found' : List Found}

theorem visited_eq (hskips : skipped d s.root s.config = .ok skips)
    (hwanted : wanted s.config = .ok texts) :
    s.visited d env = .ok (visitedWith s d env skips texts) := by
  rw [visited, hskips, hwanted]
  cases hstart : start? d s.root with
  | none => rw [visitedWith, hstart]; rfl
  | some start => rw [visitedWith, hstart]; rfl

theorem visited_of_skipped_error {e : Scan.Error} (h : skipped d s.root s.config = .error e) :
    s.visited d env = .error e := by
  rw [visited, h]
  rfl

theorem visited_of_wanted_error {e : Scan.Error} (hskips : skipped d s.root s.config = .ok skips)
    (h : wanted s.config = .error e) : s.visited d env = .error e := by
  rw [visited, hskips, h]
  rfl

/-- A scan finds something if its globs can be read. -/
theorem visited_eq_ok_iff : s.visited d env = .ok found ↔ ∃ skips texts,
    skipped d s.root s.config = .ok skips ∧ wanted s.config = .ok texts ∧
      visitedWith s d env skips texts = found := by
  constructor
  · intro h
    cases hskips : skipped d s.root s.config with
    | error e => cases (visited_of_skipped_error hskips).symm.trans h
    | ok skips =>
      cases hwanted : wanted s.config with
      | error e => cases (visited_of_wanted_error hskips hwanted).symm.trans h
      | ok texts =>
        exact ⟨skips, texts, rfl, rfl, Except.ok.inj ((visited_eq hskips hwanted).symm.trans h)⟩
  · rintro ⟨skips, texts, hskips, hwanted, rfl⟩
    exact visited_eq hskips hwanted

theorem find_of_start? (h : start? d s.root = some (place, t)) : d.find s.root = .ok (place, t) := by
  rw [start?] at h
  split_ifs at h
  split at h
  next => cases h
  next found hfind hnot => rw [hfind, Option.some.inj h]
  next => cases h

/-- A scan starts at its root, if that is a directory. -/
theorem start?_of_dir {root : Path} {children : List (Name × FileTree)}
    (hinput : isStandardInput root = false) (h : d.find root = .ok (place, .dir children)) :
    start? d root = some (place, .dir children) := by
  simp [start?, hinput, h]

/-- The walk of a scan comes to the files that can be opened, on the way to which all is admitted. -/
theorem mem_files {leaf : Leaf} (hat : d.tree.at? place = some t) :
    leaf ∈ files s d env place skips t ↔ Disk.fits (s.root.below leaf.names) = true ∧
      d.tree.at? (place ++ leaf.names) = some (.file leaf.content) ∧
        Comes (walk s d env place skips) (Layer.above d s.root place) [] t leaf.names := by
  have hbelow : d.tree.at? (place ++ leaf.names) = t.at? leaf.names := by
    rw [at?_append, hat, Option.bind_some]
  rw [hbelow]
  exact mem_leaves_iff (FileTree.isDistinct_at? d.distinct hat)

theorem nodup_files (hat : d.tree.at? place = some t) :
    ((files s d env place skips t).map (·.names)).Nodup :=
  nodup_leaves _ _ _ t (FileTree.isDistinct_at? d.distinct hat)

theorem mem_counted {leaves : List Leaf} {f : Found} : f ∈ counted s texts leaves ↔
    ∃ leaf ∈ leaves, s.counts texts leaf = true ∧ listed s.root leaf.names = f := by
  rw [counted, List.mem_map]
  simp only [List.mem_filter, and_assoc]

/-- What a scan finds are the files that its walk comes to and that count. -/
theorem mem_visitedWith {f : Found} (hstart : start? d s.root = some (place, t)) :
    f ∈ visitedWith s d env skips texts ↔ ∃ leaf ∈ files s d env place skips t,
      s.counts texts leaf = true ∧ listed s.root leaf.names = f := by
  rw [visitedWith, hstart]
  exact mem_counted

/-- No manifest is found twice. -/
theorem nodup_visitedWith (s : Scan) (d : Disk) (env : Environment) (skips texts : List Glob) :
    (visitedWith s d env skips texts).Nodup := by
  rw [visitedWith]
  cases hstart : start? d s.root with
  | none => exact List.nodup_nil
  | some start =>
    obtain ⟨place, t⟩ := start
    have hnodup : ((files s d env place skips t).map (·.names)).Nodup :=
      nodup_files (at?_of_find (find_of_start? hstart))
    have hlisted := hnodup.map (listed_injective s.root)
    rw [List.map_map] at hlisted
    exact hlisted.sublist (List.filter_sublist.map _)

/-- What is found are files below the root, with paths that can be opened. -/
theorem exists_of_visited {f : Found} (hvisited : s.visited d env = .ok found) (hf : f ∈ found) :
    ∃ place names content, LeadsTo d s.root place ∧
      d.tree.at? (place ++ names) = some (.file content) ∧
        Disk.fits (s.root.below names) = true ∧ f = listed s.root names := by
  obtain ⟨skips, texts, -, -, rfl⟩ := visited_eq_ok_iff.mp hvisited
  cases hstart : start? d s.root with
  | none =>
    rw [visitedWith, hstart] at hf
    cases hf
  | some start =>
    obtain ⟨place, t⟩ := start
    have hfind := find_of_start? hstart
    obtain ⟨leaf, hleaf, -, rfl⟩ := (mem_visitedWith hstart).mp hf
    obtain ⟨hopen, hat, -⟩ := (mem_files (at?_of_find hfind)).mp hleaf
    exact ⟨place, leaf.names, leaf.content, ⟨t, hfind⟩, hat, hopen, rfl⟩

/-- In a tree with names that are texts no two manifests are shown alike. -/
theorem shownApart_of_text (htexts : Everywhere IsText d.tree)
    (hvisited : s.visited d env = .ok found) : ShownApart found := by
  have hnodup : found.Nodup := by
    obtain ⟨skips, texts, -, -, rfl⟩ := visited_eq_ok_iff.mp hvisited
    exact nodup_visitedWith s d env skips texts
  refine hnodup.map_on fun f hf g hg hshown => ?_
  obtain ⟨place, names, content, -, hat, -, rfl⟩ := exists_of_visited hvisited hf
  obtain ⟨place', names', content', -, hat', -, rfl⟩ := exists_of_visited hvisited hg
  have hnames : ∀ n ∈ names, IsText n := fun n hn =>
    htexts _ (by rw [hat]; rfl) n (List.mem_append_right _ hn)
  have hnames' : ∀ n ∈ names', IsText n := fun n hn =>
    htexts _ (by rw [hat']; rfl) n (List.mem_append_right _ hn)
  rw [eq_of_shown hnames hnames' hshown]

/-! ### What a scan may give -/

/-- **A scan may give what it has found in any order in which the shown paths do not decrease.** -/
theorem gives_ok_iff : s.Gives d env (.ok found) ↔
    ∃ visited, s.visited d env = .ok visited ∧ found.Perm visited ∧ InOrder found := by
  constructor
  · rintro ⟨visited, visited', hvisited, hperm, rfl⟩
    exact ⟨visited, hvisited, (perm_sorted visited').trans hperm, inOrder_sorted visited'⟩
  · rintro ⟨visited, hvisited, hperm, horder⟩
    exact ⟨visited, found, hvisited, hperm, (sorted_eq_self horder).symm⟩

theorem gives_ok_iff_of_visited {visited : List Found} (h : s.visited d env = .ok visited) :
    s.Gives d env (.ok found) ↔ found.Perm visited ∧ InOrder found := by
  constructor
  · intro hgives
    obtain ⟨visited', hvisited', hgiven⟩ := gives_ok_iff.mp hgives
    obtain rfl : visited = visited' := Except.ok.inj (h.symm.trans hvisited')
    exact hgiven
  · exact fun hgiven => gives_ok_iff.mpr ⟨visited, h, hgiven⟩

/-- A scan that does not fail gives nothing but what it has come to, in order. -/
theorem gives_iff_of_visited {visited : List Found} (h : s.visited d env = .ok visited)
    (result : Except Scan.Error (List Found)) : s.Gives d env result ↔
      ∃ found, result = .ok found ∧ found.Perm visited ∧ InOrder found := by
  cases result with
  | error e => exact iff_of_false (fun hgives => by cases h.symm.trans hgives) (by simp)
  | ok found => rw [gives_ok_iff_of_visited h]; simp

/-- A scan that fails gives nothing but the reason. -/
theorem gives_iff_of_error {e : Scan.Error} (h : s.visited d env = .error e)
    (result : Except Scan.Error (List Found)) : s.Gives d env result ↔ result = .error e := by
  constructor
  · intro hgives
    cases result with
    | error e' => rw [← hgives, h]
    | ok found =>
      obtain ⟨visited, hvisited, -⟩ := gives_ok_iff.mp hgives
      cases h.symm.trans hvisited
  · rintro rfl
    exact h

/-- What a scan may give has the same manifests each time. -/
theorem perm_of_gives (h : s.Gives d env (.ok found)) (h' : s.Gives d env (.ok found')) :
    found'.Perm found := by
  obtain ⟨visited, hvisited, hperm, -⟩ := gives_ok_iff.mp h
  obtain ⟨hperm', -⟩ := (gives_ok_iff_of_visited hvisited).mp h'
  exact hperm'.trans hperm.symm

/-- In a tree with names that are texts no two manifests that a scan may give are shown alike. -/
theorem shownApart_of_gives (htexts : Everywhere IsText d.tree) (h : s.Gives d env (.ok found)) :
    ShownApart found := by
  obtain ⟨visited, hvisited, hperm, -⟩ := gives_ok_iff.mp h
  exact (shownApart_of_text htexts hvisited).perm hperm

/-- The order in which the files are come to makes no difference, if no two manifests are shown
alike. -/
theorem eq_of_gives {result : Except Scan.Error (List Found)} (h : s.Gives d env (.ok found))
    (happart : ShownApart found) (h' : s.Gives d env result) : result = .ok found := by
  obtain ⟨visited, hvisited, hperm, horder⟩ := gives_ok_iff.mp h
  obtain ⟨found', rfl, hperm', horder'⟩ := (gives_iff_of_visited hvisited _).mp h'
  rw [← sorted_eq_self horder, ← sorted_eq_self horder',
    sorted_eq_of_perm (hperm.trans hperm'.symm) happart]

theorem run_eq_ok_iff : s.run d env = .ok found ↔
    ∃ visited, s.visited d env = .ok visited ∧ sorted visited = found := by
  rw [Scan.run]
  cases s.visited d env <;> simp [Except.map]

/-- Scans that may give the same give the same, where all names are texts. -/
theorem run_congr {s' : Scan} {d' : Disk}
    (h : ∀ found, s.Gives d env (.ok found) ↔ s'.Gives d' env (.ok found))
    (htexts : Everywhere IsText d.tree) : s.run d env = .ok found ↔ s'.run d' env = .ok found := by
  have happart : s.Gives d env (.ok found) → ShownApart found := shownApart_of_gives htexts
  constructor
  · intro hrun
    have hgives : s.Gives d env (.ok found) := hrun ▸ gives_run s d env
    exact eq_of_gives ((h found).mp hgives) (happart hgives) (gives_run s' d' env)
  · intro hrun
    have hgives : s.Gives d env (.ok found) := (h found).mpr (hrun ▸ gives_run s' d' env)
    exact eq_of_gives hgives (happart hgives) (gives_run s d env)

/-- Scans that fail for the same reason give the same. -/
theorem gives_congr_of_error {s' : Scan} {d' : Disk} {e : Scan.Error}
    (h : s'.visited d' env = .error e) (h' : s.visited d env = .error e)
    (result : Except Scan.Error (List Found)) : s'.Gives d' env result ↔ s.Gives d env result := by
  rw [gives_iff_of_error h, gives_iff_of_error h']

/-- Scans that find the same manifests, come to in different orders, give the same. -/
theorem gives_congr_of_perm {s' : Scan} {d' : Disk} (h : s'.visited d' env = .ok found')
    (h' : s.visited d env = .ok found) (hperm : found'.Perm found)
    (result : Except Scan.Error (List Found)) : s'.Gives d' env result ↔ s.Gives d env result := by
  have hsame : ∀ given : List Found, given.Perm found' ↔ given.Perm found := fun given =>
    ⟨fun hgiven => hgiven.trans hperm, fun hgiven => hgiven.trans hperm.symm⟩
  simp only [gives_iff_of_visited h, gives_iff_of_visited h', hsame]

section

variable {s' : Scan} {q : Found → Bool}

theorem run_filter (h : s'.visited d env = (s.visited d env).map (·.filter q)) :
    s'.run d env = (s.run d env).map (·.filter q) := by
  rw [Scan.run, Scan.run, h]
  cases s.visited d env with
  | error e => rfl
  | ok visited => exact congrArg Except.ok (sorted_filter q visited)

/-- **A scan that finds only some of the manifests** may give these in any order in which they are
picked from what the other one may give. -/
theorem gives_filter_iff (h : s'.visited d env = (s.visited d env).map (·.filter q))
    (result : Except Scan.Error (List Found)) : s'.Gives d env result ↔
      ∃ result', s.Gives d env result' ∧ result = result'.map (·.filter q) := by
  cases hvisited : s.visited d env with
  | error e =>
    rw [hvisited] at h
    simp only [gives_iff_of_error h, gives_iff_of_error hvisited]
    constructor
    · rintro rfl
      exact ⟨.error e, rfl, rfl⟩
    · rintro ⟨-, rfl, rfl⟩
      rfl
  | ok visited =>
    rw [hvisited] at h
    simp only [gives_iff_of_visited h, gives_iff_of_visited hvisited]
    constructor
    · rintro ⟨found, rfl, hperm, horder⟩
      -- what is left out can be sorted into what is found
      have hall : (found ++ visited.filter (!q ·)).Perm visited :=
        (hperm.append_right _).trans (List.filter_append_perm q visited)
      have hpicked : (found ++ visited.filter (!q ·)).filter q = found := by
        have hfound : ∀ f ∈ found, q f = true := fun f hf =>
          List.of_mem_filter (hperm.mem_iff.mp hf)
        rw [List.filter_append, List.filter_eq_self.mpr hfound, List.filter_filter]
        simp
      refine ⟨.ok (sorted (found ++ visited.filter (!q ·))),
        ⟨_, rfl, (perm_sorted _).trans hall, inOrder_sorted _⟩, ?_⟩
      rw [Except.map, ← sorted_filter, hpicked, sorted_eq_self horder]
    · rintro ⟨-, ⟨found, rfl, hperm, horder⟩, rfl⟩
      exact ⟨found.filter q, rfl, hperm.filter q, horder.filter q⟩

end

end Manifest.Proofs.Scanning.Results
