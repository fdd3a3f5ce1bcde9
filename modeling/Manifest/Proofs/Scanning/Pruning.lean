import Mathlib.Data.List.Infix
import Manifest.Proofs.Scanning.Exact
import Manifest.Proofs.Scanning.LiteralGlobs

/-! # More to pass over

A walk that passes over more paths comes to the same files, but for those on the way to which one of
these paths lies (`leaves_skipping`). So a scan with one more name to pass over finds what it finds
without it, in the same order, but for the manifests that the globs of the name exclude
(`visited_ignoring`). For a name without special characters these are the ones whose path has the parts
of the name as a run (`plain_name_excludes_runs`). -/

namespace Manifest.Proofs.Scanning.Pruning

open Manifest.FileTree Manifest.Ignore Manifest.Path Manifest.Scan
open Manifest.Proofs.Disks.Below Manifest.Proofs.Disks.Following Manifest.Proofs.Scanning.Exact
open Manifest.Proofs.Scanning.Globs Manifest.Proofs.Scanning.LiteralGlobs
open Manifest.Proofs.Scanning.Results Manifest.Proofs.Scanning.Walking

/-! ### Walks -/

/-- The walk with other globs for paths to pass over. -/
def skipping (w : Walk) (skips : List Glob) : Walk := { w with skipped := skips }

/-- On the way over some names, none of the paths of more than `n` of them is hit. -/
def passes (hit : List UInt8 → Bool) (n : Nat) (names : List Name) : Bool :=
  names.inits.all fun front => front.length ≤ n || !hit (joinNames front)

theorem passes_iff {hit : List UInt8 → Bool} {n : Nat} {names : List Name} :
    passes hit n names = true ↔
      ∀ front, front <+: names → n < front.length → hit (joinNames front) = false := by
  simp only [passes, List.all_eq_true, List.mem_inits, Bool.or_eq_true, decide_eq_true_iff,
    Bool.not_eq_true']
  refine forall₂_congr fun front _ => ?_
  rw [← Nat.not_lt]
  tauto

mutual

theorem prefix_of_mem_leaves {w : Walk} {leaf : Leaf} {layers : List Layer} {names : List Name} :
    ∀ {t : FileTree}, leaf ∈ w.leaves layers names t → names <+: leaf.names
  | .file content, h => by
    rw [Walk.leaves, List.mem_ite_nil_right, List.mem_singleton] at h
    rw [h.2]
  | .link target, h => by
    rw [Walk.leaves] at h
    cases h
  | .dir children, h => by
    rw [Walk.leaves, List.mem_ite_nil_right] at h
    exact prefix_of_mem_leavesOfAll h.2

theorem prefix_of_mem_leavesOfAll {w : Walk} {leaf : Leaf} {layers : List Layer}
    {names : List Name} : ∀ {children : List (Name × FileTree)},
      leaf ∈ w.leavesOfAll layers names children → names <+: leaf.names
  | [], h => by
    rw [Walk.leavesOfAll] at h
    cases h
  | (name, t) :: rest, h => by
    rw [Walk.leavesOfAll, List.mem_append, List.mem_ite_nil_right] at h
    rcases h with ⟨-, h⟩ | h
    · exact (List.prefix_append names [name]).trans (prefix_of_mem_leaves h)
    · exact prefix_of_mem_leavesOfAll h

end

section

variable {w : Walk} {more : List Glob} {hit : List UInt8 → Bool}

theorem admits_skipping (hmore : ∀ path, anyMatch more path = (anyMatch w.skipped path || hit path))
    (layers : List Layer) (names : List Name) (name : Name) (t : FileTree) :
    (skipping w more).admits layers names name t =
      (w.admits layers names name t && !hit (joinNames (names ++ [name]))) := by
  have hpath : (skipping w more).globalPath = w.globalPath := rfl
  have hglobal : (skipping w more).global = w.global := rfl
  have hhidden : (skipping w more).showHidden = w.showHidden := rfl
  have hskipped : (skipping w more).skipped = more := rfl
  simp only [Walk.admits, hpath, hglobal, hhidden, hskipped, hmore, Bool.not_or, Bool.and_assoc]

/-- Below a name that is hit no file is kept, and below another one the name makes no difference. -/
theorem filter_passes_child {names : List Name} {name : Name} {leaves : List Leaf}
    (hleaves : ∀ leaf ∈ leaves, names ++ [name] <+: leaf.names) :
    leaves.filter (fun leaf => passes hit names.length leaf.names) =
      if hit (joinNames (names ++ [name])) then []
      else leaves.filter fun leaf => passes hit (names ++ [name]).length leaf.names := by
  have hlength : (names ++ [name]).length = names.length + 1 := by simp
  split_ifs with hhit
  · refine List.filter_eq_nil_iff.mpr fun leaf hleaf hpasses => ?_
    have hmiss := passes_iff.mp hpasses _ (hleaves leaf hleaf) (by omega)
    rw [hhit] at hmiss
    cases hmiss
  · refine List.filter_congr fun leaf hleaf => ?_
    rw [Bool.eq_iff_iff, passes_iff, passes_iff]
    refine ⟨fun h front hfront hlong => h front hfront (by omega), fun h front hfront hlong => ?_⟩
    rcases Nat.lt_or_ge (names ++ [name]).length front.length with hlt | hge
    · exact h front hfront hlt
    · obtain rfl : front = names ++ [name] :=
        (List.prefix_of_prefix_length_le hfront (hleaves leaf hleaf) hge).eq_of_length (by omega)
      simpa using hhit

mutual

/-- **A walk that passes over more** comes to the files on the way to which nothing of that lies. -/
theorem leaves_skipping (hmore : ∀ path, anyMatch more path = (anyMatch w.skipped path || hit path))
    (layers : List Layer) (names : List Name) : ∀ t : FileTree,
      (skipping w more).leaves layers names t =
        (w.leaves layers names t).filter fun leaf => passes hit names.length leaf.names
  | .file content => by
    have hpasses : passes hit names.length names = true := by
      refine passes_iff.mpr fun front hfront hlong => ?_
      exact absurd hfront.length_le (Nat.not_le.mpr hlong)
    have hopen : (skipping w more).isOpen names = w.isOpen names := rfl
    rw [Walk.leaves, Walk.leaves, hopen]
    split_ifs <;> simp [hpasses]
  | .link target => by
    rw [Walk.leaves, Walk.leaves, List.filter_nil]
  | .dir children => by
    have hopen : (skipping w more).isOpen names = w.isOpen names := rfl
    rw [Walk.leaves, Walk.leaves, hopen]
    split_ifs
    · exact leavesOfAll_skipping hmore (w.enter layers names) names children
    · rw [List.filter_nil]

theorem leavesOfAll_skipping
    (hmore : ∀ path, anyMatch more path = (anyMatch w.skipped path || hit path))
    (layers : List Layer) (names : List Name) : ∀ children : List (Name × FileTree),
      (skipping w more).leavesOfAll layers names children =
        (w.leavesOfAll layers names children).filter fun leaf => passes hit names.length leaf.names
  | [] => by
    rw [Walk.leavesOfAll, Walk.leavesOfAll, List.filter_nil]
  | (name, t) :: rest => by
    have ht := leaves_skipping hmore (layers.map (·.below name)) (names ++ [name]) t
    have hrest := leavesOfAll_skipping hmore layers names rest
    rw [Walk.leavesOfAll, Walk.leavesOfAll, List.filter_append, hrest, admits_skipping hmore]
    congr 1
    by_cases hadmits : w.admits layers names name t = true
    · rw [hadmits, if_pos rfl, filter_passes_child fun leaf => prefix_of_mem_leaves, ht]
      cases hit (joinNames (names ++ [name])) <;> simp
    · simp [hadmits]

end

end

/-! ### Scans -/

/-- The scan with some more names to pass over. -/
def ignoring (s : Scan) (names : List String) : Scan :=
  { s with config := { s.config with ignorePaths := s.config.ignorePaths ++ names } }

variable {s : Scan} {d : Disk} {env : Environment} {entries : List String} {globs : List Glob}

/-- With more names to pass over the globs of a scan cannot be read for the same reason, or stand for
what they stand for without them and for what the globs of these names stand for. -/
theorem skipped_ignoring (hglobs : expandAll .badIgnorePath entries = .ok globs)
    (hshallow : globs.all (·.isShallow) = true) :
    (∃ e, skipped d s.root s.config = .error e ∧
      skipped d s.root (ignoring s entries).config = .error e) ∨
    ∃ skips more, skipped d s.root s.config = .ok skips ∧
      skipped d s.root (ignoring s entries).config = .ok more ∧
        ∀ path, anyMatch more path = (anyMatch skips path || anyMatch globs path) := by
  have hpaths : expandAll .badIgnorePath (ignoring s entries).config.ignorePaths =
      (expandAll .badIgnorePath s.config.ignorePaths).map (· ++ globs) := by
    rw [expandAll] at hglobs
    simp only [ignoring, expandAll, List.flatMap_append, List.mapM_append, hglobs]
    cases (s.config.ignorePaths.flatMap expand).mapM (glob .badIgnorePath) <;> rfl
  have hsame : (ignoring s entries).config.ignoreGlobs = s.config.ignoreGlobs := rfl
  rw [skipped_eq, skipped_eq, hpaths, hsame]
  cases expandAll .badIgnorePath s.config.ignorePaths with
  | error e => exact .inl ⟨e, rfl, rfl⟩
  | ok paths =>
    cases s.config.ignoreGlobs.mapM (glob .badIgnoreGlob) with
    | error e => exact .inl ⟨e, rfl, rfl⟩
    | ok texts =>
      cases rootNames d s.root >>= expandAll .badIgnoreLine with
      | error e => exact .inl ⟨e, rfl, rfl⟩
      | ok listed =>
        have hall : (paths ++ globs ++ texts ++ listed).all (·.isShallow) =
            (paths ++ texts ++ listed).all (·.isShallow) := by
          simp only [List.all_append, hshallow, Bool.and_true]
        by_cases hdeep : (paths ++ texts ++ listed).all (·.isShallow) = true
        · refine .inr ⟨paths ++ texts ++ listed, paths ++ globs ++ texts ++ listed, if_pos hdeep,
            if_pos (hall.trans hdeep), fun path => ?_⟩
          simp only [anyMatch_append]
          cases anyMatch paths path <;> cases anyMatch globs path <;> simp
        · exact .inl ⟨.deepIgnore, if_neg hdeep, if_neg (hall ▸ hdeep)⟩

/-! ### What is found -/

theorem counted_filter {wanted : List Glob} {leaves : List Leaf} (keep : List Name → Bool) :
    counted s wanted (leaves.filter fun leaf => keep leaf.names) =
      (counted s wanted leaves).filter fun f => keep (namesOf s.root f) := by
  rw [counted, counted, List.filter_map, List.filter_comm]
  refine congrArg _ (List.filter_congr fun leaf _ => ?_)
  rw [Function.comp_apply, namesOf_listed]

/-- **A scan with more names to pass over** finds what it finds without them, but for what lies on the
ways that the globs of these names stand for. -/
theorem visited_ignoring (hglobs : expandAll .badIgnorePath entries = .ok globs)
    (hshallow : globs.all (·.isShallow) = true) : (ignoring s entries).visited d env =
      (s.visited d env).map (·.filter fun f => passes (anyMatch globs) 0 (namesOf s.root f)) := by
  have hroot : (ignoring s entries).root = s.root := rfl
  have hwanted : wanted (ignoring s entries).config = wanted s.config := rfl
  rw [visited, visited, hroot, hwanted]
  rcases @skipped_ignoring s d entries globs hglobs hshallow with
    ⟨e, hskips, hmore⟩ | ⟨skips, more, hskips, hmore, hmatch⟩
  · rw [hskips, hmore]
    rfl
  · rw [hskips, hmore]
    cases wanted s.config with
    | error e => rfl
    | ok texts =>
      cases hstart : start? d s.root with
      | none => rfl
      | some start =>
        obtain ⟨place, t⟩ := start
        have hleaves : files (ignoring s entries) d env place more t =
            (files s d env place skips t).filter fun leaf => passes (anyMatch globs) 0 leaf.names :=
          leaves_skipping (w := walk s d env place skips) hmatch (Layer.above d s.root place) [] t
        have hfound : counted s texts (files (ignoring s entries) d env place more t) = _ :=
          hleaves ▸ counted_filter (passes (anyMatch globs) 0)
        exact congrArg Except.ok hfound

/-! ### Plain names -/

variable {entry : String} {run : List String}

/-- Some path on a way is hit by a plain name if the parts of the name are a run of the way. -/
theorem exists_front_iff (hname : trimName entry = "/".intercalate run)
    (hrun : ∀ part ∈ run, IsLiteral part) (names : List Name) :
    (∃ front, front ≠ [] ∧ front <+: names ∧ Stands (expand entry) (joinNames front)) ↔
      run ≠ [] ∧ run.map Part.ofText <:+: names.map Name.part := by
  have hstands : ∀ front : List Name, front ≠ [] → (Stands (expand entry) (joinNames front) ↔
      run ≠ [] ∧ run.map Part.ofText <:+: front.map Name.part) := fun front hne =>
    stands_expand_iff hname hrun (by simpa using hne) (by simpa using fun n _ => n.slash_notMem)
  constructor
  · rintro ⟨front, hne, hfront, hstand⟩
    obtain ⟨hrunNe, hinfix⟩ := (hstands front hne).mp hstand
    exact ⟨hrunNe, hinfix.trans (hfront.map Name.part).isInfix⟩
  · rintro ⟨hrunNe, hinfix⟩
    have hne : names ≠ [] := by
      rintro rfl
      exact hrunNe (by simpa using List.infix_nil.mp hinfix)
    exact ⟨names, hne, List.prefix_rfl, (hstands names hne).mpr ⟨hrunNe, hinfix⟩⟩

/-- The parts of a plain name are a run of the names on the way to a manifest. -/
def LiesBelow (root : Path) (run : List String) (f : Found) : Prop :=
  run ≠ [] ∧ run.map Part.ofText <:+: (namesOf root f).map Name.part

instance (root : Path) (run : List String) (f : Found) : Decidable (LiesBelow root run f) :=
  inferInstanceAs (Decidable (_ ∧ _))

theorem visited_plain (hname : trimName entry = "/".intercalate run)
    (hrun : ∀ part ∈ run, IsLiteral part) : (ignoring s [entry]).visited d env =
      (s.visited d env).map (·.filter fun f => ¬ LiesBelow s.root run f) := by
  obtain ⟨globs, hglobs, hshallow, hmatch⟩ :=
    exists_globs (fun _ => .badIgnorePath) (valid_expand hname hrun)
  have hall : expandAll .badIgnorePath [entry] = .ok globs := by
    rw [expandAll, List.flatMap_singleton]
    exact hglobs
  rw [visited_ignoring hall hshallow]
  refine congrArg (Except.map · _) (funext fun found => List.filter_congr fun f _ => ?_)
  rw [Bool.eq_iff_iff, passes_iff, decide_eq_true_iff, LiesBelow, ← exists_front_iff hname hrun]
  simp only [← hmatch, not_exists, not_and, Bool.not_eq_true, List.length_pos_iff]
  exact ⟨fun h front hne hfront => h front hfront hne, fun h front hfront hne => h front hne hfront⟩

/-- **A plain name to pass over excludes whole runs of names.** Let a name without blanks and slashes at
its ends be made of parts without special characters. The four globs that it stands for hit a path on
the way over some names if and only if its parts are a run of these names, at any depth; a name of no
part is one that has only slashes between its blanks, and excludes nothing. So a scan with one such name
more finds, in the same order, what it finds without it but for the manifests on the ways to which the
parts of the name are a run, and this holds of all that it may give. -/
theorem plain_name_excludes_runs (hname : trimName entry = "/".intercalate run)
    (hrun : ∀ part ∈ run, IsLiteral part) :
    (∀ names : List Name,
      (∃ front, front ≠ [] ∧ front <+: names ∧ Stands (expand entry) (joinNames front)) ↔
        run ≠ [] ∧ run.map Part.ofText <:+: names.map Name.part) ∧
    (run = [] ↔ ∀ c ∈ Text.trimBlank entry.toList, c = '/') ∧
    ∀ (s : Scan) (d : Disk) (env : Environment),
      (ignoring s [entry]).run d env =
        (s.run d env).map (·.filter fun f => ¬ LiesBelow s.root run f) ∧
      ∀ result, (ignoring s [entry]).Gives d env result ↔ ∃ result', s.Gives d env result' ∧
        result = result'.map (·.filter fun f => ¬ LiesBelow s.root run f) := by
  refine ⟨exists_front_iff hname hrun, ?_, fun s d env => ⟨?_, fun result => ?_⟩⟩
  · rw [← trimName_eq_empty_iff, hname, intercalate_eq_empty_iff hrun]
  · exact run_filter (visited_plain hname hrun)
  · exact gives_filter_iff (visited_plain hname hrun) result

/-- `target/` hits the directories of that name and what lies in them, at any depth, but no other names
that begin or end with it. -/
theorem plain_name_excludes_runs_target :
    (∀ names ∈ [[target], [folder, target, folder, manifest]],
      ∃ front, front ≠ [] ∧ front <+: names ∧ Stands (expand "target/") (joinNames front)) ∧
    (∀ names ∈ [[Name.ofText "mytarget", manifest], [Name.ofText "target.yml"]],
      ¬ ∃ front, front ≠ [] ∧ front <+: names ∧ Stands (expand "target/") (joinNames front)) ∧
    (ignoring (dashScan ⟨.here, [dash]⟩) ["target/"]).run dashDisk ⟨[]⟩ =
      ((dashScan ⟨.here, [dash]⟩).run dashDisk ⟨[]⟩).map
        (·.filter fun f => ¬ LiesBelow ⟨.here, [dash]⟩ ["target"] f) := by
  have hname : trimName "target/" = "/".intercalate ["target"] := by decide
  obtain ⟨hhits, -, hscans⟩ := plain_name_excludes_runs hname (by decide)
  refine ⟨fun names hnames => ?_, fun names hnames => ?_, ?_⟩
  · rcases List.mem_pair.mp hnames with rfl | rfl
    · exact (hhits _).mpr ⟨by decide, [], [], rfl⟩
    · exact (hhits _).mpr ⟨by decide, [folder], [folder, manifest], rfl⟩
  · rcases List.mem_pair.mp hnames with rfl | rfl <;>
      exact fun hhit => absurd ((hhits _).mp hhit) (by decide)
  · exact (hscans _ _ _).1

end Manifest.Proofs.Scanning.Pruning
