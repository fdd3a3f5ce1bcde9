import Manifest.Proofs.Reporting
import Manifest.Report.Render

/-! # The lines of a report in the plain format

Without sources, a report on texts is, manifest for manifest, the path and a row for each entry
(`Part`, `Shows`), each with a line feed behind it. A row takes as many lines as its name does: line
feeds in names are written as they are, so there is one line for each entry exactly if no name holds
one. Then the lines are the paths and the rows themselves, and as long as no path looks like a row
they fall into the parts again (`partsOf_lines_iff`). Main statement: `plain_lines`. -/

namespace Manifest.Proofs.Reporting.PlainText

open Manifest.Proofs.Reporting

/-! ### Splitting at line feeds -/

/-- Lines, each with a line feed behind it. -/
def unlines (ls : List (List Char)) : List Char := ls.flatMap (· ++ ['\n'])

theorem unlines_append (ls ls' : List (List Char)) :
    unlines (ls ++ ls') = unlines ls ++ unlines ls' := List.flatMap_append

/-- Behind the last line feed there is nothing; each line is split on its own. -/
theorem splitOn_unlines : ∀ ls : List (List Char),
    (unlines ls).splitOn '\n' = ls.flatMap (·.splitOn '\n') ++ [[]]
  | [] => rfl
  | l :: ls => by
    have hcons : unlines (l :: ls) = l ++ '\n' :: unlines ls := by simp [unlines]
    rw [hcons, List.splitOn_append_cons_self, splitOn_unlines ls, List.flatMap_cons,
      List.append_assoc]

theorem length_splitOn : ∀ cs : List Char, (cs.splitOn '\n').length = cs.count '\n' + 1
  | [] => rfl
  | c :: cs => by
    rw [List.splitOn_cons_eq_if_modifyHead, List.count_cons]
    split
    · rw [List.length_cons, length_splitOn cs]
    · rw [List.length_modifyHead, length_splitOn cs, Nat.add_zero]

theorem flatMap_splitOn {ls : List (List Char)} (h : ∀ l ∈ ls, '\n' ∉ l) :
    ls.flatMap (·.splitOn '\n') = ls := by
  induction ls with
  | nil => rfl
  | cons l ls ih =>
    obtain ⟨hl, hls⟩ := List.forall_mem_cons.mp h
    rw [List.flatMap_cons, List.splitOn_eq_singleton hl, ih hls, List.singleton_append]

/-! ### Parts -/

/-- What the report says about a manifest: its path, and a row for each application. -/
structure Part where
  path : List Char
  rows : List (List Char)

/-- The path and the rows. -/
def Part.lines (p : Part) : List (List Char) := p.path :: p.rows

/-- What the row of the selected application starts with. -/
def star : List Char := ['*', ' ']

/-- What any other row starts with. -/
def blank : List Char := [' ', ' ']

/-- What stands behind a name: the mark of a root, and where the application starts and stops. -/
def behindName (rootLevel : Bool) (start stop : Report.Position) : String :=
  (if rootLevel then " (root) " else " ") ++ toString start.line ++ ":" ++ toString start.column
    ++ "-" ++ toString stop.line ++ ":" ++ toString stop.column

/-- The row is one of the entry, with the positions of the two ends of its span. -/
def IsRow (d : Document) (e : Entry) (row : List Char) : Prop :=
  ∃ marker ∈ [star, blank], ∃ start stop, IsMark d e.span.start start ∧ IsMark d e.span.stop stop ∧
    row = marker ++ (e.name ++ behindName e.rootLevel start stop).toList

/-- What is said about a manifest is right. The row at the index of the selected entry starts with the
star, and no other. -/
structure Shows (v : View) (p : Part) : Prop where
  path_eq : p.path = v.shownPath.toList
  rows : List.Forall₂ (IsRow v.document) v.located.entries p.rows
  starred_iff : ∀ i row, p.rows[i]? = some row → (star <+: row ↔ v.located.selected? = some i)
  count_starred : p.rows.countP (star.isPrefixOf ·) =
    if v.located.selection?.isSome = true then 1 else 0

/-- The line starts with a marker. -/
def isMarked (line : List Char) : Bool := star.isPrefixOf line || blank.isPrefixOf line

/-- The marked lines in front, and the parts behind them: a marked line is a row of the part whose path
is the last line without a marker in front of it. -/
def gather : List (List Char) → List (List Char) × List Part
  | [] => ([], [])
  | line :: lines =>
    if isMarked line then (line :: (gather lines).1, (gather lines).2)
    else ([], ⟨line, (gather lines).1⟩ :: (gather lines).2)

/-- The parts that lines fall into. -/
def partsOf (lines : List (List Char)) : List Part := (gather lines).2

theorem gather_rows {rows : List (List Char)} (h : ∀ row ∈ rows, isMarked row = true)
    (lines : List (List Char)) : gather (rows ++ lines) = (rows ++ (gather lines).1, (gather lines).2) := by
  induction rows with
  | nil => rfl
  | cons row rows ih =>
    obtain ⟨hrow, hrows⟩ := List.forall_mem_cons.mp h
    rw [List.cons_append, gather, ih hrows, if_pos hrow, List.cons_append]

/-- **The lines of parts fall into these parts**, if rows are marked and paths are not. -/
theorem gather_lines : ∀ {parts : List Part},
    (∀ p ∈ parts, isMarked p.path = false ∧ ∀ row ∈ p.rows, isMarked row = true) →
      gather (parts.flatMap Part.lines) = ([], parts)
  | [], _ => rfl
  | p :: parts, h => by
    obtain ⟨⟨hpath, hrows⟩, hparts⟩ := List.forall_mem_cons.mp h
    rw [List.flatMap_cons, Part.lines, List.cons_append, gather, gather_rows hrows,
      gather_lines hparts, if_neg (by simp [hpath]), List.append_nil]

/-- No part has a path that is marked. -/
theorem isMarked_of_mem_partsOf {p : Part} : ∀ {lines : List (List Char)}, p ∈ partsOf lines →
    isMarked p.path = false
  | [], hp => absurd hp List.not_mem_nil
  | line :: lines, hp => by
    rw [partsOf, gather] at hp
    split_ifs at hp with hline
    · exact isMarked_of_mem_partsOf hp
    · rcases List.mem_cons.mp hp with rfl | hp
      · exact Bool.not_eq_true _ ▸ hline
      · exact isMarked_of_mem_partsOf hp

/-! ### What is written about a text -/

variable {d : Document} {v : View} {views : List View}

/-- The row of an entry. -/
def row (d : Document) (e : Entry) (selected : Bool) : List Char :=
  (if selected then star else blank) ++ (e.name ++ behindName e.rootLevel
    (Report.position d e.span.start) (Report.position d e.span.stop)).toList

/-- The part of a view. -/
def part (v : View) : Part :=
  ⟨v.shownPath.toList, v.located.flagged.map fun (e, selected) => row v.document e selected⟩

theorem toList_plainApplication (d : Document) (e : Entry) (selected : Bool) :
    (Report.plainApplication (Report.application d false e selected)).toList =
      row d e selected ++ ['\n'] := by
  cases selected <;>
    simp [Report.plainApplication, Report.application, Report.extent, Report.present?, row, star,
      blank, behindName]

theorem toList_plainListing (hv : v.error? = none) :
    (Report.plainListing (Report.listing false v)).toList = unlines (part v).lines := by
  have hrows : (Report.listing false v).applications.flatMap (Report.plainApplication · |>.toList) =
      unlines (part v).rows := by
    simp only [Report.listing, part, unlines, List.flatMap_map, toList_plainApplication]
  rw [Report.plainListing, String.toList_append, String.toList_join, List.flatMap_map, hrows]
  simp [Report.listing, hv, Report.present?, Part.lines, unlines, part]

theorem toList_toPlain (hviews : ∀ v ∈ views, v.error? = none) :
    (Report.ofViews views false).toPlain.toList =
      unlines ((views.map part).flatMap Part.lines) := by
  rw [Report.toPlain, Report.ofViews, String.toList_join]
  induction views with
  | nil => rfl
  | cons v views ih =>
    obtain ⟨hv, hviews⟩ := List.forall_mem_cons.mp hviews
    simp only [List.map_cons, List.flatMap_cons, toList_plainListing hv, unlines_append, ih hviews]

theorem error?_of_isOfText (hv : IsOfText v) : v.error? = none := by
  obtain ⟨path, shownPath, text, l, previous?, rfl⟩ := hv
  rfl

theorem star_isPrefixOf_row (e : Entry) (selected : Bool) :
    star.isPrefixOf (row d e selected) = selected := by
  cases selected <;> rfl

theorem isMarked_row (e : Entry) (selected : Bool) : isMarked (row d e selected) = true := by
  cases selected <;> rfl

theorem isRow_row {e : Entry} (he : e.span.stop ≤ d.size) (selected : Bool) :
    IsRow d e (row d e selected) :=
  ⟨if selected then star else blank, by cases selected <;> simp, _, _,
    isMark_position (e.span.ordered.trans he), isMark_position he, rfl⟩

theorem shows_part (hv : ∀ e ∈ v.located.entries, e.span.stop ≤ v.document.size) :
    Shows v (part v) where
  path_eq := rfl
  rows := forall₂_flagged fun e he selected => isRow_row (hv e he) selected
  starred_iff i r hr := by
    rw [← List.isPrefixOf_iff_prefix]
    exact flag_iff_selected star_isPrefixOf_row hr
  count_starred := countP_flag star_isPrefixOf_row

/-! ### Line feeds in names -/

/-- No name has a line feed. -/
def OneLineNames (views : List View) : Prop :=
  ∀ v ∈ views, ∀ name ∈ v.located.names, '\n' ∉ name.toList

/-- One for each manifest and one for each application. -/
def oneEach (views : List View) : Nat :=
  views.length + (views.flatMap (·.located.entries)).length

/-- The number of line feeds in the names. -/
def nameFeeds (views : List View) : Nat :=
  (views.flatMap fun v => v.located.names.flatMap String.toList).count '\n'

theorem nameFeeds_eq_zero_iff : nameFeeds views = 0 ↔ OneLineNames views := by
  simp only [nameFeeds, List.count_eq_zero, List.mem_flatMap, OneLineNames, not_exists, not_and]

theorem newline_not_mem_toDigits (n : Nat) : '\n' ∉ Nat.toDigits 10 n := fun h =>
  absurd (Nat.isDigit_of_mem_toDigits (by decide) (by decide) h) (by decide)

theorem newline_not_mem_behindName (rootLevel : Bool) (start stop : Report.Position) :
    '\n' ∉ (behindName rootLevel start stop).toList := by
  cases rootLevel <;> simp [behindName, newline_not_mem_toDigits]

theorem count_row (e : Entry) (selected : Bool) :
    (row d e selected).count '\n' = e.name.toList.count '\n' := by
  have hbehind := List.count_eq_zero.mpr (newline_not_mem_behindName e.rootLevel
    (Report.position d e.span.start) (Report.position d e.span.stop))
  cases selected <;> simp [row, star, blank, hbehind]

theorem map_name_flagged (l : Located) : l.flagged.map (fun p => p.1.name) = l.names :=
  List.ext_getElem? fun i => by
    rw [Located.flagged, Located.names, List.getElem?_map, List.getElem?_mapIdx, Option.map_map,
      List.getElem?_map]
    rfl

theorem newline_not_mem_rows (hnames : OneLineNames views) (hv : v ∈ views) :
    ∀ r ∈ (part v).rows, '\n' ∉ r := by
  refine List.forall_mem_map.mpr fun p hp => ?_
  have hname : p.1.name ∈ v.located.names :=
    map_name_flagged v.located ▸ List.mem_map_of_mem hp
  rw [← List.count_eq_zero, count_row, List.count_eq_zero]
  exact hnames v hv _ hname

theorem length_flatMap_splitOn : ∀ es : List (Entry × Bool),
    ((es.map fun p => row d p.1 p.2).flatMap (·.splitOn '\n')).length =
      es.length + ((es.map fun p => p.1.name).flatMap String.toList).count '\n'
  | [] => rfl
  | p :: es => by
    have ih := length_flatMap_splitOn es
    simp only [List.map_cons, List.flatMap_cons, List.length_append, length_splitOn, count_row,
      List.count_append, List.length_cons, ih]
    omega

/-- The lines of a view's part, of which the path is one. -/
theorem length_splitOn_lines (hpath : '\n' ∉ v.shownPath.toList) :
    ((part v).lines.flatMap (·.splitOn '\n')).length =
      v.located.entries.length + 1 + (v.located.names.flatMap String.toList).count '\n' := by
  have hrows : ((part v).rows.flatMap (·.splitOn '\n')).length =
      v.located.entries.length + (v.located.names.flatMap String.toList).count '\n' := by
    rw [part, length_flatMap_splitOn, map_name_flagged, Located.flagged, List.length_mapIdx]
  have hone : ((part v).path.splitOn '\n').length = 1 := by
    rw [part, List.splitOn_eq_singleton hpath, List.length_singleton]
  rw [Part.lines, List.flatMap_cons, List.length_append, hone, hrows]
  omega

theorem length_splitOn_parts (hpaths : ∀ v ∈ views, '\n' ∉ v.shownPath.toList) :
    (((views.map part).flatMap Part.lines).flatMap (·.splitOn '\n')).length =
      oneEach views + nameFeeds views := by
  induction views with
  | nil => rfl
  | cons v views ih =>
    obtain ⟨hpath, hpaths⟩ := List.forall_mem_cons.mp hpaths
    have ih := ih hpaths
    simp only [oneEach, nameFeeds, List.map_cons, List.flatMap_cons, List.flatMap_append,
      List.length_append, List.length_cons, length_splitOn_lines hpath, List.count_append] at ih ⊢
    omega

/-- The lines are the paths and the rows, if neither hold line feeds. -/
theorem flatMap_splitOn_parts (hpaths : ∀ v ∈ views, '\n' ∉ v.shownPath.toList)
    (hnames : OneLineNames views) :
    ((views.map part).flatMap Part.lines).flatMap (·.splitOn '\n') =
      (views.map part).flatMap Part.lines := by
  refine flatMap_splitOn fun l hl => ?_
  rw [List.flatMap_map] at hl
  obtain ⟨v, hv, hl⟩ := List.mem_flatMap.mp hl
  rcases List.mem_cons.mp hl with rfl | hr
  · exact hpaths v hv
  · exact newline_not_mem_rows hnames hv l hr

/-- The lines fall into the parts exactly if no path looks like a row. -/
theorem partsOf_lines_iff : partsOf ((views.map part).flatMap Part.lines) = views.map part ↔
    ∀ v ∈ views, isMarked v.shownPath.toList = false := by
  refine ⟨fun hparts v hv => ?_, fun hmarks => ?_⟩
  · -- a marked path would have become a row of the part in front of it
    have hpart : part v ∈ partsOf ((views.map part).flatMap Part.lines) := by
      rw [hparts]
      exact List.mem_map_of_mem hv
    exact isMarked_of_mem_partsOf hpart
  · have hparts : ∀ p ∈ views.map part,
        isMarked p.path = false ∧ ∀ row ∈ p.rows, isMarked row = true :=
      List.forall_mem_map.mpr fun v hv =>
        ⟨hmarks v hv, List.forall_mem_map.mpr fun e _ => isMarked_row e.1 e.2⟩
    rw [partsOf, gather_lines hparts]

/-- **The lines of a report in the plain format.** There is a part for each view, with its path and a
row for each entry in order, of which the selected one's starts with the star and no other. The
rendering, split at its line feeds, is the paths and the rows, each split on its own, and nothing
behind the last line feed. So there is a line for each manifest, one for each application, and one
more for each line feed in a name: one for each exactly if no name has a line feed. Then the lines are
the paths and the rows themselves, and they tell the parts exactly if no path looks like a row. -/
theorem plain_lines {views : List View} (hviews : ∀ v ∈ views, IsOfText v)
    (hpaths : ∀ v ∈ views, '\n' ∉ v.shownPath.toList) :
    ∃ (parts : List Part) (lines : List (List Char)), List.Forall₂ Shows views parts ∧
      ((Report.ofViews views false).render .plain).toList.splitOn '\n' = lines ++ [[]] ∧
      lines = (parts.flatMap Part.lines).flatMap (·.splitOn '\n') ∧
      lines.length = oneEach views + nameFeeds views ∧
      (lines.length = oneEach views ↔ OneLineNames views) ∧
      (OneLineNames views → lines = parts.flatMap Part.lines ∧
        (partsOf lines = parts ↔ ∀ v ∈ views, isMarked v.shownPath.toList = false)) := by
  have htext := toList_toPlain fun v hv => error?_of_isOfText (hviews v hv)
  have hlength := length_splitOn_parts hpaths
  refine ⟨views.map part, _, ?_, ?_, rfl, hlength, ?_, fun hnames => ?_⟩
  · rw [List.forall₂_map_right_iff, List.forall₂_same]
    exact fun v hv => shows_part fun e he => stop_le_size_of_isOfText (hviews v hv) he
  · rw [Report.render, htext, splitOn_unlines]
  · rw [hlength, Nat.add_eq_left, nameFeeds_eq_zero_iff]
  · rw [flatMap_splitOn_parts hpaths hnames]
    exact ⟨rfl, partsOf_lines_iff⟩

/-- A manifest with two applications, and one whose only name has a line feed. -/
def feedViews : List View :=
  [.ofText "m/a.yml" "a.yml" "applications:\n- name: x\n- name: y\n" ⟨none⟩ (some ⟨"y", 0⟩),
    .ofText "m/b.yml" "b.yml" "name: \"a\\nb\"\n" ⟨none⟩ none]

/-- The report on both manifests and their three applications has six lines. That on the first one
has three, which tell that they are one part. -/
theorem plain_lines_feed :
    (∀ v ∈ feedViews, IsOfText v) ∧ (∀ v ∈ feedViews, '\n' ∉ v.shownPath.toList) ∧
      (∃ lines, ((Report.ofViews feedViews false).render .plain).toList.splitOn '\n' =
        lines ++ [[]] ∧ lines.length = 6) ∧
      ∃ parts lines, List.Forall₂ Shows (feedViews.take 1) parts ∧
        ((Report.ofViews (feedViews.take 1) false).render .plain).toList.splitOn '\n' =
          lines ++ [[]] ∧ lines.length = 3 ∧ partsOf lines = parts := by
  have hviews : ∀ v ∈ feedViews, IsOfText v := by
    intro v hv
    rcases List.mem_cons.mp hv with rfl | hv
    · exact ⟨_, _, _, _, _, rfl⟩
    · rw [List.mem_singleton.mp hv]
      exact ⟨_, _, _, _, _, rfl⟩
  have hpaths : ∀ v ∈ feedViews, '\n' ∉ v.shownPath.toList := by
    decide +kernel
  have hcount : oneEach feedViews + nameFeeds feedViews = 6 := by
    decide +kernel
  have hcount' : oneEach (feedViews.take 1) = 3 ∧ nameFeeds (feedViews.take 1) = 0 := by
    decide +kernel
  have hmarks : ∀ v ∈ feedViews.take 1, isMarked v.shownPath.toList = false := by
    decide +kernel
  obtain ⟨-, lines, -, hlines, -, hlength, -⟩ := plain_lines hviews hpaths
  obtain ⟨parts', lines', hparts', hlines', -, -, hiff', hnames'⟩ :=
    plain_lines (fun v hv => hviews v (List.mem_of_mem_take hv))
      fun v hv => hpaths v (List.mem_of_mem_take hv)
  have honeLine := nameFeeds_eq_zero_iff.mp hcount'.2
  exact ⟨hviews, hpaths, ⟨lines, hlines, hlength.trans hcount⟩, parts', lines', hparts', hlines',
    (hiff'.mpr honeLine).trans hcount'.1, (hnames' honeLine).2.mpr hmarks⟩

end Manifest.Proofs.Reporting.PlainText
