import Manifest.Proofs.Scanning.Pruning

/-! # Listed names

A scan passes over the names that the ignore file of its root lists, one a line (`mem_listedNames`), and
over those that are set. It makes no difference where a name is given, in which order and how often, or
what blanks and slashes stand around it (`mem_expand_congr`): what is listed and what is set stand for
the same globs (`skipped_listed`). -/

namespace Manifest.Proofs.Scanning.Listing

open Manifest.Scan Manifest.Proofs.Scanning.Globs Manifest.Proofs.Scanning.Pruning

/-! ### Lines -/

/-- The lines of a text without the blanks at their ends. -/
def trimmedLines (text : String) : List (List Char) :=
  (text.toList.splitOnP (· == '\n')).map Text.trimBlank

/-- The text with a carriage return at the end of each line. -/
def withReturns (text : String) : String :=
  String.ofList (text.toList.flatMap fun c => if c = '\n' then ['\r', '\n'] else [c])

/-- A name is listed if it is a line that is neither blank nor a comment. -/
theorem mem_listedNames {text name : String} : name ∈ listedNames text ↔
    ∃ line ∈ trimmedLines text, line ≠ [] ∧ line.head? ≠ some '#' ∧ String.ofList line = name := by
  have hnames : listedNames text = (trimmedLines text).filterMap fun line =>
      if line.isEmpty ∨ line.head? = some '#' then none else some (String.ofList line) := rfl
  rw [hnames, List.mem_filterMap]
  refine exists_congr fun line => and_congr_right fun _ => ?_
  split_ifs with h
  · have hnot : line ≠ [] → line.head? = some '#' := fun hne => by simpa [hne] using h
    simp only [false_iff]
    exact fun ⟨hne, hhash, _⟩ => hhash (hnot hne)
  · obtain ⟨hne, hhash⟩ := not_or.mp h
    simp only [Option.some.injEq]
    exact ⟨fun heq => ⟨by simpa using hne, hhash, heq⟩, fun h => h.2.2⟩

/-- A line may have got a carriage return at its end. -/
def MayReturn (line old : List Char) : Prop := line = old ∨ line = old ++ ['\r']

theorem trimBlank_of_mayReturn {line old : List Char} (h : MayReturn line old) :
    Text.trimBlank line = Text.trimBlank old := by
  rcases h with rfl | rfl
  · rfl
  · have hreturn : Text.isBlank '\r' = true := by decide
    rw [Text.trimBlank, Text.trimBlank, List.dropWhile_append]
    split_ifs with hblank
    · rw [List.isEmpty_iff.mp hblank]
      simp [hreturn]
    · simp [hreturn]

/-- The lines of the text are as before, up to the carriage returns. -/
theorem mayReturn_lines (cs : List Char) : List.Forall₂ MayReturn
    ((cs.flatMap fun c => if c = '\n' then ['\r', '\n'] else [c]).splitOnP (· == '\n'))
    (cs.splitOnP (· == '\n')) := by
  induction cs with
  | nil => exact .cons (.inl rfl) .nil
  | cons c cs ih =>
    by_cases hc : c = '\n'
    · subst hc
      have hempty : MayReturn ['\r'] [] := .inr rfl
      simpa [List.splitOnP_cons_eq_if_modifyHead, hempty] using ih
    · simp only [List.flatMap_cons, if_neg hc, List.cons_append, List.nil_append,
        List.splitOnP_cons_eq_if_modifyHead, beq_iff_eq]
      generalize (cs.flatMap fun c => if c = '\n' then ['\r', '\n'] else [c]).splitOnP _ = lines at ih
      generalize cs.splitOnP _ = olds at ih
      cases ih with
      | nil => exact .nil
      | cons hfirst hrest =>
        refine .cons ?_ hrest
        rcases hfirst with rfl | rfl
        · exact .inl rfl
        · exact .inr rfl

/-- A carriage return at the end of a line is blank. -/
theorem trimmedLines_withReturns (text : String) :
    trimmedLines (withReturns text) = trimmedLines text := by
  rw [trimmedLines, trimmedLines, withReturns, String.toList_ofList, ← List.forall₂_eq_eq_eq,
    List.forall₂_map_left_iff, List.forall₂_map_right_iff]
  exact (mayReturn_lines text.toList).imp fun _ _ => trimBlank_of_mayReturn

/-! ### Names -/

/-- The same names are given, up to their order, to how often they are given, and to the blanks and
slashes around them. -/
def SameNames (names names' : List String) : Prop :=
  ∀ name, name ≠ "" → (name ∈ names.map trimName ↔ name ∈ names'.map trimName)

theorem sameNames_of_lines {text text' : String}
    (h : ∀ line, line ∈ trimmedLines text ↔ line ∈ trimmedLines text') :
    SameNames (listedNames text) (listedNames text') := by
  intro name _
  simp only [List.mem_map, mem_listedNames, h]

theorem mem_flatMap_expand {names : List String} {text : String} : text ∈ names.flatMap expand ↔
    ∃ name ∈ names.map trimName, name ≠ "" ∧
      text ∈ [name, name ++ "/**", "**/" ++ name, "**/" ++ name ++ "/**"] := by
  have hexpand : ∀ s, text ∈ expand s ↔ trimName s ≠ "" ∧
      text ∈ [trimName s, trimName s ++ "/**", "**/" ++ trimName s, "**/" ++ trimName s ++ "/**"] := by
    intro s
    rw [expand]
    split_ifs with hempty
    · simp [show trimName s = "" by simpa using hempty]
    · simp [show trimName s ≠ "" by simpa using hempty]
  simp only [List.mem_flatMap, hexpand, List.mem_map, exists_exists_and_eq_and]

/-- The same names stand for the same globs. -/
theorem mem_expand_congr {names names' : List String} (h : SameNames names names') (text : String) :
    text ∈ names.flatMap expand ↔ text ∈ names'.flatMap expand := by
  rw [mem_flatMap_expand, mem_flatMap_expand]
  refine exists_congr fun name => ?_
  rw [← and_assoc, ← and_assoc]
  refine and_congr_left fun _ => and_congr_left fun hne => h name hne

variable {s : Scan} {d d' : Disk} {names : List String}

/-- Names that are set stand for what they stand for when they are listed. -/
theorem mem_skipTexts_ignoring {listed : List String} (h : SameNames names listed) (glob : String) :
    glob ∈ skipTexts (ignoring s names).config [] ↔ glob ∈ skipTexts s.config listed := by
  have hlisted := mem_expand_congr h glob
  simp only [skipTexts, ignoring, List.flatMap_append, List.mem_append, List.flatMap_nil,
    List.not_mem_nil, or_false, hlisted]
  tauto

/-- Globs that stand on one disk among what is set, and on the other among what is listed, are read on
both disks or on neither, and hit the same. -/
theorem skipped_listed {listed : List String} (hlists : Lists d s.root listed)
    (hlists' : Lists d' s.root []) (h : SameNames names listed) :
    (¬ Valid (skipTexts s.config listed) ∧ (∀ skips, skipped d s.root s.config ≠ .ok skips) ∧
      ∀ skips, skipped d' s.root (ignoring s names).config ≠ .ok skips) ∨
    ∃ skips skips', skipped d s.root s.config = .ok skips ∧
      skipped d' s.root (ignoring s names).config = .ok skips' ∧
        ∀ path, anyMatch skips' path = anyMatch skips path := by
  have hmem := mem_skipTexts_ignoring (s := s) h
  have hvalid : Valid (skipTexts (ignoring s names).config []) ↔ Valid (skipTexts s.config listed) :=
    forall_congr' fun glob => imp_congr_left (hmem glob)
  by_cases hglobs : Valid (skipTexts s.config listed)
  · obtain ⟨skips, hskips, hmatch⟩ := exists_skipped hlists hglobs
    obtain ⟨skips', hskips', hmatch'⟩ := exists_skipped hlists' (hvalid.mpr hglobs)
    refine .inr ⟨skips, skips', hskips, hskips', fun path => ?_⟩
    rw [Bool.eq_iff_iff, hmatch, hmatch']
    exact exists_congr fun glob => and_congr_left fun _ => hmem glob
  · refine .inl ⟨hglobs, fun skips hskips => hglobs (valid_of_skipped hlists hskips), ?_⟩
    exact fun skips hskips => hglobs (hvalid.mp (valid_of_skipped hlists' hskips))

end Manifest.Proofs.Scanning.Listing
