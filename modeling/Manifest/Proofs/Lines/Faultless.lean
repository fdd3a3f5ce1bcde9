import Manifest.Locator.Word
import Manifest.Proofs.Lines.Aligning
import Manifest.Proofs.Lines.Cuts
import Manifest.Proofs.Selection
import Manifest.Proofs.Trimming

/-! # Look-ups that do not fault

`offsetOf?` is the only look-up with a step that can leave the range of a word. The others find what
those of the document find, whatever offsets, lines and spans they are asked for, and what they find
lies in the text. -/

namespace Manifest.Proofs.Lines

open Manifest.Document Manifest.Document.Word

variable {d : Document}

/-! ### Positions -/

theorem bounds_of_lineColumn? {i : Nat} {p : LineColumn} (h : d.lineColumn? i = some p) :
    p.line < d.lineCount ∧ p.column ≤ d.size := by
  rcases Nat.lt_or_ge d.size i with hout | hin
  · rw [lineColumn?_eq_none hout] at h
    cases h
  · obtain ⟨start, hstart⟩ := exists_lineStart_of d i
    rw [lineColumn?_eq hin hstart] at h
    obtain rfl := Option.some.inj h
    exact ⟨hstart.lt_lineCount, (Nat.sub_le i start).trans hin⟩

/-! ### Widening -/

theorem length_span (s : Span) : Tables.length s = .ok s.size := if_pos s.ordered

/-- The sum that gives the last offset of a span is not beyond its end. -/
theorem add_last {s : Span} (hs : s.stop < Text.wordCount) :
    add s.start (s.size - 1) = .ok (s.start + (s.size - 1)) := by
  have hordered := s.ordered
  unfold Span.size
  exact if_pos (by omega)

theorem lineAligned_tables (hd : Fits d) {s : Span} (hs : s.stop < Text.wordCount) :
    (tables d).lineAligned s = .ok (d.lineAligned s) := by
  unfold Tables.lineAligned
  simp only [length_span, add_last hs, size_tables, lineOf?_tables, bind, Except.bind]
  rw [show s.start + (s.size - 1) = lastOffset s from rfl]
  rcases Nat.lt_or_ge d.size (lastOffset s) with hout | hin
  · rw [lineAligned_outside hout, lineOf?_eq_none hout]
    cases d.lineOf? s.start <;> rfl
  · obtain ⟨first, hfirst⟩ := exists_region d s.start
    obtain ⟨last, hlast⟩ := exists_region d (lastOffset s)
    have hstop : last.stop < Text.wordCount := by
      have := stop_le_size_of_region hlast
      unfold Fits at hd
      omega
    rw [lineAligned_eq hin hfirst hlast, lineOf?_eq hin,
      lineOf?_eq ((start_le_lastOffset s).trans hin)]
    simp only [lineRegion?_tables hd, hfirst, hlast, add_last hstop]
    split_ifs <;> rfl

theorem stop_lineAligned_le_size (d : Document) (s : Span) : (d.lineAligned s).stop ≤ d.size := by
  rcases Nat.lt_or_ge d.size (lastOffset s) with hout | hin
  · rw [lineAligned_outside hout]
    exact le_rfl
  · obtain ⟨first, hfirst⟩ := exists_region d s.start
    obtain ⟨last, hlast⟩ := exists_region d (lastOffset s)
    exact (stop_lineAligned_mem hin hfirst hlast).2.trans (stop_le_size_of_region hlast)

/-! ### Trimming -/

/-- The search finds the offset in front of `lastInk`. -/
theorem findInk_tables (d : Document) : ∀ i, (tables d).findInk i =
    .ok (match d.lastInk i with | 0 => none | o + 1 => some o)
  | 0 => by
    unfold Tables.findInk Document.lastInk Document.blankAt
    simp only [charAt?_tables, bind, Except.bind]
    split_ifs <;> rfl
  | i + 1 => by
    unfold Tables.findInk Document.lastInk Document.blankAt
    simp only [charAt?_tables, bind, Except.bind]
    split_ifs
    · exact findInk_tables d i
    · rfl

theorem trimEnd_tables (hd : Fits d) (i : Nat) : (tables d).trimEnd i = .ok (d.trimEnd i) := by
  unfold Tables.trimEnd Document.trimEnd
  simp only [size_tables, findInk_tables, bind, Except.bind]
  split_ifs with hend hblank
  · rfl
  · have hle := Trimming.lastInk_of_blank hblank
    cases hink : d.lastInk i with
    | zero => rfl
    | succ o =>
      have hne : o ≠ i := by omega
      have hsum : add o 1 = .ok (o + 1) := by
        unfold Fits at hd
        exact if_pos (by omega)
      simp only [hne, if_false, hsum]
  · rw [Trimming.lastInk_of_ink (Bool.eq_false_iff.mpr hblank)]
    simp only [if_true]
    rfl

theorem nodeSpan_tables (hd : Fits d) (start stop : Nat) :
    (tables d).nodeSpan start stop = .ok (d.nodeSpan start stop) := by
  unfold Tables.nodeSpan
  simp only [size_tables, trimEnd_tables hd, bind, Except.bind]
  rfl

/-! ### Selecting -/

theorem distance_word (a b : Nat) : Locator.Word.distance a b = .ok (Locator.distance a b) := by
  unfold Locator.Word.distance Locator.distance sub
  rcases Nat.lt_or_ge a b with h | h
  · rw [if_pos h, if_pos h.le, Nat.sub_eq_zero_of_le h.le, Nat.zero_add]
  · rw [if_neg (Nat.not_lt.mpr h), if_pos h, Nat.sub_eq_zero_of_le h, Nat.add_zero]

/-- The distance of two words is a word. -/
theorem distance_lt {a b n : Nat} (ha : a < n) (hb : b < n) : Locator.distance a b < n := by
  unfold Locator.distance
  omega

/-- A candidate with its distance in the place of its entry. -/
def measured (start : Nat) (c : Entry × Nat) : Nat × Nat :=
  (Locator.distance c.1.span.start start, c.2)

theorem mapM_distance (start : Nat) (cs : List (Entry × Nat)) :
    (cs.mapM fun (e, i) => do return (← Locator.Word.distance e.span.start start, i)) =
      (.ok (cs.map (measured start)) : Run _) := by
  simp only [distance_word]
  exact List.mapM_pure

/-- Candidates are compared by the distances that were taken of them. -/
theorem foldl_measured (start : Nat) (c : Entry × Nat) (rest : List (Entry × Nat)) :
    (rest.map (measured start)).foldl (Selection.keepLess Prod.fst) (measured start c) =
      measured start
        (rest.foldl (Selection.keepLess fun c => Locator.distance c.1.span.start start) c) := by
  rw [List.foldl_map]
  exact List.foldl_hom (measured start) fun best next => (apply_ite (measured start) _ _ _).symm

theorem nearest?_word (name : String) (start : Nat) (entries : List Entry) :
    Locator.Word.nearest? name start entries = .ok (Locator.nearest? name start entries) := by
  rw [Selection.nearest?_eq_match]
  unfold Locator.Word.nearest?
  dsimp only
  rw [mapM_distance, ← Selection.candidates]
  cases Selection.candidates name entries with
  | nil => rfl
  | cons c rest => exact congrArg (fun r => Except.ok (some r.2)) (foldl_measured start c rest)

theorem reselect?_word (previous : Selection) (entries : List Entry) :
    Locator.Word.reselect? previous entries = .ok (Locator.reselect? previous entries) := by
  unfold Locator.Word.reselect?
  rw [nearest?_word]
  rfl

/-- **The look-ups do not fault.** In the tables of a text that fits into memory, all steps stay in the
range of a word and of the tables, and no cut of the text is reversed or inside a character, for

* the character, the line and the position of any offset, and the region of any line;
* the end and the two marks of a node, whatever they are;
* the text under a span of words, and the span widened to lines.

They find what those of the document find, and every offset and span that they find lies in the text.
No distance between two starts faults either, so neither does the search for a previous selection, and
the distance of two words is a word. -/
theorem look_ups_do_not_fault (s : String) {d : Document} {t : Tables}
    (hd : d = Document.ofText s) (ht : t = Tables.ofText s) (hfits : Fits d) :
    (∀ i, t.charAt? i = .ok (d.charAt? i) ∧ t.lineOf? i = .ok (d.lineOf? i) ∧
      t.lineColumn? i = .ok (d.lineColumn? i) ∧
      ∀ p, d.lineColumn? i = some p → p.line < d.lineCount ∧ p.column ≤ d.size) ∧
    (∀ line, t.lineRegion? line = .ok (d.lineRegion? line) ∧
      ∀ region, d.lineRegion? line = some region → region.stop ≤ d.size) ∧
    (∀ i, t.trimEnd i = .ok (d.trimEnd i) ∧ d.trimEnd i ≤ d.size) ∧
    (∀ start stop, t.nodeSpan start stop = .ok (d.nodeSpan start stop) ∧
      (d.nodeSpan start stop).stop ≤ d.size) ∧
    (∀ a b, a < Text.wordCount → b < Text.wordCount →
      t.slice (.between a b) = .ok (d.sliceChars (.between a b)) ∧
      t.lineAligned (.between a b) = .ok (d.lineAligned (.between a b)) ∧
      (d.lineAligned (.between a b)).stop ≤ d.size) ∧
    (∀ previous entries, Locator.Word.reselect? previous entries =
      .ok (Locator.reselect? previous entries)) ∧
    ∀ a b, a < Text.wordCount → b < Text.wordCount →
      Locator.Word.distance a b = .ok (Locator.distance a b) ∧
        Locator.distance a b < Text.wordCount := by
  obtain rfl : t = tables d := by rw [ht, hd, ofText_eq_tables]
  refine ⟨fun i => ⟨charAt?_tables d i, lineOf?_tables d i, lineColumn?_tables d i,
      fun p => bounds_of_lineColumn?⟩,
    fun line => ⟨lineRegion?_tables hfits line, fun region => stop_le_size_of_region⟩,
    fun i => ⟨trimEnd_tables hfits i, Trimming.trimEnd_le_size d i⟩,
    fun start stop => ⟨nodeSpan_tables hfits start stop, Trimming.nodeSpan_stop_le_size d start stop⟩,
    fun a b ha hb => ⟨slice_tables d _, lineAligned_tables hfits ?_, stop_lineAligned_le_size d _⟩,
    reselect?_word, fun a b ha hb => ⟨distance_word a b, distance_lt ha hb⟩⟩
  rw [Span.stop_between]
  omega

/-- A short text with two lines that end, the first one with a carriage return. -/
def shortText : String := "a\r\nb\n"

/-- With the greatest words for offsets, lines and bounds the look-ups find the end of the text or
nothing. -/
theorem look_ups_do_not_fault_greatest :
    (Tables.ofText shortText).charAt? 18446744073709551615 = .ok none ∧
      (Tables.ofText shortText).lineColumn? 18446744073709551615 = .ok none ∧
      (Tables.ofText shortText).lineRegion? 18446744073709551615 = .ok none ∧
      (Tables.ofText shortText).trimEnd 18446744073709551615 = .ok 5 ∧
      (Tables.ofText shortText).nodeSpan 18446744073709551615 18446744073709551615 =
        .ok ⟨5, 5, Nat.le_refl 5⟩ ∧
      (Tables.ofText shortText).slice (.between 18446744073709551615 3) = .ok ['b', '\n'] ∧
      (Tables.ofText shortText).lineAligned (.between 0 18446744073709551615) =
        .ok ⟨0, 5, by decide⟩ ∧
      Locator.Word.distance 0 18446744073709551615 = .ok 18446744073709551615 := by
  have hfits : Fits (.ofText shortText) := by
    unfold Fits
    decide
  have hword : 18446744073709551615 < Text.wordCount := by decide
  obtain ⟨hoffset, hregion, htrim, hnode, hspan, -, hdistance⟩ :=
    look_ups_do_not_fault shortText rfl rfl hfits
  refine ⟨(hoffset _).1.trans (congrArg _ ?_), (hoffset _).2.2.1.trans (congrArg _ ?_),
    (hregion _).1.trans (congrArg _ ?_), (htrim _).1.trans (congrArg _ ?_),
    (hnode _ _).1.trans (congrArg _ ?_), (hspan _ 3 hword (by decide)).1.trans (congrArg _ ?_),
    (hspan 0 _ (by decide) hword).2.1.trans (congrArg _ ?_),
    (hdistance 0 _ (by decide) hword).1.trans (congrArg _ ?_)⟩
  all_goals decide

end Manifest.Proofs.Lines
