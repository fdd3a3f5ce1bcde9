import Manifest.Proofs.Lines.Words

/-! # When the look-up of an offset faults

The look-up of an offset takes the sum of the line's start and the column before it compares the
column with the line's length, so the sum is taken for columns of any size. All other steps stay in
the range of a word (`lineRegion?_tables`), and this one leaves it exactly when the sum is no word
(`offsetOf?_tables_of_region`): on every line but the first, for columns near the top of the range,
whose result would have been dropped. Main statement: `offset_faults_iff`. -/

namespace Manifest.Proofs.Lines

open Manifest.Document Manifest.Document.Word

variable {d : Document} {line column : Nat}

theorem offsetOf?_eq_none_iff :
    d.offsetOf? line column = none ↔
      d.lineCount ≤ line ∨ ∃ region, d.lineRegion? line = some region ∧ region.size < column := by
  rw [← lineRegion?_eq_none_iff]
  cases hregion : d.lineRegion? line with
  | none => simp [offsetOf?_eq_none (lineRegion?_eq_none_iff.mp hregion)]
  | some region => simp [offsetOf?_of_region hregion]

/-! ### Regions of lines -/

/-- A line that does not start at the beginning is not the first one. -/
theorem line_pos_of_region {region : Span} (h : d.lineRegion? line = some region)
    (hstart : 0 < region.start) : 0 < line := by
  obtain ⟨-, hline, -, -⟩ := exists_bounds h
  have hiff := hline.le_iff 0
  omega

/-! ### The look-up -/

theorem offsetOf?_tables_of_none (hd : Fits d) (h : d.lineRegion? line = none) :
    (tables d).offsetOf? line column = .ok none := by
  unfold Tables.offsetOf?
  rw [lineRegion?_tables hd, h]
  rfl

/-- The sum is taken for every column; where it is a word, the result is that of the document. -/
theorem offsetOf?_tables_of_region (hd : Fits d) {region : Span}
    (h : d.lineRegion? line = some region) :
    (tables d).offsetOf? line column =
      if region.start + column < Text.wordCount then .ok (d.offsetOf? line column)
      else .error .overflow := by
  have hlength : Tables.length region = .ok region.size := if_pos region.ordered
  unfold Tables.offsetOf?
  rw [lineRegion?_tables hd, h, offsetOf?_of_region h]
  simp only [bind, Except.bind, hlength, add]
  split_ifs <;> rfl

theorem offsetOf?_tables_eq_error_iff (hd : Fits d) {fault : Fault} :
    (tables d).offsetOf? line column = .error fault ↔
      fault = .overflow ∧
        ∃ region, d.lineRegion? line = some region ∧ Text.wordCount ≤ region.start + column := by
  cases hregion : d.lineRegion? line with
  | none => simp [offsetOf?_tables_of_none hd hregion]
  | some region =>
    rw [offsetOf?_tables_of_region hd hregion]
    split_ifs with hsum
    · simp [Nat.not_le.mpr hsum]
    · simp [Nat.not_lt.mp hsum, eq_comm]

theorem eq_of_offsetOf?_tables (hd : Fits d) {offset? : Option Nat}
    (h : (tables d).offsetOf? line column = .ok offset?) : offset? = d.offsetOf? line column := by
  cases hregion : d.lineRegion? line with
  | none =>
    rw [offsetOf?_tables_of_none hd hregion] at h
    rw [offsetOf?_eq_none (lineRegion?_eq_none_iff.mp hregion), Except.ok.inj h]
  | some region =>
    rw [offsetOf?_tables_of_region hd hregion] at h
    split_ifs at h
    exact (Except.ok.inj h).symm

/-- **The look-up of an offset faults exactly where the start of the line and the column have no sum
in 64 bits.** The fault is an overflow, on a line behind the first one and for a column behind the end
of that line. Else the look-up gives the offset of the document, which is missing for the lines
behind the last one and the columns behind the end of their line, and for no other. -/
theorem offset_faults_iff (hd : Fits d) (hcolumn : column < Text.wordCount) :
    ((∃ fault, (tables d).offsetOf? line column = .error fault) ↔
      ∃ region, d.lineRegion? line = some region ∧ Text.wordCount ≤ region.start + column) ∧
    (∀ fault, (tables d).offsetOf? line column = .error fault →
      fault = .overflow ∧ 0 < line ∧ d.offsetOf? line column = none) ∧
    (∀ offset?, (tables d).offsetOf? line column = .ok offset? →
      offset? = d.offsetOf? line column) ∧
    (d.offsetOf? line column = none ↔
      d.lineCount ≤ line ∨ ∃ region, d.lineRegion? line = some region ∧ region.size < column) := by
  refine ⟨?_, fun fault h => ?_, fun _ => eq_of_offsetOf?_tables hd, offsetOf?_eq_none_iff⟩
  · simp only [offsetOf?_tables_eq_error_iff hd, exists_eq_left]
  · obtain ⟨rfl, region, hregion, hsum⟩ := (offsetOf?_tables_eq_error_iff hd).mp h
    have hstop := stop_le_size_of_region hregion
    have hordered := region.ordered
    have hsize : region.size < column := by
      unfold Fits at hd
      unfold Span.size
      omega
    exact ⟨rfl, line_pos_of_region hregion (by omega),
      offsetOf?_eq_none_iff.mpr (.inr ⟨region, hregion, hsize⟩)⟩

/-- On the second line the greatest column of all has no sum with the start of the line; on the first
line it has, and there is no offset for it. -/
theorem offset_faults_lastColumn :
    (tables (.ofText "a\nb")).offsetOf? 1 18446744073709551615 = .error .overflow ∧
      (Document.ofText "a\nb").offsetOf? 1 18446744073709551615 = none ∧
      (tables (.ofText "a\nb")).offsetOf? 0 18446744073709551615 = .ok none := by
  have hfits : Fits (.ofText "a\nb") := by
    unfold Fits
    decide
  have hcolumn : 18446744073709551615 < Text.wordCount := by decide
  obtain ⟨⟨-, hfault⟩, hoverflow, -, -⟩ := @offset_faults_iff _ 1 _ hfits hcolumn
  obtain ⟨fault, h⟩ := hfault ⟨⟨2, 3, by decide⟩, by decide, by decide⟩
  obtain ⟨rfl, -, hnone⟩ := hoverflow fault h
  exact ⟨h, hnone, by decide⟩

end Manifest.Proofs.Lines
