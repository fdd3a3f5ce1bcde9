import Manifest.Proofs.Lines.Table
import Manifest.Proofs.Slices

/-! # Lines partition the text

A line is its region and, behind that, its delimiter, which goes up to the start of the next line or
the end of the text. A line that stops at a line feed has a next one, right behind it; the last line
stops at the end of the text (`startOf_succ_of_feed`, `startOf_succ_of_end`). So a line with its
delimiter covers the text from its start to that of the next line (`content_append_delimiter`), and the
lines in front of line `n` cover the text up to its start (`flatMap_lines`), by induction on `n`. The
delimiter is what the region leaves of the line: a carriage return or nothing, and then the line feed
or nothing (`delimiterOf_eq`, `isDelimited`). Main statement: `lines_partition`. -/

namespace Manifest.Proofs.Lines

open Manifest.Proofs.Slices

/-- Where a line starts; behind the last line, the end of the text. -/
def startOf (d : Document) (line : Nat) : Nat := ((d.lineRegion? line).map Span.start).getD d.size

/-- The text of a line. -/
def contentOf (d : Document) (line : Nat) : List Char :=
  ((d.lineRegion? line).map d.sliceChars).getD []

/-- The text between a line and the start of the next one, or the end. -/
def delimiterOf (d : Document) (line : Nat) : List Char :=
  ((d.lineRegion? line).map fun region =>
    d.sliceChars (.between region.stop (startOf d (line + 1)))).getD []

/-- The line holds no line feed and is followed by one, unless it is the last one. A carriage return at
its end is part of the delimiter. -/
structure IsDelimited (d : Document) (line : Nat) : Prop where
  quiet : '\n' ∉ contentOf d line
  inner : line + 1 < d.lineCount → delimiterOf d line = ['\n'] ∨ delimiterOf d line = ['\r', '\n']
  last : line + 1 = d.lineCount → delimiterOf d line = [] ∨ delimiterOf d line = ['\r']
  /-- A carriage return stays at the end of a line only in front of another one. -/
  stripped : (contentOf d line).getLast? = some '\r' → '\r' ∈ delimiterOf d line

variable {d : Document} {line line' start stop : Nat}

/-! ### The start of the next line -/

theorem startOf_eq (hstart : IsLineStart d line start) : startOf d line = start := by
  unfold startOf
  rw [lineRegion?_of_bounds hstart (isLineStop_stopIn hstart.lt_lineCount)]
  rfl

theorem startOf_lineCount (d : Document) : startOf d d.lineCount = d.size := by
  unfold startOf
  rw [lineRegion?_eq_none_iff.mpr (Nat.le_refl _)]
  rfl

theorem startOf_zero (d : Document) : startOf d 0 = 0 :=
  startOf_eq ⟨Nat.zero_le _, breaks_zero d, .inl rfl⟩

theorem IsLineStop.next (hstop : IsLineStop d line stop) (hfeed : d.charAt? stop = some '\n') :
    IsLineStart d (line + 1) (stop + 1) :=
  ⟨charAt?_lt hfeed, by rw [breaks_succ_of_break hfeed, hstop.breaks_eq], .inr hfeed⟩

theorem startOf_succ_of_feed (hstop : IsLineStop d line stop) (hfeed : d.charAt? stop = some '\n') :
    line + 1 < d.lineCount ∧ startOf d (line + 1) = stop + 1 :=
  ⟨(hstop.next hfeed).lt_lineCount, startOf_eq (hstop.next hfeed)⟩

theorem startOf_succ_of_end (hstop : IsLineStop d line d.size) :
    line + 1 = d.lineCount ∧ startOf d (line + 1) = d.size := by
  have hlast : line + 1 = d.lineCount := by
    rw [← hstop.breaks_eq, breaks_size]
    rfl
  exact ⟨hlast, hlast ▸ startOf_lineCount d⟩

theorem IsLineStop.le_startOf_succ (hstop : IsLineStop d line stop) :
    stop ≤ startOf d (line + 1) := by
  rcases hstop.edge with rfl | hfeed
  · exact (startOf_succ_of_end hstop).2.ge
  · have := (startOf_succ_of_feed hstop hfeed).2
    omega

/-! ### A line and its delimiter -/

section
variable (hstart : IsLineStart d line start) (hstop : IsLineStop d line stop)
include hstart hstop

theorem contentOf_eq :
    contentOf d line = d.sliceChars (.between start (d.regionEnd start stop)) := by
  unfold contentOf
  rw [lineRegion?_eq hstart hstop]
  rfl

/-- The delimiter is what the region leaves of the line, and the line feed. -/
theorem delimiterOf_eq :
    delimiterOf d line = d.sliceChars (.between (d.regionEnd start stop) stop) ++
      d.sliceChars (.between stop (startOf d (line + 1))) := by
  rw [sliceChars_append d (regionEnd_le d start stop) hstop.le_startOf_succ]
  unfold delimiterOf
  rw [lineRegion?_of_bounds hstart hstop]
  rfl

theorem content_append_delimiter :
    contentOf d line ++ delimiterOf d line =
      d.sliceChars (.between start (startOf d (line + 1))) := by
  have hle := hstart.le_regionEnd hstop
  have hend := regionEnd_le d start stop
  rw [contentOf_eq hstart hstop, delimiterOf_eq hstart hstop, ← List.append_assoc,
    sliceChars_append d hle hend, sliceChars_append d (Nat.le_trans hle hend) hstop.le_startOf_succ]

theorem newline_notMem_contentOf : '\n' ∉ contentOf d line := by
  rw [contentOf_eq hstart hstop, mem_sliceChars (hstart.le_regionEnd hstop)]
  rintro ⟨o, hle, hlt, hfeed⟩
  have hin : o < stop := Nat.lt_of_lt_of_le hlt (regionEnd_le d start stop)
  exact ne_break_of_breaks_eq (hstart.breaks_eq.trans hstop.breaks_eq.symm) hle hin hfeed

/-- What the region leaves of the line is a carriage return, or the line does not end with one. -/
theorem left_of_region :
    d.sliceChars (.between (d.regionEnd start stop) stop) = ['\r'] ∨
      d.sliceChars (.between (d.regionEnd start stop) stop) = [] ∧
        (contentOf d line).getLast? ≠ some '\r' := by
  rcases regionEnd_cases d start stop with ⟨heq, hkept⟩ | ⟨heq, hlt, hreturn⟩
  · refine .inr ⟨by rw [heq, sliceChars_self], fun hlast => hkept ?_⟩
    rw [contentOf_eq hstart hstop, heq] at hlast
    rcases (hstart.le_stop hstop).eq_or_lt with rfl | hlt
    · rw [sliceChars_self] at hlast
      cases hlast
    · exact ⟨hlt, by rw [← getLast?_sliceChars hlt hstop.le_size, hlast]⟩
  · left
    have hlast := sliceChars_succ hreturn
    rwa [show stop - 1 + 1 = stop by omega, ← heq] at hlast

theorem isDelimited : IsDelimited d line := by
  have hquiet := newline_notMem_contentOf hstart hstop
  have heq := delimiterOf_eq hstart hstop
  have hleft := left_of_region hstart hstop
  rcases hstop.edge with rfl | hfeed
  · -- the last line stops at the end of the text
    obtain ⟨hlast, hnext⟩ := startOf_succ_of_end hstop
    rw [hnext, sliceChars_self, List.append_nil] at heq
    rw [← heq] at hleft
    refine ⟨hquiet, fun hinner => by omega, fun _ => ?_, fun hreturn => ?_⟩
    · exact (hleft.imp_right And.left).symm
    · rw [hleft.resolve_right fun h => h.2 hreturn]
      exact List.mem_singleton.mpr rfl
  · obtain ⟨hinner, hnext⟩ := startOf_succ_of_feed hstop hfeed
    rw [hnext, sliceChars_succ hfeed] at heq
    refine ⟨hquiet, fun _ => ?_, fun hlast => by omega, fun hreturn => ?_⟩
    · rcases hleft with hleft | ⟨hleft, -⟩
      · exact .inr (by rw [heq, hleft]; rfl)
      · exact .inl (by rw [heq, hleft]; rfl)
    · rw [heq, hleft.resolve_right fun h => h.2 hreturn]
      exact List.mem_cons_self

end

/-! ### All lines -/

/-- The lines in front of a line cover the text up to its start. -/
theorem flatMap_lines (d : Document) : ∀ n, n ≤ d.lineCount →
    (List.range n).flatMap (fun line => contentOf d line ++ delimiterOf d line) =
      d.chars.take (startOf d n)
  | 0, _ => by rw [startOf_zero]; rfl
  | n + 1, hn => by
    obtain ⟨start, hstart⟩ := exists_lineStart (show n < d.lineCount from hn)
    have hstop := isLineStop_stopIn hn
    have hle : start ≤ startOf d (n + 1) := Nat.le_trans (hstart.le_stop hstop) hstop.le_startOf_succ
    rw [List.range_succ, List.flatMap_append, flatMap_lines d n (Nat.le_of_succ_le hn),
      List.flatMap_singleton, content_append_delimiter hstart hstop, startOf_eq hstart,
      ← sliceChars_zero, sliceChars_append d (Nat.zero_le start) hle, sliceChars_zero]

theorem stop_lt_start_of_lt {region region' : Span} (hlt : line < line')
    (h : d.lineRegion? line = some region) (h' : d.lineRegion? line' = some region') :
    region.stop < region'.start := by
  obtain ⟨stop, hstart, hstop, hend⟩ := exists_bounds h
  obtain ⟨-, hstart', -, -⟩ := exists_bounds h'
  have hle := regionEnd_le d region.start stop
  have hiff := (hstart'.le_iff stop).not
  rw [hstop.breaks_eq] at hiff
  omega

/-- **Lines partition the text.** There is one more of them than line feeds, each with a region, and no
other has one. Every line with its delimiter behind it, one after the other, is the whole text. A line
holds no line feed; its delimiter is a line feed with or without a carriage return in front, on the last
line nothing or a carriage return. The regions lie in the text, one in front of the other. -/
theorem lines_partition (d : Document) :
    (d.lineCount = d.chars.count '\n' + 1 ∧ d.lineStarts.length = d.lineCount) ∧
    (∀ line, (∃ region, d.lineRegion? line = some region) ↔ line < d.lineCount) ∧
    (List.range d.lineCount).flatMap (fun line => contentOf d line ++ delimiterOf d line) =
      d.chars ∧
    (∀ line, line < d.lineCount → IsDelimited d line) ∧
    (∀ line region, d.lineRegion? line = some region → region.stop ≤ d.size) ∧
    ∀ line line' region region', line < line' → d.lineRegion? line = some region →
      d.lineRegion? line' = some region' → region.stop < region'.start := by
  refine ⟨⟨rfl, length_lineStarts d⟩, fun _ => exists_region_iff, ?_, fun line hline => ?_,
    fun _ _ => stop_le_size_of_region, fun _ _ _ _ => stop_lt_start_of_lt⟩
  · rw [flatMap_lines d d.lineCount (Nat.le_refl _), startOf_lineCount]
    exact List.take_length
  · obtain ⟨start, hstart⟩ := exists_lineStart hline
    exact isDelimited hstart (isLineStop_stopIn hline)

/-- Of two carriage returns in front of a line feed the first one stays in the line; a single one on
the last line does not. -/
theorem lines_partition_returns :
    (List.range 3).map (fun line => (contentOf (.ofText "é\r\r\nb\n\r") line,
        delimiterOf (.ofText "é\r\r\nb\n\r") line)) =
      [(['é', '\r'], ['\r', '\n']), (['b'], ['\n']), ([], ['\r'])] ∧
    IsDelimited (.ofText "é\r\r\nb\n\r") 0 ∧ IsDelimited (.ofText "é\r\r\nb\n\r") 2 ∧
    (Document.ofText "é\r\r\nb\n\r").lineRegion? 3 = none := by
  obtain ⟨-, hregion, -, hdelimited, -, -⟩ := lines_partition (.ofText "é\r\r\nb\n\r")
  refine ⟨by decide, hdelimited 0 (by decide), hdelimited 2 (by decide), ?_⟩
  refine Option.eq_none_iff_forall_ne_some.mpr fun region h => ?_
  exact absurd ((hregion 3).mp ⟨region, h⟩) (by decide)

end Manifest.Proofs.Lines
