import Manifest.Proofs.Lines.Positions
import Manifest.Proofs.Lines.Regions

/-! # Spans widened to lines

A span touches the lines from that of its start to that of its last character (`lastOffset`). Widened,
it starts where the first of them does and stops at the end of the last one, or one character in
front of that if there are several (`start_lineAligned`, `stop_lineAligned`). What it loses is on the
last line: the delimiter, and of several lines the last character (`lineAligned_covers`).

The end of the text counts as an offset with a line of its own. So a span that reaches just one
character beyond the text still has a last line, and is widened like one inside it; only those that
reach further, or start beyond the text, become the whole document (`lineAligned_beyond`). -/

namespace Manifest.Proofs.Lines

open Manifest.Document

/-- The offset of the last character of a span; an empty one has its start. -/
def lastOffset (s : Span) : Nat := s.start + (s.size - 1)

/-- The character is the line feed of its line, or the carriage return in front of that or of the end
of the text. -/
def IsDelimiterAt (d : Document) (i : Nat) : Prop :=
  d.charAt? i = some '\n' ∨
    d.charAt? i = some '\r' ∧ (i + 1 = d.size ∨ d.charAt? (i + 1) = some '\n')

/-- The offset is on the last line, in its delimiter or, with a first line that is another one, at the
last character in front of that. -/
structure IsLeftOut (d : Document) (first last i : Nat) : Prop where
  line_eq : d.lineOf? i = some last
  edge : IsDelimiterAt d i ∨
    first ≠ last ∧ ∃ region, d.lineRegion? last = some region ∧ i + 1 = region.stop

/-- The span `t` covers the lines of `s`, of which these are the first and the last one, but for what
is left out of the last line. -/
structure CoversLines (d : Document) (first last : Nat) (s t : Span) : Prop where
  start : IsLastStart d s.start t.start
  inside : t.stop ≤ d.size
  stop : ∃ region, d.lineRegion? last = some region ∧ t.stop ≤ region.stop
  one : first = last → d.lineRegion? first = some t
  covered : ∀ i, s.contains i = true → t.contains i = true ∨ IsLeftOut d first last i

variable {d : Document} {s : Span}

/-! ### The last offset of a span -/

theorem start_le_lastOffset (s : Span) : s.start ≤ lastOffset s := Nat.le_add_right _ _

theorem contains_iff {i : Nat} : s.contains i = true ↔ s.start ≤ i ∧ i < s.stop := by
  simp [Span.contains]

theorem le_lastOffset {i : Nat} (h : i < s.stop) : i ≤ lastOffset s := by
  unfold lastOffset Span.size
  omega

theorem lastOffset_le (h : s.stop ≤ d.size) : lastOffset s ≤ d.size := by
  have hordered := s.ordered
  unfold lastOffset Span.size
  omega

theorem lastOffset_eq_of_succ (hstart : s.start ≤ d.size) (hstop : s.stop = d.size + 1) :
    lastOffset s = d.size := by
  unfold lastOffset Span.size
  omega

/-- Only a span that starts in the text and reaches just one character beyond it has its last offset
at the end. -/
theorem lt_lastOffset (hstop : d.size < s.stop) (h : d.size < s.start ∨ d.size + 1 < s.stop) :
    d.size < lastOffset s := by
  unfold lastOffset Span.size
  omega

/-! ### Widening -/

theorem lineAligned_outside (h : d.size < lastOffset s) : d.lineAligned s = d.whole := by
  unfold Document.lineAligned
  rw [show s.start + (s.size - 1) = lastOffset s from rfl, lineOf?_eq_none h]
  cases d.lineOf? s.start <;> rfl

section
variable {first last : Span} (hsize : lastOffset s ≤ d.size)
  (hfirst : d.lineRegion? (breaks d s.start) = some first)
  (hlast : d.lineRegion? (breaks d (lastOffset s)) = some last)
include hfirst hlast

/-- Several lines come in order. -/
theorem start_lt_start (hne : breaks d s.start ≠ breaks d (lastOffset s)) :
    first.start < last.start := by
  obtain ⟨-, hstart, -, -⟩ := exists_bounds hfirst
  obtain ⟨-, hstart', -, -⟩ := exists_bounds hlast
  have hmono := breaks_mono d (start_le_lastOffset s)
  exact hstart.lt_of_lt hstart' (by omega)

include hsize

theorem lineAligned_eq :
    d.lineAligned s = if breaks d s.start = breaks d (lastOffset s) then first
      else .between first.start (last.start + (last.size - 1)) := by
  have hstart := lineOf?_eq ((start_le_lastOffset s).trans hsize)
  unfold Document.lineAligned
  rw [show s.start + (s.size - 1) = lastOffset s from rfl, lineOf?_eq hsize, hstart]
  simp only [Option.bind_eq_bind, Option.bind_some, hfirst, hlast]
  split_ifs <;> rfl

theorem start_lineAligned : (d.lineAligned s).start = first.start := by
  rw [lineAligned_eq hsize hfirst hlast]
  split_ifs with heq
  · rfl
  · have hlt := start_lt_start hfirst hlast heq
    rw [Span.start_between]
    omega

theorem stop_lineAligned :
    (d.lineAligned s).stop = if breaks d s.start = breaks d (lastOffset s) then last.stop
      else last.start + (last.size - 1) := by
  rw [lineAligned_eq hsize hfirst hlast]
  split_ifs with heq
  · rw [heq, hlast] at hfirst
    rw [Option.some.inj hfirst]
  · have hlt := start_lt_start hfirst hlast heq
    rw [Span.stop_between]
    omega

/-- The widened span ends on the last line. -/
theorem stop_lineAligned_mem :
    last.start ≤ (d.lineAligned s).stop ∧ (d.lineAligned s).stop ≤ last.stop := by
  have hordered := last.ordered
  rw [stop_lineAligned hsize hfirst hlast]
  unfold Span.size
  split_ifs <;> omega

end

/-! ### Spans in the text -/

/-- What the region of a line leaves of it in the text is its delimiter. -/
theorem isDelimiterAt_of_le {line start stop i : Nat} (hstop : IsLineStop d line stop)
    (hle : d.regionEnd start stop ≤ i) (his : i ≤ stop) (hi : i < d.size) : IsDelimiterAt d i := by
  rcases his.eq_or_lt with rfl | hlt
  · exact .inl (hstop.edge.resolve_left hi.ne)
  · rcases regionEnd_cases d start stop with ⟨heq, -⟩ | ⟨heq, -, hreturn⟩
    · omega
    · obtain rfl : stop - 1 = i := by omega
      have hedge := hstop.edge
      rw [← show stop - 1 + 1 = stop by omega] at hedge
      exact .inr ⟨hreturn, hedge⟩

/-- What the widened span leaves out lies between its end on the last line and the last offset. -/
theorem isLeftOut_of_le {first last : Span} (hs : s.stop ≤ d.size)
    (hfirst : d.lineRegion? (breaks d s.start) = some first)
    (hlast : d.lineRegion? (breaks d (lastOffset s)) = some last) {i : Nat} (his : i < s.stop)
    (hge : (d.lineAligned s).stop ≤ i) :
    IsLeftOut d (breaks d s.start) (breaks d (lastOffset s)) i := by
  have hsize := lastOffset_le hs
  obtain ⟨stop, hstart, hstop, hend⟩ := exists_bounds hlast
  have hright := stop_lineAligned hsize hfirst hlast
  have hmem := stop_lineAligned_mem hsize hfirst hlast
  have hbreaks : breaks d i = breaks d (lastOffset s) :=
    Nat.le_antisymm (breaks_mono d (le_lastOffset his)) ((hstart.le_iff i).mp (hmem.1.trans hge))
  refine ⟨by rw [lineOf?_eq (his.le.trans hs), hbreaks], ?_⟩
  rcases Nat.lt_or_ge i last.stop with hinside | houtside
  · -- inside the last region only its last character is lost, and only over several lines
    refine .inr ⟨fun heq => ?_, last, hlast, ?_⟩
    · rw [if_pos heq] at hright
      omega
    · rw [hright] at hge
      unfold Span.size at hge
      split_ifs at hge <;> omega
  · have hle : i ≤ stop := (hstop.le_iff (his.le.trans hs)).mpr hbreaks.le
    exact .inl (isDelimiterAt_of_le hstop (hend ▸ houtside) hle (by omega))

/-- **A span widened to lines covers them, but for the end of the last one.** For a span in the text,
it starts where the line of the start does and does not reach beyond the line of the last character.
Of the span it leaves out no more than the delimiter of that last line and, if the span touches several
lines, the character in front of it. A span on one line becomes the region of that line. -/
theorem lineAligned_covers (hs : s.stop ≤ d.size) :
    ∃ first last, d.lineOf? s.start = some first ∧ d.lineOf? (lastOffset s) = some last ∧
      CoversLines d first last s (d.lineAligned s) := by
  have hsize := lastOffset_le hs
  have hle := start_le_lastOffset s
  obtain ⟨first, hfirst⟩ := exists_region d s.start
  obtain ⟨last, hlast⟩ := exists_region d (lastOffset s)
  obtain ⟨-, hstart, -, -⟩ := exists_bounds hfirst
  have hleft := start_lineAligned hsize hfirst hlast
  have hmem := stop_lineAligned_mem hsize hfirst hlast
  refine ⟨_, _, lineOf?_eq (hle.trans hsize), lineOf?_eq hsize, hleft ▸ isLastStart hstart,
    hmem.2.trans (stop_le_size_of_region hlast), ⟨last, hlast, hmem.2⟩, fun heq => ?_, fun i hi => ?_⟩
  · rw [lineAligned_eq hsize hfirst hlast, if_pos heq, hfirst]
  · obtain ⟨hsi, his⟩ := contains_iff.mp hi
    rcases Nat.lt_or_ge i (d.lineAligned s).stop with hlt | hge
    · have hfrom : first.start ≤ i := (hstart.le_iff i).mpr (breaks_mono d hsi)
      exact .inl (contains_iff.mpr ⟨hleft ▸ hfrom, hlt⟩)
    · exact .inr (isLeftOut_of_le hs hfirst hlast his hge)

/-- A span over two lines loses the carriage return and the line feed of the second, and the character
in front of these; a span in the first line becomes that line. -/
theorem lineAligned_covers_returns :
    (Document.ofText "aé\r\nbc\r\nd").lineAligned ⟨1, 8, by decide⟩ = ⟨0, 5, by decide⟩ ∧
      CoversLines (.ofText "aé\r\nbc\r\nd") 0 1 ⟨1, 8, by decide⟩ ⟨0, 5, by decide⟩ ∧
      CoversLines (.ofText "aé\r\nbc\r\nd") 0 0 ⟨0, 2, by decide⟩ ⟨0, 2, by decide⟩ := by
  obtain ⟨first, last, hfirst, hlast, hcovers⟩ :=
    @lineAligned_covers (.ofText "aé\r\nbc\r\nd") ⟨1, 8, by decide⟩ (by decide)
  obtain rfl : 0 = first := Option.some.inj ((by decide : _ = _).trans hfirst)
  obtain rfl : 1 = last := Option.some.inj ((by decide : _ = _).trans hlast)
  obtain ⟨first, last, hfirst, hlast, hcovers'⟩ :=
    @lineAligned_covers (.ofText "aé\r\nbc\r\nd") ⟨0, 2, by decide⟩ (by decide)
  obtain rfl : 0 = first := Option.some.inj ((by decide : _ = _).trans hfirst)
  obtain rfl : 0 = last := Option.some.inj ((by decide : _ = _).trans hlast)
  exact ⟨by decide, hcovers, hcovers'⟩

/-! ### Spans beyond the text -/

theorem breaks_eq_iff_notMem_drop {i : Nat} :
    breaks d i = breaks d d.size ↔ '\n' ∉ d.chars.drop i := by
  have hsplit : (d.chars.take i).count '\n' + (d.chars.drop i).count '\n' = d.chars.count '\n' := by
    rw [← List.count_append, List.take_append_drop]
  rw [breaks_size, ← List.count_eq_zero]
  unfold breaks
  omega

theorem start_eq_zero_iff {i start : Nat} (h : IsLineStart d (breaks d i) start) :
    start = 0 ↔ '\n' ∉ d.chars.take i := by
  have hiff := h.le_iff 0
  rw [breaks_zero] at hiff
  rw [← List.count_eq_zero]
  unfold breaks at hiff
  omega

theorem getLast?_chars (d : Document) : d.chars.getLast? = d.charAt? (d.size - 1) :=
  List.getLast?_eq_getElem?

/-- A last line that is not the first one is empty if the text ends with a line feed. -/
theorem start_eq_size_iff {start : Nat} (h : IsLineStart d (breaks d d.size) start)
    (hpos : 0 < breaks d d.size) : start = d.size ↔ d.chars.getLast? = some '\n' := by
  rw [getLast?_chars]
  constructor
  · rintro rfl
    refine h.edge.resolve_left fun hzero => ?_
    rw [hzero, breaks_zero] at hpos
    omega
  · intro hfeed
    have hsucc := breaks_succ_of_break hfeed
    have hlt := charAt?_lt hfeed
    rw [show d.size - 1 + 1 = d.size by omega] at hsucc
    have hiff := h.le_iff (d.size - 1)
    have hle := h.le_size
    omega

section
variable {first last : Span} (hstart : s.start ≤ d.size) (hstop : s.stop = d.size + 1)
  (hfirst : d.lineRegion? (breaks d s.start) = some first)
  (hlast : d.lineRegion? (breaks d d.size) = some last)
include hstart hstop hfirst hlast

theorem bounds_lineAligned_beyond :
    (d.lineAligned s).start = first.start ∧ (d.lineAligned s).stop =
      if '\n' ∈ d.chars.drop s.start then last.start + (last.size - 1) else last.stop := by
  have hlastOffset := lastOffset_eq_of_succ hstart hstop
  rw [← hlastOffset] at hlast
  refine ⟨start_lineAligned hlastOffset.le hfirst hlast, ?_⟩
  rw [stop_lineAligned hlastOffset.le hfirst hlast, hlastOffset]
  simp only [breaks_eq_iff_notMem_drop, ite_not]

/-- Over several lines, the end of the text is reached if the last line is empty. -/
theorem reaches_end_of_several (hfeed : '\n' ∈ d.chars.drop s.start) :
    (d.lineAligned s).stop = d.size ↔ d.chars.getLast? = some '\n' := by
  obtain ⟨-, hlastStart, -, -⟩ := exists_bounds hlast
  have hne := breaks_eq_iff_notMem_drop.not.mpr (not_not_intro hfeed)
  have hmono := breaks_mono d hstart
  rw [(bounds_lineAligned_beyond hstart hstop hfirst hlast).2, if_pos hfeed,
    ← start_eq_size_iff hlastStart (by omega)]
  have hordered := last.ordered
  have hin := stop_le_size_of_region hlast
  unfold Span.size
  omega

/-- On a line that is the whole text, its end is reached if the line does not end with a carriage
return. -/
theorem reaches_end_of_one (hfeed : '\n' ∉ d.chars) :
    (d.lineAligned s).stop = d.size ↔ d.chars.getLast? ≠ some '\r' := by
  obtain ⟨stop, hlastStart, hlastStop, hend⟩ := exists_bounds hlast
  obtain rfl : stop = d.size := hlastStop.unique ⟨Nat.le_refl _, rfl, .inl rfl⟩
  have hzero : last.start = 0 :=
    (start_eq_zero_iff hlastStart).mpr fun hmem => hfeed (List.mem_of_mem_take hmem)
  rw [(bounds_lineAligned_beyond hstart hstop hfirst hlast).2,
    if_neg fun hmem => hfeed (List.mem_of_mem_drop hmem), getLast?_chars, hend, hzero]
  rcases regionEnd_cases d 0 d.size with ⟨heq, hkept⟩ | ⟨heq, hlt, hreturn⟩
  · refine iff_of_true heq fun hreturn => hkept ⟨?_, hreturn⟩
    exact Nat.zero_lt_of_lt (charAt?_lt hreturn)
  · refine iff_of_false ?_ (not_not_intro hreturn)
    omega

theorem lineAligned_beyond_eq_whole_iff :
    d.lineAligned s = d.whole ↔ '\n' ∉ d.chars.take s.start ∧
      (d.chars.getLast? = some '\n' ∨ '\n' ∉ d.chars ∧ d.chars.getLast? ≠ some '\r') := by
  obtain ⟨-, hfirstStart, -, -⟩ := exists_bounds hfirst
  have hbounds : d.lineAligned s = d.whole ↔
      (d.lineAligned s).start = 0 ∧ (d.lineAligned s).stop = d.size :=
    ⟨fun h => h ▸ ⟨rfl, rfl⟩, fun h => Span.ext h.1 h.2⟩
  rw [hbounds, (bounds_lineAligned_beyond hstart hstop hfirst hlast).1, start_eq_zero_iff hfirstStart]
  refine and_congr_right fun hquiet => ?_
  by_cases hfeed : '\n' ∈ d.chars.drop s.start
  · rw [reaches_end_of_several hstart hstop hfirst hlast hfeed]
    have hmem := List.mem_of_mem_drop hfeed
    simp only [hmem, not_true_eq_false, false_and, or_false]
  · have hnone : '\n' ∉ d.chars := by
      rw [← List.take_append_drop s.start d.chars, List.mem_append]
      exact not_or.mpr ⟨hquiet, hfeed⟩
    rw [reaches_end_of_one hstart hstop hfirst hlast hnone]
    have hlastChar : d.chars.getLast? ≠ some '\n' := fun h => hnone (List.mem_of_getLast? h)
    simp only [hnone, hlastChar, not_false_eq_true, true_and, false_or]

end

/-- **A span beyond the text becomes the whole document, unless it reaches just one character beyond
it.** One that starts in the text and stops right behind the first offset that is not in it becomes the
whole document only if it starts on the first line, and either the text ends with a line feed or that
line is the whole text, without a carriage return at its end. It starts where the line of its start
does, and stops at the end of the last line, or one character in front of that if it touches several. -/
theorem lineAligned_beyond (hs : d.size < s.stop) :
    (d.lineAligned s = d.whole ↔ d.size < s.start ∨ d.size + 1 < s.stop ∨
      '\n' ∉ d.chars.take s.start ∧ (d.chars.getLast? = some '\n' ∨
        '\n' ∉ d.chars ∧ d.chars.getLast? ≠ some '\r')) ∧
    (s.start ≤ d.size → s.stop = d.size + 1 →
      IsLastStart d s.start (d.lineAligned s).start ∧
      ∃ region, d.lineRegion? (d.lineCount - 1) = some region ∧
        (d.lineAligned s).stop = if '\n' ∈ d.chars.drop s.start
          then region.start + (region.size - 1) else region.stop) := by
  obtain ⟨first, hfirst⟩ := exists_region d s.start
  obtain ⟨last, hlast⟩ := exists_region d d.size
  constructor
  · by_cases hfar : d.size < s.start ∨ d.size + 1 < s.stop
    · have hwhole := lineAligned_outside (lt_lastOffset hs hfar)
      exact iff_of_true hwhole (or_assoc.mp (.inl hfar))
    · obtain ⟨hstart, hstop⟩ := not_or.mp hfar
      rw [lineAligned_beyond_eq_whole_iff (by omega) (by omega) hfirst hlast]
      simp only [hstart, hstop, false_or]
  · intro hstart hstop
    obtain ⟨hleft, hright⟩ := bounds_lineAligned_beyond hstart hstop hfirst hlast
    obtain ⟨-, hfirstStart, -, -⟩ := exists_bounds hfirst
    rw [breaks_size] at hlast
    exact ⟨hleft ▸ isLastStart hfirstStart, last, hlast, hright⟩

/-- A span that reaches one character beyond a text of two lines loses the last character of the
text. -/
theorem lineAligned_beyond_lastChar :
    (Document.ofText "one\ntwo").lineAligned ⟨0, 8, by decide⟩ = ⟨0, 6, by decide⟩ ∧
      (Document.ofText "one\ntwo").lineAligned ⟨0, 8, by decide⟩ ≠ (Document.ofText "one\ntwo").whole ∧
      (Document.ofText "one\ntwo").lineAligned ⟨0, 9, by decide⟩ = (Document.ofText "one\ntwo").whole := by
  obtain ⟨hnear, -⟩ := @lineAligned_beyond (.ofText "one\ntwo") ⟨0, 8, by decide⟩ (by decide)
  obtain ⟨hfar, -⟩ := @lineAligned_beyond (.ofText "one\ntwo") ⟨0, 9, by decide⟩ (by decide)
  exact ⟨by decide, fun h => absurd (hnear.mp h) (by decide), hfar.mpr (by decide)⟩

end Manifest.Proofs.Lines
