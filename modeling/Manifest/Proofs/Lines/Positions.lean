import Manifest.Proofs.Lines.Words

/-! # Offsets and positions

An offset and the line and column of it stand for each other. The column counts from the start of
the line, which is the last place behind a line feed (`isLastStart`); going back, the sum of start
and column must not lie behind the region of the line. It does for one offset of a line alone, the
one between a carriage return and the line feed, or the end of the text, that the region leaves out
(`IsBehindReturn`, `le_regionEnd_iff`). Main statement: `positions_invert`. -/

namespace Manifest.Proofs.Lines

open Manifest.Document

/-- The last offset up to `i` that is behind a line feed, or the beginning of the text. -/
structure IsLastStart (d : Document) (i start : Nat) : Prop where
  le : start ≤ i
  edge : start = 0 ∨ d.charAt? (start - 1) = some '\n'
  quiet : ∀ j, start ≤ j → j < i → d.charAt? j ≠ some '\n'

/-- The position counts the line feeds in front of the offset and the characters since the last of
them. -/
structure IsPosition (d : Document) (i : Nat) (p : LineColumn) : Prop where
  line_eq : p.line = (d.chars.take i).count '\n'
  column_eq : ∃ start, IsLastStart d i start ∧ p.column = i - start

/-- The offset is directly behind a carriage return, and at a line feed or the end of the text. -/
structure IsBehindReturn (d : Document) (i : Nat) : Prop where
  pos : 0 < i
  behind : d.charAt? (i - 1) = some '\r'
  edge : i = d.size ∨ d.charAt? i = some '\n'

/-- The position stands in front of another one, in the order of the text. -/
def Precedes (p q : LineColumn) : Prop :=
  p.line < q.line ∨ p.line = q.line ∧ p.column < q.column

variable {d : Document}

theorem isLastStart {i start : Nat} (h : IsLineStart d (breaks d i) start) : IsLastStart d i start :=
  ⟨(h.le_iff i).mpr le_rfl, h.edge, fun _ hle hlt => ne_break_of_breaks_eq h.breaks_eq hle hlt⟩

theorem isPosition {i start : Nat} (h : IsLineStart d (breaks d i) start) :
    IsPosition d i ⟨breaks d i, i - start⟩ :=
  ⟨rfl, start, isLastStart h, rfl⟩

section

variable {line start stop i : Nat} (hstart : IsLineStart d line start)
  (hstop : IsLineStop d line stop) (hle : start ≤ i) (his : i ≤ stop)
include hstart hstop hle his

/-- Of the offsets of a line only its stop is at a line feed or at the end. -/
theorem edge_iff : (i = d.size ∨ d.charAt? i = some '\n') ↔ i = stop := by
  constructor
  · rintro (rfl | hbreak)
    · exact Nat.le_antisymm his hstop.le_size
    · by_contra hne
      exact ne_break_of_breaks_eq (hstart.breaks_eq.trans hstop.breaks_eq.symm) hle (by omega) hbreak
  · rintro rfl
    exact hstop.edge

theorem isBehindReturn_iff :
    IsBehindReturn d i ↔ i = stop ∧ start < stop ∧ d.charAt? (stop - 1) = some '\r' := by
  constructor
  · rintro ⟨hpos, hbehind, hedge⟩
    obtain rfl := (edge_iff hstart hstop hle his).mp hedge
    refine ⟨rfl, hle.lt_of_ne ?_, hbehind⟩
    rintro rfl
    -- a line does not start behind a carriage return
    rw [hstart.edge.resolve_left hpos.ne'] at hbehind
    cases hbehind
  · rintro ⟨rfl, hlt, hreturn⟩
    exact ⟨by omega, hreturn, hstop.edge⟩

/-- Of the offsets of a line only the one behind its carriage return is outside its region. -/
theorem le_regionEnd_iff : i ≤ d.regionEnd start stop ↔ ¬ IsBehindReturn d i := by
  rw [isBehindReturn_iff hstart hstop hle his]
  rcases regionEnd_cases d start stop with ⟨heq, hkept⟩ | ⟨heq, hcut⟩
  · exact iff_of_true (heq.symm ▸ his) fun h => hkept h.2
  · simp only [heq, hcut, and_true]
    omega

end

/-- Back from the position of an offset. -/
theorem offsetOf?_breaks {i start : Nat} (hi : i ≤ d.size)
    (hstart : IsLineStart d (breaks d i) start) :
    (¬ IsBehindReturn d i → d.offsetOf? (breaks d i) (i - start) = some i) ∧
      (IsBehindReturn d i → d.offsetOf? (breaks d i) (i - start) = none) := by
  have hstop := isLineStop_stopIn hstart.lt_lineCount
  have hle : start ≤ i := (hstart.le_iff i).mpr le_rfl
  have his : i ≤ stopIn d (breaks d i) := (hstop.le_iff hi).mpr le_rfl
  have hregion := le_regionEnd_iff hstart hstop hle his
  rw [offsetOf?_eq hstart hstop, Nat.add_sub_cancel' hle]
  exact ⟨fun h => if_pos (hregion.mpr h), fun h => if_neg fun hin => hregion.mp hin h⟩

theorem lineColumn?_of_offsetOf? {line column i : Nat} (h : d.offsetOf? line column = some i) :
    d.lineColumn? i = some ⟨line, column⟩ := by
  rcases Nat.lt_or_ge line d.lineCount with hline | hline
  · obtain ⟨start, hstart⟩ := exists_lineStart hline
    have hstop := isLineStop_stopIn hline
    rw [offsetOf?_eq hstart hstop] at h
    split_ifs at h with hle
    obtain rfl : start + column = i := Option.some.inj h
    have hin : start + column ≤ stopIn d line := hle.trans (regionEnd_le d start (stopIn d line))
    have hsize := hin.trans hstop.le_size
    have hbreaks : breaks d (start + column) = line :=
      Nat.le_antisymm ((hstop.le_iff hsize).mp hin) ((hstart.le_iff _).mp (Nat.le_add_right _ _))
    rw [lineColumn?_eq hsize (hbreaks.symm ▸ hstart), hbreaks, Nat.add_sub_cancel_left]
  · rw [offsetOf?_eq_none hline] at h
    cases h

theorem precedes_of_lt {i j a b : Nat} (hij : i < j) (ha : IsLineStart d (breaks d i) a)
    (hb : IsLineStart d (breaks d j) b) : Precedes ⟨breaks d i, i - a⟩ ⟨breaks d j, j - b⟩ := by
  rcases (breaks_mono d hij.le).lt_or_eq with hlt | heq
  · exact .inl hlt
  · have hstart : a = b := ha.unique (heq ▸ hb)
    have hle : a ≤ i := (ha.le_iff i).mpr le_rfl
    exact .inr ⟨heq, by simp only; omega⟩

/-- **Offsets and positions stand for each other.** An offset in the text, its end included, has the
position that counts the line feeds in front of it and the characters since the last one; it leads
back to the offset, but nowhere if that is behind the carriage return of its line. The search in the
table of line starts finds the same positions. Any line and column that lead to an offset are its
position. There is a position exactly up to the end of the text, and positions are in the order of
the offsets. -/
theorem positions_invert (d : Document) :
    (∀ i, i ≤ d.size → ∃ p, d.lineColumn? i = some p ∧ IsPosition d i p ∧
      (¬ IsBehindReturn d i → d.offsetOf? p.line p.column = some i) ∧
      (IsBehindReturn d i → d.offsetOf? p.line p.column = none)) ∧
    (∀ i, (Word.tables d).lineColumn? i = .ok (d.lineColumn? i)) ∧
    (∀ line column i, d.offsetOf? line column = some i → d.lineColumn? i = some ⟨line, column⟩) ∧
    (∀ i, d.lineColumn? i = none ↔ d.size < i) ∧
    ∀ i j, i < j → j ≤ d.size →
      ∃ p q, d.lineColumn? i = some p ∧ d.lineColumn? j = some q ∧ Precedes p q := by
  refine ⟨fun i hi => ?_, lineColumn?_tables d, fun _ _ _ => lineColumn?_of_offsetOf?, fun i => ?_,
    fun i j hij hj => ?_⟩
  · obtain ⟨start, hstart⟩ := exists_lineStart_of d i
    exact ⟨_, lineColumn?_eq hi hstart, isPosition hstart, offsetOf?_breaks hi hstart⟩
  · rcases Nat.lt_or_ge d.size i with hi | hi
    · exact iff_of_true (lineColumn?_eq_none hi) hi
    · obtain ⟨start, hstart⟩ := exists_lineStart_of d i
      refine iff_of_false ?_ (Nat.not_lt.mpr hi)
      rw [lineColumn?_eq hi hstart]
      exact Option.some_ne_none _
  · obtain ⟨a, ha⟩ := exists_lineStart_of d i
    obtain ⟨b, hb⟩ := exists_lineStart_of d j
    exact ⟨_, _, lineColumn?_eq (hij.le.trans hj) ha, lineColumn?_eq hj hb,
      precedes_of_lt hij ha hb⟩

/-- In a text of two lines that both end with a carriage return, the offsets behind these two have
positions that lead nowhere, and the one between the lines has a position that leads back. -/
theorem positions_invert_returns :
    IsBehindReturn (.ofText "é\r\n\r") 2 ∧ IsPosition (.ofText "é\r\n\r") 2 ⟨0, 2⟩ ∧
      (Document.ofText "é\r\n\r").offsetOf? 0 2 = none ∧
      IsBehindReturn (.ofText "é\r\n\r") 4 ∧ IsPosition (.ofText "é\r\n\r") 4 ⟨1, 1⟩ ∧
      (Document.ofText "é\r\n\r").offsetOf? 1 1 = none ∧
      ¬ IsBehindReturn (.ofText "é\r\n\r") 3 ∧ IsPosition (.ofText "é\r\n\r") 3 ⟨1, 0⟩ ∧
      (Document.ofText "é\r\n\r").offsetOf? 1 0 = some 3 := by
  have hall := (positions_invert (.ofText "é\r\n\r")).1
  have hlf : IsBehindReturn (.ofText "é\r\n\r") 2 := ⟨by decide, by decide, .inr (by decide)⟩
  have hend : IsBehindReturn (.ofText "é\r\n\r") 4 := ⟨by decide, by decide, .inl (by decide)⟩
  have hbetween : ¬ IsBehindReturn (.ofText "é\r\n\r") 3 := fun h => absurd h.behind (by decide)
  obtain ⟨p, hp, hpos, -, hback⟩ := hall 2 (by decide)
  obtain rfl : (⟨0, 2⟩ : LineColumn) = p := Option.some.inj ((by decide : _ = _).trans hp)
  obtain ⟨q, hq, hpos', -, hback'⟩ := hall 4 (by decide)
  obtain rfl : (⟨1, 1⟩ : LineColumn) = q := Option.some.inj ((by decide : _ = _).trans hq)
  obtain ⟨r, hr, hpos'', hback'', -⟩ := hall 3 (by decide)
  obtain rfl : (⟨1, 0⟩ : LineColumn) = r := Option.some.inj ((by decide : _ = _).trans hr)
  exact ⟨hlf, hpos, hback hlf, hend, hpos', hback' hend, hbetween, hpos'', hback'' hbetween⟩

end Manifest.Proofs.Lines
