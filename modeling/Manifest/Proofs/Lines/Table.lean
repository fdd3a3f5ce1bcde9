import Manifest.Document
import Mathlib.Data.List.Basic
import Mathlib.Order.Basic
import Mathlib.Order.Nat
import Mathlib.Tactic.SplitIfs

/-! # The table of line starts

`breaks d i` counts the line feeds in front of the offset `i`; it grows with `i`, by one behind each
line feed. A line starts at the first offset with as many breaks as its number (`IsLineStart`) and
stops at the last one (`IsLineStop`), so that an offset lies on the line that it has the number of
(`IsLineStart.le_iff`, `IsLineStop.le_iff`). The table holds exactly the line starts
(`getElem?_lineStarts`), and the region of a line runs from its start to its stop, less a carriage
return in front of the stop (`lineRegion?_eq`). -/

namespace Manifest.Proofs.Lines

/-! ### Breaks -/

/-- The number of line feeds in front of an offset. -/
def breaks (d : Document) (i : Nat) : Nat := (d.chars.take i).count '\n'

theorem breaks_zero (d : Document) : breaks d 0 = 0 := rfl

theorem breaks_succ_of_break {d : Document} {i : Nat} (h : d.charAt? i = some '\n') :
    breaks d (i + 1) = breaks d i + 1 := by
  unfold breaks
  rw [List.take_add_one, show d.chars[i]? = some '\n' from h, List.count_append]
  rfl

theorem breaks_mono (d : Document) {i j : Nat} (h : i ≤ j) : breaks d i ≤ breaks d j :=
  List.Sublist.count_le '\n' (List.take_sublist_take_left h)

theorem breaks_size (d : Document) : breaks d d.size = d.chars.count '\n' := by
  unfold breaks Document.size
  rw [List.take_length]

theorem breaks_le (d : Document) (i : Nat) : breaks d i ≤ d.chars.count '\n' :=
  List.Sublist.count_le '\n' (List.take_sublist i d.chars)

/-- Between offsets with equally many breaks there is no line feed. -/
theorem ne_break_of_breaks_eq {d : Document} {i j k : Nat} (h : breaks d i = breaks d j) (hik : i ≤ k)
    (hkj : k < j) : d.charAt? k ≠ some '\n' := by
  intro hbreak
  have hsucc := breaks_succ_of_break hbreak
  have hi := breaks_mono d hik
  have hj := breaks_mono d (show k + 1 ≤ j from hkj)
  omega

theorem charAt?_lt {d : Document} {i : Nat} {c : Char} (h : d.charAt? i = some c) : i < d.size :=
  (List.getElem?_eq_some_iff.mp h).1

/-! ### Starts and stops -/

/-- The line starts at this offset. -/
structure IsLineStart (d : Document) (line start : Nat) : Prop where
  le_size : start ≤ d.size
  breaks_eq : breaks d start = line
  edge : start = 0 ∨ d.charAt? (start - 1) = some '\n'

/-- The line has its line feed, or the end of the text, at this offset. -/
structure IsLineStop (d : Document) (line stop : Nat) : Prop where
  le_size : stop ≤ d.size
  breaks_eq : breaks d stop = line
  edge : stop = d.size ∨ d.charAt? stop = some '\n'

theorem IsLineStart.le_iff {d : Document} {line start : Nat} (h : IsLineStart d line start)
    (i : Nat) : start ≤ i ↔ line ≤ breaks d i := by
  have heq := h.breaks_eq
  refine ⟨fun hle => h.breaks_eq ▸ breaks_mono d hle, fun hle => ?_⟩
  by_contra hlt
  rcases h.edge with rfl | hbreak
  · omega
  · have hsucc := breaks_succ_of_break hbreak
    have hmono := breaks_mono d (show i ≤ start - 1 by omega)
    rw [show start - 1 + 1 = start by omega] at hsucc
    omega

theorem IsLineStop.le_iff {d : Document} {line stop : Nat} (h : IsLineStop d line stop) {i : Nat}
    (hi : i ≤ d.size) : i ≤ stop ↔ breaks d i ≤ line := by
  have heq := h.breaks_eq
  refine ⟨fun hle => h.breaks_eq ▸ breaks_mono d hle, fun hle => ?_⟩
  by_contra hlt
  rcases h.edge with rfl | hbreak
  · omega
  · have hsucc := breaks_succ_of_break hbreak
    have hmono := breaks_mono d (show stop + 1 ≤ i by omega)
    omega

theorem IsLineStart.le_stop {d : Document} {line start stop : Nat} (h : IsLineStart d line start)
    (hstop : IsLineStop d line stop) : start ≤ stop :=
  (h.le_iff stop).mpr hstop.breaks_eq.ge

theorem IsLineStart.unique {d : Document} {line a b : Nat} (ha : IsLineStart d line a)
    (hb : IsLineStart d line b) : a = b :=
  Nat.le_antisymm ((ha.le_iff b).mpr hb.breaks_eq.ge) ((hb.le_iff a).mpr ha.breaks_eq.ge)

/-- Lines start one behind the other. -/
theorem IsLineStart.lt_of_lt {d : Document} {line line' start start' : Nat}
    (h : IsLineStart d line start) (h' : IsLineStart d line' start') (hlt : line < line') :
    start < start' := by
  have hle := h.breaks_eq ▸ (h'.le_iff start).not
  omega

/-! ### The table -/

theorem getElem?_startsAfter : ∀ (cs : List Char) (b k start : Nat),
    (Document.startsAfter b cs)[k]? = some start ↔
      ∃ j, start = b + j + 1 ∧ cs[j]? = some '\n' ∧ (cs.take j).count '\n' = k
  | [], b, k, start => by simp [Document.startsAfter]
  | c :: cs, b, k, start => by
    have ih := getElem?_startsAfter cs (b + 1)
    unfold Document.startsAfter
    split_ifs with hc
    · subst hc
      cases k with
      | zero =>
        rw [List.getElem?_cons_zero, Option.some.injEq]
        constructor
        · rintro rfl
          exact ⟨0, rfl, rfl, rfl⟩
        · rintro ⟨j, rfl, hj, hcount⟩
          cases j with
          | zero => rfl
          | succ j => simp at hcount
      | succ k =>
        rw [List.getElem?_cons_succ, ih]
        constructor
        · rintro ⟨j, rfl, hj, hcount⟩
          exact ⟨j + 1, by omega, hj, by simp [hcount]⟩
        · rintro ⟨j, rfl, hj, hcount⟩
          cases j with
          | zero => simp at hcount
          | succ j => exact ⟨j, by omega, hj, by simpa using hcount⟩
    · rw [ih]
      constructor
      · rintro ⟨j, rfl, hj, hcount⟩
        exact ⟨j + 1, by omega, hj, by simp [hcount, hc]⟩
      · rintro ⟨j, rfl, hj, hcount⟩
        cases j with
        | zero => exact absurd (Option.some.inj hj) hc
        | succ j => exact ⟨j, by omega, hj, by simpa [hc] using hcount⟩

/-- **The table holds exactly the starts of the lines.** -/
theorem getElem?_lineStarts {d : Document} {line start : Nat} :
    d.lineStarts[line]? = some start ↔ IsLineStart d line start := by
  unfold Document.lineStarts
  cases line with
  | zero =>
    rw [List.getElem?_cons_zero, Option.some.injEq]
    constructor
    · rintro rfl
      exact ⟨Nat.zero_le _, breaks_zero d, .inl rfl⟩
    · intro h
      exact (h.unique ⟨Nat.zero_le _, breaks_zero d, .inl rfl⟩).symm
  | succ line =>
    rw [List.getElem?_cons_succ, getElem?_startsAfter]
    constructor
    · rintro ⟨j, rfl, hj, hcount⟩
      have hbreak : d.charAt? j = some '\n' := hj
      have hsucc := breaks_succ_of_break hbreak
      have hlt := charAt?_lt hbreak
      have heq : breaks d j = line := hcount
      rw [Nat.zero_add]
      exact ⟨hlt, by omega, .inr hbreak⟩
    · rintro ⟨-, hcount, hedge⟩
      rcases hedge with rfl | hbreak
      · rw [breaks_zero] at hcount
        omega
      · have hpos : start ≠ 0 := by
          rintro rfl
          rw [breaks_zero] at hcount
          omega
        have hsucc := breaks_succ_of_break hbreak
        rw [show start - 1 + 1 = start by omega] at hsucc
        exact ⟨start - 1, by omega, hbreak, by unfold breaks at hsucc hcount; omega⟩

theorem length_startsAfter : ∀ (cs : List Char) (b : Nat),
    (Document.startsAfter b cs).length = cs.count '\n'
  | [], _ => rfl
  | c :: cs, b => by
    have ih := length_startsAfter cs (b + 1)
    unfold Document.startsAfter
    split_ifs with hc <;> simp [ih, hc]

theorem length_lineStarts (d : Document) : d.lineStarts.length = d.lineCount := by
  unfold Document.lineStarts Document.lineCount
  rw [List.length_cons, length_startsAfter]

theorem exists_lineStart {d : Document} {line : Nat} (h : line < d.lineCount) :
    ∃ start, IsLineStart d line start := by
  rw [← length_lineStarts] at h
  exact ⟨_, getElem?_lineStarts.mp (List.getElem?_eq_getElem h)⟩

theorem IsLineStart.lt_lineCount {d : Document} {line start : Nat} (h : IsLineStart d line start) :
    line < d.lineCount := by
  have := breaks_le d start
  have := h.breaks_eq
  unfold Document.lineCount
  omega

/-- Every offset lies on a line. -/
theorem exists_lineStart_of (d : Document) (i : Nat) : ∃ start, IsLineStart d (breaks d i) start :=
  exists_lineStart (Nat.lt_succ_of_le (breaks_le d i))

/-! ### Positions -/

theorem lineOf?_eq {d : Document} {i : Nat} (hi : i ≤ d.size) : d.lineOf? i = some (breaks d i) :=
  if_pos hi

theorem lineOf?_eq_none {d : Document} {i : Nat} (hi : d.size < i) : d.lineOf? i = none :=
  if_neg (Nat.not_le.mpr hi)

theorem lineColumn?_eq {d : Document} {i start : Nat} (hi : i ≤ d.size)
    (hstart : IsLineStart d (breaks d i) start) :
    d.lineColumn? i = some ⟨breaks d i, i - start⟩ := by
  unfold Document.lineColumn?
  rw [lineOf?_eq hi, Option.bind_eq_bind, Option.bind_some, getElem?_lineStarts.mpr hstart]
  rfl

theorem lineColumn?_eq_none {d : Document} {i : Nat} (hi : d.size < i) : d.lineColumn? i = none := by
  unfold Document.lineColumn?
  rw [lineOf?_eq_none hi]
  rfl

/-! ### Regions -/

/-- Where a line stops, as the table has it: one in front of the next start, or at the end. -/
def stopIn (d : Document) (line : Nat) : Nat :=
  match d.lineStarts[line + 1]? with
  | some next => next - 1
  | none => d.size

theorem isLineStop_stopIn {d : Document} {line : Nat} (h : line < d.lineCount) :
    IsLineStop d line (stopIn d line) := by
  unfold stopIn
  cases hnext : d.lineStarts[line + 1]? with
  | some next =>
    have hstart := getElem?_lineStarts.mp hnext
    have heq := hstart.breaks_eq
    have hpos : next ≠ 0 := by
      rintro rfl
      rw [breaks_zero] at heq
      omega
    have hbreak := hstart.edge.resolve_left hpos
    have hsucc := breaks_succ_of_break hbreak
    rw [show next - 1 + 1 = next by omega] at hsucc
    exact ⟨(charAt?_lt hbreak).le, by simp only; omega, .inr hbreak⟩
  | none =>
    have hlast : d.lineCount ≤ line + 1 := by
      rw [← length_lineStarts]
      exact List.getElem?_eq_none_iff.mp hnext
    have hsize := breaks_size d
    unfold Document.lineCount at h hlast
    exact ⟨Nat.le_refl _, by simp only; omega, .inl rfl⟩

theorem IsLineStop.unique {d : Document} {line a b : Nat} (ha : IsLineStop d line a)
    (hb : IsLineStop d line b) : a = b :=
  Nat.le_antisymm ((hb.le_iff ha.le_size).mpr ha.breaks_eq.le)
    ((ha.le_iff hb.le_size).mpr hb.breaks_eq.le)

theorem lineRegion?_eq {d : Document} {line start stop : Nat} (hstart : IsLineStart d line start)
    (hstop : IsLineStop d line stop) :
    d.lineRegion? line = some (.between start (d.regionEnd start stop)) := by
  have hin : stopIn d line = stop := (isLineStop_stopIn hstart.lt_lineCount).unique hstop
  unfold Document.lineRegion?
  rw [getElem?_lineStarts.mpr hstart, ← hin]
  rfl

theorem lineRegion?_eq_none_iff {d : Document} {line : Nat} :
    d.lineRegion? line = none ↔ d.lineCount ≤ line := by
  rcases Nat.lt_or_ge line d.lineCount with hline | hline
  · obtain ⟨start, hstart⟩ := exists_lineStart hline
    rw [lineRegion?_eq hstart (isLineStop_stopIn hline)]
    simp [hline]
  · have hnone : d.lineStarts[line]? = none :=
      List.getElem?_eq_none_iff.mpr (length_lineStarts d ▸ hline)
    refine iff_of_true ?_ hline
    unfold Document.lineRegion?
    rw [hnone]
    rfl

/-- A region ends at the stop of the line, or one in front of it. -/
theorem regionEnd_cases (d : Document) (start stop : Nat) :
    (d.regionEnd start stop = stop ∧ ¬ (start < stop ∧ d.charAt? (stop - 1) = some '\r')) ∨
      (d.regionEnd start stop = stop - 1 ∧ start < stop ∧ d.charAt? (stop - 1) = some '\r') := by
  unfold Document.regionEnd
  split_ifs with h
  · exact .inr ⟨rfl, h⟩
  · exact .inl ⟨rfl, h⟩

theorem IsLineStart.le_regionEnd {d : Document} {line start stop : Nat}
    (hstart : IsLineStart d line start) (hstop : IsLineStop d line stop) :
    start ≤ d.regionEnd start stop := by
  have hle := hstart.le_stop hstop
  have := regionEnd_cases d start stop
  omega

theorem regionEnd_le (d : Document) (start stop : Nat) : d.regionEnd start stop ≤ stop := by
  have := regionEnd_cases d start stop
  omega

theorem lineRegion?_of_bounds {d : Document} {line start stop : Nat}
    (hstart : IsLineStart d line start) (hstop : IsLineStop d line stop) :
    d.lineRegion? line = some ⟨start, d.regionEnd start stop, hstart.le_regionEnd hstop⟩ := by
  rw [lineRegion?_eq hstart hstop, Span.between_of_le (hstart.le_regionEnd hstop)]

/-- A region is that of a line, from its start on. -/
theorem exists_bounds {d : Document} {line : Nat} {region : Span}
    (h : d.lineRegion? line = some region) :
    ∃ stop, IsLineStart d line region.start ∧ IsLineStop d line stop ∧
      region.stop = d.regionEnd region.start stop := by
  rcases Nat.lt_or_ge line d.lineCount with hline | hline
  · obtain ⟨start, hstart⟩ := exists_lineStart hline
    have hstop := isLineStop_stopIn hline
    rw [lineRegion?_of_bounds hstart hstop] at h
    obtain rfl := Option.some.inj h
    exact ⟨_, hstart, hstop, rfl⟩
  · rw [lineRegion?_eq_none_iff.mpr hline] at h
    cases h

theorem stop_le_size_of_region {d : Document} {line : Nat} {region : Span}
    (h : d.lineRegion? line = some region) : region.stop ≤ d.size := by
  obtain ⟨stop, -, hstop, hend⟩ := exists_bounds h
  have hle := regionEnd_le d region.start stop
  have hsize := hstop.le_size
  omega

theorem exists_region_iff {d : Document} {line : Nat} :
    (∃ region, d.lineRegion? line = some region) ↔ line < d.lineCount := by
  rw [← Option.isSome_iff_exists, ← Option.ne_none_iff_isSome, ne_eq, lineRegion?_eq_none_iff,
    Nat.not_le]

/-- Every offset lies on a line, which has a region. -/
theorem exists_region (d : Document) (i : Nat) :
    ∃ region, d.lineRegion? (breaks d i) = some region :=
  exists_region_iff.mpr (Nat.lt_succ_of_le (breaks_le d i))

theorem offsetOf?_of_region {d : Document} {line : Nat} {region : Span}
    (h : d.lineRegion? line = some region) (column : Nat) :
    d.offsetOf? line column =
      if column ≤ region.size then some (region.start + column) else none := by
  unfold Document.offsetOf?
  rw [h]
  rfl

theorem offsetOf?_eq {d : Document} {line start stop : Nat} (hstart : IsLineStart d line start)
    (hstop : IsLineStop d line stop) (column : Nat) :
    d.offsetOf? line column =
      if start + column ≤ d.regionEnd start stop then some (start + column) else none := by
  rw [offsetOf?_of_region (lineRegion?_of_bounds hstart hstop)]
  exact if_congr (Nat.le_sub_iff_add_le' (hstart.le_regionEnd hstop)) rfl rfl

theorem offsetOf?_eq_none {d : Document} {line : Nat} (hline : d.lineCount ≤ line) (column : Nat) :
    d.offsetOf? line column = none := by
  unfold Document.offsetOf?
  rw [lineRegion?_eq_none_iff.mpr hline]
  rfl

end Manifest.Proofs.Lines
