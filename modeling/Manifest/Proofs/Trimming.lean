import Manifest.Document
import Mathlib.Data.Nat.Basic
import Mathlib.Order.Monotone.Defs
import Mathlib.Tactic.SplitIfs
import Mathlib.Tactic.WLOG

/-! # Trimming the end of a node

The search of `trimEnd` runs back over blanks only (`blankAt_of_lastInk_le`) and stops behind a
character that is not blank, or at the beginning of the text (`ink_of_lastInk`). For `trimEnd` this
becomes: what is dropped is blank (`blankAt_of_trimEnd_le`), nothing is dropped at the end of the text
or in front of a character that is not blank (`trimEnd_of_kept`), and else the last character that
stays is not blank (`ink_of_trimEnd`). That trimming is monotone and idempotent follows from these
three alone. A node keeps its start, and `IsTrimmed` says which end it has. Main statement:
`nodeSpan_trims`. -/

namespace Manifest.Proofs.Trimming

/-! ### The search -/

theorem lastInk_le (d : Document) : ∀ i, d.lastInk i ≤ i + 1
  | 0 => by
    unfold Document.lastInk
    split_ifs <;> omega
  | i + 1 => by
    have ih := lastInk_le d i
    unfold Document.lastInk
    split_ifs <;> omega

theorem lastInk_of_ink {d : Document} {i : Nat} (h : d.blankAt i = false) :
    d.lastInk i = i + 1 := by
  cases i <;> simp [Document.lastInk, h]

theorem lastInk_of_blank {d : Document} {i : Nat} (h : d.blankAt i = true) : d.lastInk i ≤ i := by
  cases i with
  | zero => simp [Document.lastInk, h]
  | succ i =>
    have := lastInk_le d i
    simp only [Document.lastInk, h, if_true]
    omega

/-- The search passes blanks only. -/
theorem blankAt_of_lastInk_le {d : Document} {i j : Nat} (hle : d.lastInk i ≤ j) (hji : j ≤ i) :
    d.blankAt j = true := by
  induction i with
  | zero =>
    obtain rfl : j = 0 := by omega
    by_contra hink
    rw [lastInk_of_ink (by simpa using hink)] at hle
    omega
  | succ i ih =>
    cases hblank : d.blankAt (i + 1) with
    | false =>
      rw [lastInk_of_ink hblank] at hle
      omega
    | true =>
      rcases Nat.le_or_eq_of_le_succ hji with hji | rfl
      · simp only [Document.lastInk, hblank, if_true] at hle
        exact ih hle hji
      · exact hblank

/-- The search stops behind a character that is not blank, unless it comes to the beginning. -/
theorem ink_of_lastInk {d : Document} {i j : Nat} (h : d.lastInk i = j + 1) :
    d.blankAt j = false := by
  induction i with
  | zero =>
    cases hblank : d.blankAt 0 with
    | true => simp [Document.lastInk, hblank] at h
    | false =>
      rw [lastInk_of_ink hblank] at h
      obtain rfl : 0 = j := by omega
      exact hblank
  | succ i ih =>
    cases hblank : d.blankAt (i + 1) with
    | true =>
      simp only [Document.lastInk, hblank, if_true] at h
      exact ih h
    | false =>
      rw [lastInk_of_ink hblank] at h
      obtain rfl : i + 1 = j := by omega
      exact hblank

/-! ### The trimmed mark -/

theorem trimEnd_of_kept {d : Document} {mark : Nat} (h : d.size ≤ mark ∨ d.blankAt mark = false) :
    d.trimEnd mark = min mark d.size := by
  unfold Document.trimEnd
  split_ifs with hend hblank
  · omega
  · rcases h with h | h
    · omega
    · rw [hblank] at h
      cases h
  · omega

theorem trimEnd_of_blank {d : Document} {mark : Nat} (hend : mark < d.size)
    (h : d.blankAt mark = true) : d.trimEnd mark = d.lastInk mark := by
  rw [Document.trimEnd, if_neg (Nat.not_le.mpr hend), if_pos h]

/-- A mark on a blank inside the text is pulled back; any other stays where it is, or comes down to
the end of the text. -/
theorem kept_or_blank (d : Document) (mark : Nat) :
    (d.size ≤ mark ∨ d.blankAt mark = false) ∨ (mark < d.size ∧ d.blankAt mark = true) := by
  rcases Nat.lt_or_ge mark d.size with hend | hend
  · cases hblank : d.blankAt mark with
    | false => exact .inl (.inr rfl)
    | true => exact .inr ⟨hend, rfl⟩
  · exact .inl (.inl hend)

theorem trimEnd_le_min (d : Document) (mark : Nat) : d.trimEnd mark ≤ min mark d.size := by
  rcases kept_or_blank d mark with h | ⟨hend, hblank⟩
  · exact (trimEnd_of_kept h).le
  · have := lastInk_of_blank hblank
    rw [trimEnd_of_blank hend hblank]
    omega

/-- A trimmed end lies in the text, whatever the mark. -/
theorem trimEnd_le_size (d : Document) (mark : Nat) : d.trimEnd mark ≤ d.size :=
  (trimEnd_le_min d mark).trans (Nat.min_le_right _ _)

/-- What is dropped is blank. -/
theorem blankAt_of_trimEnd_le {d : Document} {mark j : Nat} (hle : d.trimEnd mark ≤ j)
    (hj : j < min mark d.size) : d.blankAt j = true := by
  rcases kept_or_blank d mark with h | ⟨hend, hblank⟩
  · rw [trimEnd_of_kept h] at hle
    omega
  · rw [trimEnd_of_blank hend hblank] at hle
    exact blankAt_of_lastInk_le hle (by omega)

/-- A character that is not blank is not dropped. -/
theorem lt_trimEnd_of_ink {d : Document} {mark j : Nat} (hj : j < min mark d.size)
    (hink : d.blankAt j = false) : j < d.trimEnd mark := by
  by_contra hle
  rw [blankAt_of_trimEnd_le (by omega) hj] at hink
  cases hink

/-- Where something may be dropped, the last character that stays is not blank. -/
theorem ink_of_trimEnd {d : Document} {mark j : Nat} (hend : mark < d.size)
    (hblank : d.blankAt mark = true) (h : d.trimEnd mark = j + 1) : d.blankAt j = false := by
  rw [trimEnd_of_blank hend hblank] at h
  exact ink_of_lastInk h

theorem trimEnd_trimEnd (d : Document) (mark : Nat) :
    d.trimEnd (d.trimEnd mark) = d.trimEnd mark := by
  have hle := trimEnd_le_min d mark
  have hagain := trimEnd_le_min d (d.trimEnd mark)
  rcases kept_or_blank d mark with h | ⟨hend, hblank⟩
  · have hkept : d.size ≤ d.trimEnd mark ∨ d.blankAt (d.trimEnd mark) = false := by
      rw [trimEnd_of_kept h]
      rcases Nat.lt_or_ge mark d.size with hin | hout
      · rwa [Nat.min_eq_left hin.le]
      · exact .inl (by omega)
    have := trimEnd_of_kept hkept
    omega
  · rcases Nat.eq_zero_or_eq_succ_pred (d.trimEnd mark) with hzero | hsucc
    · omega
    · have hlast := ink_of_trimEnd hend hblank hsucc
      have := lt_trimEnd_of_ink (show _ < min (d.trimEnd mark) d.size by omega) hlast
      omega

theorem monotone_trimEnd (d : Document) : Monotone d.trimEnd := by
  intro mark mark' hmarks
  have hle := trimEnd_le_min d mark
  rcases kept_or_blank d mark with (hend | hink) | ⟨hend, hblank⟩
  · have := trimEnd_of_kept (.inl (hend.trans hmarks))
    omega
  · rcases hmarks.eq_or_lt with rfl | hlt
    · exact le_rfl
    · rcases Nat.lt_or_ge mark d.size with hin | hout
      · have := lt_trimEnd_of_ink (show mark < min mark' d.size by omega) hink
        omega
      · have := trimEnd_of_kept (.inl (hout.trans hmarks))
        omega
  · rcases Nat.eq_zero_or_eq_succ_pred (d.trimEnd mark) with hzero | hsucc
    · omega
    · have hlast := ink_of_trimEnd hend hblank hsucc
      have := lt_trimEnd_of_ink (show _ < min mark' d.size by omega) hlast
      omega

/-! ### The span of a node -/

theorem start_nodeSpan (d : Document) (start stop : Nat) :
    (d.nodeSpan start stop).start = min start d.size := by
  rw [Document.nodeSpan, Span.start_between]
  omega

theorem stop_nodeSpan (d : Document) (start stop : Nat) :
    (d.nodeSpan start stop).stop = max (d.trimEnd stop) (min start d.size) := by
  rw [Document.nodeSpan, Span.stop_between]
  omega

theorem nodeSpan_stop_le_size (d : Document) (start stop : Nat) :
    (d.nodeSpan start stop).stop ≤ d.size := by
  have htrim := trimEnd_le_size d stop
  rw [stop_nodeSpan]
  omega

theorem nodeSpan_stop_le {d : Document} {start stop : Nat} (h : start ≤ stop) :
    (d.nodeSpan start stop).stop ≤ min stop d.size := by
  have htrim := trimEnd_le_min d stop
  rw [stop_nodeSpan]
  omega

theorem nodeSpan_nodeSpan (d : Document) (start stop : Nat) :
    d.nodeSpan (d.nodeSpan start stop).start (d.nodeSpan start stop).stop =
      d.nodeSpan start stop := by
  have hle := trimEnd_le_size d stop
  have htwice := trimEnd_trimEnd d stop
  have hstart := trimEnd_le_min d (min start d.size)
  have hstop : max (d.trimEnd (max (d.trimEnd stop) (min start d.size))) (min start d.size) =
      max (d.trimEnd stop) (min start d.size) := by
    rcases Nat.le_total (d.trimEnd stop) (min start d.size) with h | h
    · rw [Nat.max_eq_right h]
      omega
    · rw [Nat.max_eq_left h, htwice]
      omega
  refine Span.ext ?_ ?_
  · rw [start_nodeSpan, start_nodeSpan]
    omega
  · rw [stop_nodeSpan, start_nodeSpan, stop_nodeSpan, Nat.min_eq_left (Nat.min_le_right _ _), hstop]

/-- `stop'` is the end of a node with the marks `start` and `stop` once the blanks at its end are
dropped. At the end of the text, and in front of a character that is not blank, nothing is. -/
structure IsTrimmed (d : Document) (start stop stop' : Nat) : Prop where
  start_le : start ≤ stop'
  le_stop : stop' ≤ stop
  /-- What is dropped is blank. -/
  dropped : ∀ i, stop' ≤ i → i < stop → d.blankAt i = true
  kept : stop = d.size ∨ d.blankAt stop = false → stop' = stop
  /-- Nothing is left, or the last character that is left is not blank. -/
  ink : stop ≠ d.size → d.blankAt stop = true → start = stop' ∨ d.blankAt (stop' - 1) = false

theorem isTrimmed_nodeSpan {d : Document} {start stop : Nat} (hmarks : start ≤ stop)
    (hstop : stop ≤ d.size) : IsTrimmed d start stop (d.nodeSpan start stop).stop := by
  have hle := trimEnd_le_min d stop
  have heq := stop_nodeSpan d start stop
  refine ⟨by omega, by omega, fun i hi his => ?_, fun h => ?_, fun hend hblank => ?_⟩
  · exact blankAt_of_trimEnd_le (show d.trimEnd stop ≤ i by omega) (by omega)
  · have := trimEnd_of_kept (h.imp_left Eq.ge)
    omega
  · rcases Nat.lt_or_ge start (d.trimEnd stop) with hlt | hge
    · exact .inr (ink_of_trimEnd (by omega) hblank (by omega))
    · exact .inl (by omega)

/-- A node has one trimmed end. -/
theorem IsTrimmed.unique {d : Document} {start stop a b : Nat} (ha : IsTrimmed d start stop a)
    (hb : IsTrimmed d start stop b) : a = b := by
  wlog hlt : a < b generalizing a b
  · rcases Nat.lt_or_ge b a with h | h
    · exact (this hb ha h).symm
    · omega
  have hle := hb.le_stop
  by_cases hkept : stop = d.size ∨ d.blankAt stop = false
  · rw [ha.kept hkept, hb.kept hkept]
  · -- the last character of the longer one is among those that the shorter one has dropped
    obtain ⟨hend, hblank⟩ := not_or.mp hkept
    have hstart := ha.start_le
    have hink := (hb.ink hend (by simpa using hblank)).resolve_left (by omega)
    rw [ha.dropped (b - 1) (by omega) (by omega)] at hink
    cases hink

/-- **A node loses exactly the blanks at its end.** With marks in order and in the text, its span
starts at its start and stops at the one end that is `IsTrimmed`. Whatever the marks, its span is
that of its own bounds; and a trimmed mark grows with the mark, lies neither behind it nor behind the
end of the text, and is trimmed already. -/
theorem nodeSpan_trims (d : Document) :
    (∀ start stop, start ≤ stop → stop ≤ d.size →
      (d.nodeSpan start stop).start = start ∧
        ∀ stop', IsTrimmed d start stop stop' ↔ stop' = (d.nodeSpan start stop).stop) ∧
    (∀ start stop, d.nodeSpan (d.nodeSpan start stop).start (d.nodeSpan start stop).stop =
      d.nodeSpan start stop) ∧
    (∀ mark mark', mark ≤ mark' → d.trimEnd mark ≤ d.trimEnd mark') ∧
    (∀ mark, d.trimEnd mark ≤ min mark d.size) ∧
    ∀ mark, d.trimEnd (d.trimEnd mark) = d.trimEnd mark := by
  refine ⟨fun start stop hmarks hstop => ⟨?_, fun stop' => ⟨fun h => ?_, ?_⟩⟩, nodeSpan_nodeSpan d,
    fun mark mark' h => monotone_trimEnd d h, trimEnd_le_min d, trimEnd_trimEnd d⟩
  · rw [start_nodeSpan]
    omega
  · exact h.unique (isTrimmed_nodeSpan hmarks hstop)
  · rintro rfl
    exact isTrimmed_nodeSpan hmarks hstop

/-- Blanks of one, two and three bytes are dropped, though not past the start of the node; a node that
ends with the text keeps them. -/
theorem nodeSpan_trims_wide :
    (Document.ofText "a \u00a0\u3000b \u3000").nodeSpan 2 3 = ⟨2, 2, by decide⟩ ∧
      IsTrimmed (.ofText "a \u00a0\u3000b \u3000") 2 3 2 ∧
      (Document.ofText "a \u00a0\u3000b \u3000").nodeSpan 0 3 = ⟨0, 1, by decide⟩ ∧
      IsTrimmed (.ofText "a \u00a0\u3000b \u3000") 0 3 1 ∧
      IsTrimmed (.ofText "a \u00a0\u3000b \u3000") 4 7 7 := by
  have hspan := (nodeSpan_trims (.ofText "a \u00a0\u3000b \u3000")).1
  refine ⟨by decide, ?_, by decide, ?_, ?_⟩
  · exact ((hspan 2 3 (by decide) (by decide)).2 2).mpr (by decide)
  · exact ((hspan 0 3 (by decide) (by decide)).2 1).mpr (by decide)
  · exact ((hspan 4 7 (by decide) (by decide)).2 7).mpr (by decide)

end Manifest.Proofs.Trimming
