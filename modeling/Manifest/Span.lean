/-! # Spans

A span is a half-open interval of character offsets. Its two bounds are always in order, so its
length is a difference that never goes below zero. -/

namespace Manifest

/-- A half-open interval `[start, stop)` of character offsets. -/
structure Span where
  start : Nat
  stop : Nat
  ordered : start ≤ stop := by omega
deriving DecidableEq, Repr

namespace Span

/-- The span between two offsets, in whichever order they are given. -/
def between (a b : Nat) : Span where
  start := min a b
  stop := max a b

/-- The number of offsets in the span. -/
def size (s : Span) : Nat := s.stop - s.start

/-- The span holds no offset. -/
def isEmpty (s : Span) : Bool := s.start == s.stop

/-- The offset lies in the span. -/
def contains (s : Span) (o : Nat) : Bool := s.start ≤ o && o < s.stop

/-- The span moved to the right by `n` characters. -/
def shift (s : Span) (n : Nat) : Span where
  start := s.start + n
  stop := s.stop + n
  ordered := Nat.add_le_add_right s.ordered n

@[simp] theorem start_between (a b : Nat) : (between a b).start = min a b := rfl

@[simp] theorem stop_between (a b : Nat) : (between a b).stop = max a b := rfl

@[ext] theorem ext {s t : Span} (h : s.start = t.start) (h' : s.stop = t.stop) : s = t := by
  cases s; cases t; cases h; cases h'; rfl

theorem between_of_le {a b : Nat} (h : a ≤ b) : between a b = ⟨a, b, h⟩ :=
  Span.ext (Nat.min_eq_left h) (Nat.max_eq_right h)

end Span

end Manifest
