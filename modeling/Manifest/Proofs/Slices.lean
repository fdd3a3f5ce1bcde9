import Manifest.Document
import Mathlib.Data.List.Basic
import Mathlib.Tactic.SplitIfs

/-! # The text under a span

The characters under a span are those at its offsets (`getElem?_sliceChars`). Two spans of which one
ends where the other starts cover the text of both, one behind the other (`sliceChars_append`); a
text is put together from its spans by this and by the spans of one character and of none. -/

namespace Manifest.Proofs.Slices

variable {d : Document} {i j k : Nat} {c : Char}

theorem getElem?_sliceChars (d : Document) (s : Span) (k : Nat) :
    (d.sliceChars s)[k]? = if k < s.size then d.charAt? (s.start + k) else none := by
  unfold Document.sliceChars Document.charAt?
  rw [List.getElem?_take, List.getElem?_drop]

theorem sliceChars_between (d : Document) (h : i ≤ j) :
    d.sliceChars (.between i j) = (d.chars.drop i).take (j - i) := by
  rw [Span.between_of_le h]
  rfl

theorem sliceChars_zero (d : Document) (j : Nat) : d.sliceChars (.between 0 j) = d.chars.take j := by
  rw [sliceChars_between d (Nat.zero_le j), List.drop_zero, Nat.sub_zero]

theorem sliceChars_self (d : Document) (i : Nat) : d.sliceChars (.between i i) = [] := by
  rw [sliceChars_between d (Nat.le_refl i), Nat.sub_self, List.take_zero]

theorem sliceChars_append (d : Document) (hij : i ≤ j) (hjk : j ≤ k) :
    d.sliceChars (.between i j) ++ d.sliceChars (.between j k) = d.sliceChars (.between i k) := by
  have hdrop : d.chars.drop j = (d.chars.drop i).drop (j - i) := by
    rw [List.drop_drop, Nat.add_sub_cancel' hij]
  rw [sliceChars_between d hij, sliceChars_between d hjk, sliceChars_between d (Nat.le_trans hij hjk),
    hdrop, ← List.take_add, show j - i + (k - j) = k - i by omega]

theorem sliceChars_succ (h : d.charAt? i = some c) : d.sliceChars (.between i (i + 1)) = [c] := by
  have hhead : (d.chars.drop i)[0]? = some c := by
    rw [List.getElem?_drop, Nat.add_zero]
    exact h
  rw [sliceChars_between d (Nat.le_add_right i 1), Nat.add_sub_cancel_left, List.take_one,
    List.head?_eq_getElem?, hhead]
  rfl

theorem mem_sliceChars (h : i ≤ j) :
    c ∈ d.sliceChars (.between i j) ↔ ∃ o, i ≤ o ∧ o < j ∧ d.charAt? o = some c := by
  rw [sliceChars_between d h, List.mem_iff_getElem?]
  constructor
  · rintro ⟨k, hk⟩
    rw [List.getElem?_take, List.getElem?_drop] at hk
    split_ifs at hk with hlt
    exact ⟨i + k, Nat.le_add_right i k, by omega, hk⟩
  · rintro ⟨o, hio, hoj, hc⟩
    refine ⟨o - i, ?_⟩
    rw [List.getElem?_take, List.getElem?_drop, if_pos (by omega), Nat.add_sub_cancel' hio]
    exact hc

theorem getLast?_sliceChars (hij : i < j) (hj : j ≤ d.size) :
    (d.sliceChars (.between i j)).getLast? = d.charAt? (j - 1) := by
  obtain ⟨c, hc⟩ : ∃ c, d.charAt? (j - 1) = some c :=
    ⟨_, List.getElem?_eq_getElem (show j - 1 < d.chars.length by unfold Document.size at hj; omega)⟩
  have hlast := sliceChars_succ hc
  rw [show j - 1 + 1 = j by omega] at hlast
  rw [← sliceChars_append d (show i ≤ j - 1 by omega) (Nat.sub_le j 1), hlast, List.getLast?_concat, hc]

end Manifest.Proofs.Slices
