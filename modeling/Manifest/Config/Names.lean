/-! # Sets of names

Lists of texts without repetition, in the order of their characters. Two such lists with the same
members are equal, so a union does not depend on how it is put together. -/

namespace Manifest.Config

/-- The list with a name put in its place, unless it is there. -/
def insertName (name : String) : List String → List String
  | [] => [name]
  | n :: rest =>
    if name < n then name :: n :: rest
    else if name = n then n :: rest
    else n :: insertName name rest

/-- The names of two lists in order, each once. -/
def unionNames (a b : List String) : List String := (a ++ b).foldr insertName []

theorem mem_insertName {x name : String} {l : List String} :
    x ∈ insertName name l ↔ x = name ∨ x ∈ l := by
  induction l with
  | nil => simp [insertName]
  | cons n rest ih =>
    unfold insertName
    split
    · simp
    · split <;> rename_i h
      · subst h; simp
      · simp only [List.mem_cons, ih]
        constructor
        · rintro (h | h | h) <;> simp [h]
        · rintro (h | h | h) <;> simp [h]

theorem mem_unionNames {x : String} {a b : List String} :
    x ∈ unionNames a b ↔ x ∈ a ∨ x ∈ b := by
  rw [← List.mem_append]
  unfold unionNames
  induction a ++ b with
  | nil => simp
  | cons n rest ih => simp [mem_insertName, ih]

theorem pairwise_insertName {name : String} {l : List String} (h : l.Pairwise (· < ·)) :
    (insertName name l).Pairwise (· < ·) := by
  induction l with
  | nil => simp [insertName]
  | cons n rest ih =>
    obtain ⟨h1, h2⟩ := List.pairwise_cons.1 h
    unfold insertName
    split <;> rename_i hlt
    · refine List.pairwise_cons.2 ⟨fun m hm => ?_, h⟩
      rcases List.mem_cons.1 hm with rfl | hm
      · exact hlt
      · exact String.lt_trans hlt (h1 m hm)
    · split <;> rename_i heq
      · exact h
      · refine List.pairwise_cons.2 ⟨fun m hm => ?_, ih h2⟩
        rcases mem_insertName.1 hm with rfl | hm
        · exact Std.lt_of_le_of_ne (String.not_lt.1 hlt) (Ne.symm heq)
        · exact h1 m hm

theorem pairwise_unionNames (a b : List String) : (unionNames a b).Pairwise (· < ·) := by
  unfold unionNames
  induction a ++ b with
  | nil => exact .nil
  | cons n rest ih => exact pairwise_insertName ih

end Manifest.Config
