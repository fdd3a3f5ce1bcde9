import Manifest.Document
import Manifest.Yaml.Charset
import Mathlib.Data.List.Basic

/-! # Manifests that list names

The plainest manifest with applications is a block sequence of mappings, each with nothing but a
name. This module writes it (`manifestText`), says which names it is written for (`IsAppName`) and
where its items stand (`itemStart`). -/

namespace Manifest.Proofs.NameList

/-! ### Names -/

/-- A lower-case letter, a digit or a hyphen. -/
def IsNameChar (c : Char) : Prop := c.isLower = true ∨ c.isDigit = true ∨ c = '-'

/-- A name that needs no quotes: it starts with a letter. -/
structure IsAppName (n : List Char) : Prop where
  letter : ∃ c rest, n = c :: rest ∧ c.isLower = true
  chars : ∀ c ∈ n, IsNameChar c

instance : DecidablePred IsNameChar := fun _ => inferInstanceAs (Decidable (_ ∨ _ ∨ _))

instance (n : List Char) : Decidable (IsAppName n) :=
  decidable_of_iff (n.head?.any Char.isLower = true ∧ n.all (fun c => IsNameChar c) = true) (by
    rw [List.all_eq_true]
    constructor
    · rintro ⟨hletter, hchars⟩
      obtain ⟨c, hc, hlower⟩ := (Option.any_eq_true _ _).mp hletter
      obtain ⟨rest, hrest⟩ := List.head?_eq_some_iff.mp hc
      exact ⟨⟨c, rest, hrest, hlower⟩, fun c hc => of_decide_eq_true (hchars c hc)⟩
    · rintro ⟨⟨c, rest, rfl, hlower⟩, hchars⟩
      exact ⟨hlower, fun c hc => decide_eq_true (hchars c hc)⟩)

theorem IsNameChar.ne {c d : Char} (h : IsNameChar c)
    (hd : d.isLower = false ∧ d.isDigit = false ∧ d ≠ '-') : c ≠ d := by
  rintro rfl
  obtain ⟨hl, hg, hm⟩ := hd
  rcases h with h | h | h
  · rw [hl] at h; cases h
  · rw [hg] at h; cases h
  · exact hm h

theorem ne_of_isLower {c d : Char} (hc : c.isLower = true) (hd : d.isLower = false) : c ≠ d := by
  rintro rfl
  rw [hc] at hd
  cases hd

theorem IsNameChar.isBlankOrBreak {c : Char} (h : IsNameChar c) :
    Yaml.isBlankOrBreak c = false := by
  have h1 : c ≠ ' ' := h.ne (by decide)
  have h2 : c ≠ '\t' := h.ne (by decide)
  have h3 : c ≠ '\n' := h.ne (by decide)
  have h4 : c ≠ '\r' := h.ne (by decide)
  simp [Yaml.isBlankOrBreak, Yaml.isBlank, Yaml.isBreak, h1, h2, h3, h4]

/-! ### The text -/

/-- The characters of an item. -/
def item (n : List Char) : List Char :=
  '-' :: ' ' :: 'n' :: 'a' :: 'm' :: 'e' :: ':' :: ' ' :: (n ++ ['\n'])

/-- The characters of the items. -/
def items (ns : List (List Char)) : List Char := ns.flatMap item

/-- The characters of the line in front of the items. -/
def header : List Char :=
  ['a', 'p', 'p', 'l', 'i', 'c', 'a', 't', 'i', 'o', 'n', 's', ':', '\n']

/-- The manifest that lists some names. -/
def manifestText (names : List String) : String :=
  "applications:\n" ++ String.join (names.map fun n => "- name: " ++ n ++ "\n")

theorem toList_manifestText (names : List String) :
    (manifestText names).toList = header ++ items (names.map String.toList) := by
  rw [manifestText, String.toList_append, String.toList_join, items, List.flatMap_map,
    List.flatMap_map]
  congr 1
  refine List.flatMap_congr fun n _ => ?_
  rw [String.toList_append, String.toList_append]
  rfl

/-- Where the item of a name starts: behind the header and the items of all names before it. -/
def itemStart (names : List String) : Nat → Nat
  | 0 => 14
  | i + 1 => itemStart names i + (names[i]?.map fun n => n.length + 9).getD 0

@[simp] theorem length_item (n : List Char) : (item n).length = n.length + 9 := by
  simp [item]

theorem length_items_cons (n : List Char) (ns : List (List Char)) :
    (items (n :: ns)).length = n.length + 9 + (items ns).length := by
  rw [items, List.flatMap_cons, List.length_append, length_item]
  rfl

/-- A text goes on behind an item with the dash of the next one, or ends. -/
theorem head?_items (ns : List (List Char)) : (items ns).head? = ns.head?.map fun _ => '-' := by
  cases ns <;> rfl

theorem itemStart_eq (names : List String) : ∀ i,
    itemStart names i = 14 + (items ((names.map String.toList).take i)).length
  | 0 => rfl
  | i + 1 => by
    rw [itemStart, itemStart_eq names i, List.take_add_one, List.getElem?_map, items, items,
      List.flatMap_append, List.length_append, Nat.add_assoc]
    cases names[i]? with
    | none => rfl
    | some n => simp [String.length_toList]

theorem ofText_manifestText (names : List String) :
    Document.ofText (manifestText names) = ⟨header ++ items (names.map String.toList)⟩ := by
  rw [Document.ofText, toList_manifestText]
  rfl

end Manifest.Proofs.NameList
