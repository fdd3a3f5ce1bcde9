import Manifest.Proofs.JsonText.Values
import Manifest.Store.Selections

/-! # Remembered selections as a map

Giving a key a selection, or taking it away, changes what is found for this key and for no other
(`get?_insert`, `get?_erase`), and what is found under all keys tells the selections (`eq_of_get?`). The
text of the selections gives them back, as long as every start fits into 64 bits; otherwise it cannot be
read at all (`parse?_print`). -/

namespace Manifest.Proofs.SelectionMap

open Manifest.Selections Manifest.Proofs.JsonText

/-! ### Looking up -/

theorem lookup_insertEntry (key k : String) (s : Selection) : ∀ l : List (String × Selection),
    lookup k (insertEntry key s l) = if key = k then some s else lookup k l
  | [] => rfl
  | (other, t) :: rest => by
    have ih := lookup_insertEntry key k s rest
    unfold insertEntry
    split_ifs with hlt heq hk <;> grind [lookup]

theorem lookup_filter (key k : String) : ∀ l : List (String × Selection),
    lookup k (l.filter (·.1 ≠ key)) = if key = k then none else lookup k l
  | [] => by simp [lookup]
  | (other, t) :: rest => by
    have ih := lookup_filter key k rest
    by_cases hother : other = key <;> grind [lookup]

/-- A selection is found under its key, and what is found under other keys stays. -/
theorem get?_insert (m : Selections) (key : String) (s : Selection) (k : String) :
    (m.insert key s).get? k = if key = k then some s else m.get? k :=
  lookup_insertEntry key k s m.entries

/-- Nothing is found any more under a key taken away, and what is found under other keys stays. -/
theorem get?_erase (m : Selections) (key k : String) :
    (m.erase key).get? k = if key = k then none else m.get? k :=
  lookup_filter key k m.entries

theorem lookup_of_lt {k : String} : ∀ {l : List (String × Selection)},
    (∀ e ∈ l, k < e.1) → lookup k l = none
  | [], _ => rfl
  | (other, t) :: rest, h => by
    have hlt : k < other := h (other, t) List.mem_cons_self
    have hne : other ≠ k := by
      rintro rfl
      exact String.lt_irrefl other hlt
    rw [lookup, if_neg hne]
    exact lookup_of_lt fun e he => h e (List.mem_cons_of_mem _ he)

theorem not_lt_head {k k' : String} {s s' : Selection} {l l' : List (String × Selection)}
    (hl' : ((k', s') :: l').Pairwise fun a b => a.1 < b.1)
    (h : lookup k ((k, s) :: l) = lookup k ((k', s') :: l')) : ¬ k < k' := by
  intro hlt
  have hnone : lookup k ((k', s') :: l') = none := lookup_of_lt fun e he => by
    rcases List.mem_cons.mp he with rfl | he
    · exact hlt
    · exact String.lt_trans hlt ((List.pairwise_cons.mp hl').1 e he)
  rw [← h] at hnone
  simp [lookup] at hnone

/-- A list in the order of its keys is told by what is found in it. -/
theorem eq_of_lookup : ∀ {l l' : List (String × Selection)}, l.Pairwise (fun a b => a.1 < b.1) →
    l'.Pairwise (fun a b => a.1 < b.1) → (∀ k, lookup k l = lookup k l') → l = l'
  | [], [], _, _, _ => rfl
  | [], (k, s) :: _, _, _, h => by simpa [lookup] using h k
  | (k, s) :: _, [], _, _, h => by simpa [lookup] using h k
  | (k, s) :: l, (k', s') :: l', hl, hl', h => by
    obtain ⟨hk, hrest⟩ := List.pairwise_cons.mp hl
    obtain ⟨hk', hrest'⟩ := List.pairwise_cons.mp hl'
    have hkey : k = k' := String.le_antisymm (String.not_lt.mp (not_lt_head hl (h k').symm))
      (String.not_lt.mp (not_lt_head hl' (h k)))
    subst hkey
    have hs : s = s' := by simpa [lookup] using h k
    have htail : l = l' := eq_of_lookup hrest hrest' fun j => by
      by_cases hj : k = j
      · rw [← hj, lookup_of_lt hk, lookup_of_lt hk']
      · simpa [lookup, hj] using h j
    rw [hs, htail]

/-- **Selections are told by what is found under each key.** -/
theorem eq_of_get? {m m' : Selections} (h : ∀ k, m.get? k = m'.get? k) : m = m' :=
  Selections.ext (eq_of_lookup m.ordered m'.ordered h)

/-! ### From a list and back -/

theorem insertEntry_of_last {key : String} {s : Selection} : ∀ {l : List (String × Selection)},
    (∀ e ∈ l, e.1 < key) → insertEntry key s l = l ++ [(key, s)]
  | [], _ => rfl
  | (k, t) :: rest, h => by
    have hk : k < key := h (k, t) (by simp)
    have hne : key ≠ k := by
      rintro rfl
      exact String.lt_irrefl key hk
    have hrest : ∀ e ∈ rest, e.1 < key := fun e he => h e (List.mem_cons_of_mem _ he)
    rw [insertEntry, if_neg (String.lt_asymm hk), if_neg hne, insertEntry_of_last hrest,
      List.cons_append]

theorem entries_foldl_insert : ∀ (l : List (String × Selection)) (m : Selections),
    (m.entries ++ l).Pairwise (fun a b => a.1 < b.1) →
      (l.foldl (fun m e => m.insert e.1 e.2) m).entries = m.entries ++ l
  | [], m, _ => (List.append_nil _).symm
  | e :: l, m, h => by
    have hlast : ∀ a ∈ m.entries, a.1 < e.1 :=
      fun a ha => (List.pairwise_append.mp h).2.2 a ha e List.mem_cons_self
    have hinsert : (m.insert e.1 e.2).entries = m.entries ++ [e] := insertEntry_of_last hlast
    rw [List.foldl_cons, entries_foldl_insert l _ (by rw [hinsert]; simpa using h), hinsert,
      List.append_assoc, List.singleton_append]

/-- The selections are those of their own list. -/
theorem ofList_entries (m : Selections) : Selections.ofList m.entries = m :=
  Selections.ext (entries_foldl_insert m.entries .empty m.ordered)

/-! ### The text -/

theorem plain_toJson (m : Selections) : Plain m.toJson := by
  have hfields : ∀ l : List (String × Selection),
      PlainFields (l.map fun e => (e.1, entryJson e.2)) := by
    intro l
    induction l with
    | nil => trivial
    | cons e l ih => exact ⟨⟨trivial, trivial, trivial⟩, ih⟩
  exact ⟨hfields m.entries, trivial⟩

/-- A selection is read back if its start fits into 64 bits. -/
theorem entryOfJson?_seen (s : Selection) :
    entryOfJson? (seen (entryJson s)) = if s.start < Text.wordCount then some s else none := by
  have hfields : Selections.fields? ["name", "start"] (seen (entryJson s)) =
      some [.string s.name, seenNat s.start] := rfl
  rw [entryOfJson?, hfields, seenNat]
  by_cases hfits : s.start < Text.wordCount
  · rw [if_pos hfits, if_pos hfits]
  · rw [if_neg hfits, if_neg hfits]

theorem mapM_seenFields : ∀ l : List (String × Selection),
    (seenFields (l.map fun e => (e.1, entryJson e.2))).mapM
        (fun e => (entryOfJson? e.2).map fun s => (e.1, s)) =
      if ∀ e ∈ l, e.2.start < Text.wordCount then some l else none
  | [] => by simp [seenFields]
  | e :: l => by
    have ih := mapM_seenFields l
    have hall : (∀ a ∈ e :: l, a.2.start < Text.wordCount) ↔
        e.2.start < Text.wordCount ∧ ∀ a ∈ l, a.2.start < Text.wordCount := List.forall_mem_cons
    rw [List.map_cons, seenFields, List.mapM_cons, ih, entryOfJson?_seen]
    by_cases he : e.2.start < Text.wordCount
    · by_cases hl : ∀ a ∈ l, a.2.start < Text.wordCount
      · rw [if_pos he, if_pos hl, if_pos (hall.mpr ⟨he, hl⟩)]
        rfl
      · rw [if_pos he, if_neg hl, if_neg fun h => hl (hall.mp h).2]
        rfl
    · rw [if_neg he, if_neg fun h => he (hall.mp h).1]
      rfl

/-- **The text of the selections gives them back** if all starts fit into 64 bits, and cannot be read
otherwise. -/
theorem parse?_print (m : Selections) :
    Selections.parse? m.print =
      if ∀ e ∈ m.entries, e.2.start < Text.wordCount then some m else none := by
  have hfields : Selections.fields? ["manifests"] (seen m.toJson) =
      some [.object (seenFields (m.entries.map fun e => (e.1, entryJson e.2)))] := rfl
  rw [Selections.parse?, Selections.print, JsonText.parse?_print (plain_toJson m), Option.bind_some,
    Selections.ofJson?, hfields]
  dsimp only
  rw [mapM_seenFields]
  split_ifs
  · rw [Option.map_some, ofList_entries]
  · rfl

/-- Every start fits into 64 bits. -/
def Fits (m : Selections) : Prop := ∀ e ∈ m.entries, e.2.start < Text.wordCount

theorem fits_empty : Fits .empty := fun _ he => absurd he List.not_mem_nil

theorem fits_insert {m : Selections} (h : Fits m) (key : String) {s : Selection}
    (hs : s.start < Text.wordCount) : Fits (m.insert key s) := by
  intro e he
  rcases mem_insertEntry he with rfl | he
  · exact hs
  · exact h e he

theorem fits_erase {m : Selections} (h : Fits m) (key : String) : Fits (m.erase key) :=
  fun e he => h e (List.mem_filter.mp he).1

/-- Different selections have different texts. -/
theorem print_inj {m m' : Selections} (h : Fits m) (h' : Fits m') (htext : m.print = m'.print) :
    m = m' := by
  have hread := (parse?_print m).trans (if_pos h)
  have hread' := (parse?_print m').trans (if_pos h')
  rw [htext, hread'] at hread
  exact (Option.some.inj hread).symm

end Manifest.Proofs.SelectionMap
