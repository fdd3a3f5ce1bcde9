import Manifest.Proofs.Sessions
import Mathlib.Data.List.Basic

/-! # What is told of a pass

A pass is told in items: one for each entry that is gone, one for each that is new, and one for the
selected entry if it is another. The text of the changes is the text of these items in a row
(`describe_between`), and an item never is an empty text. So nothing is printed exactly if nothing is
to be told, which is the case exactly if the entries and the selected one are the same as before
(`silent_iff_same`). -/

namespace Manifest.Proofs.Telling

open Manifest.Proofs.Sessions

/-! ### Items -/

/-- What can be told of a pass. -/
inductive Item
  | gone (e : Entry)
  | come (e : Entry)
  /-- The selected entry is another one, or there is none any more. -/
  | selects (chosen? : Option Entry)

/-- The line of an item. -/
def Item.text : Item → String
  | gone e => "- " ++ e.name ++ " @" ++ toString e.span.start ++ "\n"
  | come e => "+ " ++ e.name ++ " @" ++ toString e.span.start ++ "\n"
  | selects (some e) => "* " ++ e.name ++ " @" ++ toString e.span.start ++ "\n"
  | selects none => "* (none)\n"

theorem Item.text_ne_empty (i : Item) : i.text ≠ "" := by
  cases i with
  | gone e => simp [Item.text]
  | come e => simp [Item.text]
  | selects chosen? => cases chosen? <;> simp [Item.text]

theorem join_text_eq_empty_iff {items : List Item} :
    String.join (items.map Item.text) = "" ↔ items = [] := by
  cases items with
  | nil => simp
  | cons i rest => simp [String.join_cons, i.text_ne_empty]

/-- What is told of the selection. -/
def selectionItems (old new : Located) : List Item :=
  if old.chosen? = new.chosen? then [] else [.selects new.chosen?]

/-- What is told between what was located before and what is located now. -/
def items (old new : Located) : List Item :=
  (old.entries.filter (· ∉ new.entries)).map .gone ++
    (new.entries.filter (· ∉ old.entries)).map .come ++ selectionItems old new

/-! ### The text of the changes -/

theorem text_gone (es : List Entry) : String.join (es.map fun e =>
    Changes.line "-" e.name e.span.start) = String.join ((es.map Item.gone).map Item.text) := by
  rw [List.map_map]
  rfl

theorem text_come (es : List Entry) : String.join (es.map fun e =>
    Changes.line "+" e.name e.span.start) = String.join ((es.map Item.come).map Item.text) := by
  rw [List.map_map]
  rfl

theorem selectionLine_between (old new : Located) :
    Changes.selectionLine (Changes.selectionBetween old new) =
      String.join ((selectionItems old new).map Item.text) := by
  rw [Changes.selectionBetween, selectionItems]
  split_ifs with hsame
  · rfl
  · rw [Located.selection?]
    cases new.chosen? with
    | none => simp [Changes.selectionLine, Item.text]
    | some e => simp [Changes.selectionLine, Changes.line, Item.text, Entry.selection]

/-- The text of the changes is the text of their items. -/
theorem describe_between (old new : Located) :
    (Changes.between old new).describe = String.join ((items old new).map Item.text) := by
  rw [Changes.describe, items, List.map_append, List.map_append, String.join_append,
    String.join_append, ← text_gone, ← text_come, ← selectionLine_between]
  rfl

/-! ### Nothing to tell -/

/-- The same entries have been located, no matter how often and in which order, and the same entry is
selected, or none. -/
structure Same (old new : Located) : Prop where
  entries : ∀ e, e ∈ old.entries ↔ e ∈ new.entries
  chosen? : old.chosen? = new.chosen?

theorem filter_notMem_eq_nil_iff {es fs : List Entry} :
    es.filter (· ∉ fs) = [] ↔ ∀ e ∈ es, e ∈ fs := by
  simp [List.filter_eq_nil_iff]

theorem selectionBetween_eq_unchanged_iff {old new : Located} :
    Changes.selectionBetween old new = .unchanged ↔ old.chosen? = new.chosen? := by
  rw [Changes.selectionBetween]
  split_ifs with hsame
  · simp [hsame]
  · cases new.selection? <;> simp [hsame]

theorem same_iff {old new : Located} : Same old new ↔
    (∀ e ∈ old.entries, e ∈ new.entries) ∧ (∀ e ∈ new.entries, e ∈ old.entries) ∧
      old.chosen? = new.chosen? :=
  ⟨fun h => ⟨fun e => (h.entries e).mp, fun e => (h.entries e).mpr, h.chosen?⟩,
    fun ⟨hold, hnew, hchosen⟩ => ⟨fun e => ⟨hold e, hnew e⟩, hchosen⟩⟩

theorem items_eq_nil_iff {old new : Located} : items old new = [] ↔ Same old new := by
  have hselection : selectionItems old new = [] ↔ old.chosen? = new.chosen? := by
    rw [selectionItems]
    split_ifs with hsame <;> simp [hsame]
  rw [items, List.append_eq_nil_iff, List.append_eq_nil_iff, List.map_eq_nil_iff,
    List.map_eq_nil_iff, filter_notMem_eq_nil_iff, filter_notMem_eq_nil_iff, hselection, same_iff,
    and_assoc]

theorem isEmpty_between_iff {old new : Located} :
    (Changes.between old new).isEmpty = true ↔ Same old new := by
  rw [Changes.isEmpty, Bool.and_eq_true, Bool.and_eq_true, List.isEmpty_iff, List.isEmpty_iff,
    beq_iff_eq, same_iff, and_assoc]
  exact and_congr filter_notMem_eq_nil_iff
    (and_congr filter_notMem_eq_nil_iff selectionBetween_eq_unchanged_iff)

/-- **Silence means that nothing has changed.** Whatever steps a session has taken, the text that is
printed for the next pass is empty exactly if the changes are, and exactly if the pass has located
the same entries as the one before, with the same one selected. In any case the text is one line for
each entry that was located before and is not any more, in the order of the old document, then one
for each that was not and is now, in the order of the new one, then one for the selected entry if
and only if it is another one than before. -/
theorem silent_iff_same (l : Locator) (steps : List Step) (d : Document) (dirty? : Option Span) :
    let old := (run (.start l) steps).current
    let pass := ((run (.start l) steps).reconcile d dirty?).1
    (pass.changes.describe = "" ↔ pass.changes.isEmpty = true) ∧
      (pass.changes.describe = "" ↔ Same old pass.located) ∧
      ∃ removed added : List Entry,
        removed.Sublist old.entries ∧ added.Sublist pass.located.entries ∧
        (∀ e, removed.count e = if e ∈ pass.located.entries then 0 else old.entries.count e) ∧
        (∀ e, added.count e = if e ∈ old.entries then 0 else pass.located.entries.count e) ∧
        pass.changes.describe = String.join ((removed.map Item.gone ++ added.map Item.come ++
          if old.chosen? = pass.located.chosen? then [] else
            [Item.selects pass.located.chosen?]).map Item.text) := by
  intro old pass
  have hdescribe : pass.changes.describe = String.join ((items old pass.located).map Item.text) :=
    describe_between old pass.located
  have hempty : pass.changes.isEmpty = true ↔ Same old pass.located := isEmpty_between_iff
  have hsilent : pass.changes.describe = "" ↔ Same old pass.located := by
    rw [hdescribe, join_text_eq_empty_iff, items_eq_nil_iff]
  have hcount : ∀ (es fs : List Entry) (e : Entry),
      (es.filter (· ∉ fs)).count e = if e ∈ fs then 0 else es.count e := by
    intro es fs e
    split_ifs with hmem
    · exact List.count_eq_zero.mpr fun h => by simpa [hmem] using (List.mem_filter.mp h).2
    · exact List.count_filter (by simpa using hmem)
  exact ⟨hsilent.trans hempty.symm, hsilent, _, _, List.filter_sublist, List.filter_sublist,
    hcount _ _, hcount _ _, hdescribe⟩

end Manifest.Proofs.Telling
