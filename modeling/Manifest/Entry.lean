import Manifest.Span

/-! # Application entries

What locating a document yields: the named applications in document order, and which of them is
selected. A selection remembers the name and the start of an entry, so that it can be found again in
another version of the document. -/

namespace Manifest

/-- A named application and the part of the document that describes it. -/
structure Entry where
  name : String
  /-- The name stands at the root of the document and not in its list of applications. -/
  rootLevel : Bool
  span : Span
deriving DecidableEq, Repr

/-- The name and the start offset of a selected entry. -/
structure Selection where
  name : String
  start : Nat
deriving DecidableEq, Repr

/-- What is remembered of an entry that is selected. -/
def Entry.selection (e : Entry) : Selection := ⟨e.name, e.span.start⟩

/-- The entries of a document and the index of the selected one. -/
structure Located where
  entries : List Entry
  selected? : Option Nat
  selected_lt : ∀ i ∈ selected?, i < entries.length
deriving Repr

namespace Located

@[ext] theorem ext {l m : Located} (h : l.entries = m.entries) (h' : l.selected? = m.selected?) :
    l = m := by
  cases l; cases m; cases h; cases h'; rfl

instance : DecidableEq Located := fun l m =>
  decidable_of_iff (l.entries = m.entries ∧ l.selected? = m.selected?)
    ⟨fun h => Located.ext h.1 h.2, fun h => h ▸ ⟨rfl, rfl⟩⟩

/-- No entries, and so nothing selected. -/
def empty : Located := ⟨[], none, by simp⟩

/-- The entries with a selected index; an index that no entry has selects nothing. -/
def ofEntries (entries : List Entry) (selected? : Option Nat) : Located where
  entries
  selected? := selected?.filter (· < entries.length)
  selected_lt := by
    intro i h
    cases selected? with
    | none => simp at h
    | some j =>
      simp only [Option.mem_def, Option.filter_eq_some_iff, decide_eq_true_eq, Option.some.injEq] at h
      exact h.2

/-- The selected entry. -/
def chosen? (l : Located) : Option Entry := l.selected?.bind (l.entries[·]?)

/-- What is remembered of the selected entry. -/
def selection? (l : Located) : Option Selection := l.chosen?.map Entry.selection

/-- The names of the entries, in order. -/
def names (l : Located) : List String := l.entries.map Entry.name

/-- The entries, each with whether it is the selected one. -/
def flagged (l : Located) : List (Entry × Bool) :=
  l.entries.mapIdx fun i e => (e, some i == l.selected?)

end Located

end Manifest
