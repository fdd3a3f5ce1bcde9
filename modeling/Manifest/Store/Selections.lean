import Manifest.Entry
import Manifest.Json.Parse
import Manifest.Json.Print

/-! # Remembered selections

A selection for each of some keys, in the order of the keys, and its form as JSON. As there is one
such list for each map from keys to selections, what is printed depends on nothing but the map. -/

namespace Manifest

/-- A selection for each of some keys. -/
@[ext] structure Selections where
  entries : List (String × Selection)
  ordered : entries.Pairwise fun a b => a.1 < b.1
deriving DecidableEq

namespace Selections

/-- No selection for any key. -/
def empty : Selections := ⟨[], .nil⟩

/-- The first selection listed for a key. -/
def lookup (key : String) : List (String × Selection) → Option Selection
  | [] => none
  | (k, s) :: rest => if k = key then some s else lookup key rest

/-- The entries with one put in its place. -/
def insertEntry (key : String) (s : Selection) :
    List (String × Selection) → List (String × Selection)
  | [] => [(key, s)]
  | (k, t) :: rest =>
    if key < k then (key, s) :: (k, t) :: rest
    else if key = k then (key, s) :: rest
    else (k, t) :: insertEntry key s rest

theorem mem_insertEntry {key : String} {s : Selection} {l : List (String × Selection)}
    {e : String × Selection} (h : e ∈ insertEntry key s l) : e = (key, s) ∨ e ∈ l := by
  induction l with
  | nil => simpa [insertEntry] using h
  | cons a rest ih =>
    obtain ⟨k, t⟩ := a
    unfold insertEntry at h
    split at h
    · simpa using h
    · split at h
      · rcases List.mem_cons.1 h with h | h <;> simp [h]
      · rcases List.mem_cons.1 h with h | h
        · simp [h]
        · rcases ih h with h | h <;> simp [h]

theorem pairwise_insertEntry {key : String} {s : Selection} {l : List (String × Selection)}
    (h : l.Pairwise fun a b => a.1 < b.1) : (insertEntry key s l).Pairwise fun a b => a.1 < b.1 := by
  induction l with
  | nil => simp [insertEntry]
  | cons a rest ih =>
    obtain ⟨k, t⟩ := a
    obtain ⟨h1, h2⟩ := List.pairwise_cons.1 h
    unfold insertEntry
    split <;> rename_i hlt
    · refine List.pairwise_cons.2 ⟨fun e he => ?_, h⟩
      rcases List.mem_cons.1 he with rfl | he
      · exact hlt
      · exact String.lt_trans hlt (h1 e he)
    · split <;> rename_i heq
      · subst heq; exact List.pairwise_cons.2 ⟨h1, h2⟩
      · refine List.pairwise_cons.2 ⟨fun e he => ?_, ih h2⟩
        rcases mem_insertEntry he with rfl | he
        · exact Std.lt_of_le_of_ne (String.not_lt.1 hlt) (Ne.symm heq)
        · exact h1 e he

/-- The selection for a key. -/
def get? (m : Selections) (key : String) : Option Selection := lookup key m.entries

/-- The selections with one given to a key. -/
def insert (m : Selections) (key : String) (s : Selection) : Selections :=
  ⟨insertEntry key s m.entries, pairwise_insertEntry m.ordered⟩

/-- The selections without the one for a key. -/
def erase (m : Selections) (key : String) : Selections :=
  ⟨m.entries.filter (·.1 ≠ key), m.ordered.sublist List.filter_sublist⟩

/-- The selections that a list gives; of several for one key the last counts. -/
def ofList (entries : List (String × Selection)) : Selections :=
  entries.foldl (fun m e => m.insert e.1 e.2) empty

/-! ### As JSON -/

/-- A selection as a value. -/
def entryJson (s : Selection) : Json :=
  .object [("name", .string s.name), ("start", .nat s.start)]

/-- The selections as a value. -/
def toJson (m : Selections) : Json :=
  .object [("manifests", .object (m.entries.map fun e => (e.1, entryJson e.2)))]

/-- The value of a field that stands exactly once among the fields of an object. -/
def field? (key : String) (fields : List (String × Json)) : Option Json :=
  match fields.filter (·.1 = key) with
  | [(_, v)] => some v
  | _ => none

/-- The values of the named fields of a value, in the order of the names. They can also be given as
an array of just that many items. -/
def fields? (keys : List String) : Json → Option (List Json)
  | .object fields => keys.mapM (field? · fields)
  | .array items => if items.length = keys.length then some items else none
  | _ => none

/-- The selection that a value stands for. -/
def entryOfJson? (j : Json) : Option Selection :=
  match fields? ["name", "start"] j with
  | some [.string name, .nat start] => some ⟨name, start⟩
  | _ => none

/-- The selections that a value stands for. -/
def ofJson? (j : Json) : Option Selections :=
  match fields? ["manifests"] j with
  | some [.object entries] =>
    (entries.mapM fun e => (entryOfJson? e.2).map fun s => (e.1, s)).map ofList
  | _ => none

/-- The text of the selections. -/
def print (m : Selections) : String := m.toJson.print

/-- The selections that a text stands for. -/
def parse? (text : String) : Option Selections := (Json.parse? text).bind ofJson?

end Selections

end Manifest
