import Manifest.Locator

/-! # Locating is finding and then selecting

The entries of a document depend on its text alone; the pin and the previous selection only choose
among them. `found` is the part of locating that finds, and `locateIn_eq`, `locate?_eq` and
`locate_eq` say that the rest of it is `select?`. -/

namespace Manifest.Proofs.Locating

open Manifest.Locator

/-- The entries of a document with the given trees, or why it has none. -/
def found (d : Document) (stream : List Yaml.Node) : Except Yaml.Error (List Entry) :=
  (Yaml.singleRoot stream).map (entriesOf d)

/-- The entries of a document; one that cannot be read has none. -/
def entriesIn (d : Document) : List Entry :=
  match (Yaml.parse d.text).bind (found d) with
  | .ok es => es
  | .error _ => []

/-- The entries, of which a locator selects one. -/
def chosen (l : Locator) (previous? : Option Selection) (es : List Entry) : Located :=
  .ofEntries es (l.select? previous? es)

@[simp] theorem entries_chosen (l : Locator) (previous? : Option Selection) (es : List Entry) :
    (chosen l previous? es).entries = es := rfl

theorem locateIn_eq (l : Locator) (d : Document) (stream : List Yaml.Node)
    (previous? : Option Selection) :
    l.locateIn d stream previous? = (found d stream).map (chosen l previous?) := by
  unfold locateIn found
  cases Yaml.singleRoot stream <;> rfl

theorem locate?_eq (l : Locator) (d : Document) (previous? : Option Selection) :
    l.locate? d previous? = ((Yaml.parse d.text).bind (found d)).map (chosen l previous?) := by
  unfold locate?
  cases Yaml.parse d.text with
  | error e => rfl
  | ok stream => exact locateIn_eq l d stream previous?

theorem locate_eq (l : Locator) (d : Document) (previous? : Option Selection) :
    l.locate d previous? = chosen l previous? (entriesIn d) := by
  unfold locate entriesIn
  rw [locate?_eq]
  cases (Yaml.parse d.text).bind (found d) <;> rfl

end Manifest.Proofs.Locating
