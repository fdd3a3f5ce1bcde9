import Manifest.Proofs.Selection
import Manifest.Proofs.Trimming

/-! # What locating always yields

Nothing is asked of the marks of the nodes: they may be out of order, lie behind the end of the text
or come from another text. The end of a node is trimmed to the text (`trimEnd_le_size`) and its start
is clamped to it, so the span of every entry lies in the text (`nodeSpan_stop_le_size`). The entries
are items of the list of applications, or the root alone (`entriesOf_levels`). Nothing is selected
only where there is nothing to select (`select?_eq_none_iff`), and a pin selects the first entry of
its name (`isFirstNamed_of_select?`). Main statement: `locateIn_invariant`. -/

namespace Manifest.Proofs.LocatedInvariant

open Manifest.Locator Manifest.Proofs.Locating Manifest.Proofs.Selection
open Manifest.Proofs.Trimming

/-! ### Entries -/

/-- The span of an entry is that of a node, from its marks. -/
theorem exists_node_of_mem_entriesOf {d : Document} {root : Yaml.Node} {e : Entry}
    (he : e ∈ entriesOf d root) :
    ∃ node : Yaml.Node, e.span = d.nodeSpan node.start node.stop := by
  unfold entriesOf at he
  split at he
  · obtain ⟨item, -, hitem⟩ := List.mem_filterMap.mp he
    obtain ⟨name, -, rfl⟩ := Option.map_eq_some_iff.mp hitem
    exact ⟨item, rfl⟩
  · obtain ⟨name, -, rfl⟩ := Option.map_eq_some_iff.mp (Option.mem_toList.mp he)
    exact ⟨root, rfl⟩

/-- The entries are items, or the root is the only one. -/
theorem entriesOf_levels (d : Document) (root : Yaml.Node) :
    (∀ e ∈ entriesOf d root, e.rootLevel = false) ∨
      ∃ e, entriesOf d root = [e] ∧ e.rootLevel = true := by
  unfold entriesOf
  split
  · left
    intro e he
    obtain ⟨item, -, hitem⟩ := List.mem_filterMap.mp he
    obtain ⟨name, -, rfl⟩ := Option.map_eq_some_iff.mp hitem
    rfl
  · unfold entryOfRoot?
    cases nameOf? root with
    | none => exact .inl (by simp)
    | some name => exact .inr ⟨_, rfl, rfl⟩

/-! ### The selected entry -/

/-- Entry `i` is the first one of a name. -/
structure IsFirstNamed (name : String) (es : List Entry) (i : Nat) : Prop where
  named : ∃ e, es[i]? = some e ∧ e.name = name
  before : ∀ j < i, ∀ f, es[j]? = some f → f.name ≠ name

theorem isFirstNamed_of_findIdx? {name : String} {es : List Entry} {i : Nat}
    (h : es.findIdx? (·.name == name) = some i) : IsFirstNamed name es i := by
  obtain ⟨e, he, hname, hbefore⟩ := first_of_findIdx? h
  exact ⟨⟨e, he, by simpa using hname⟩, fun j hj f hf => by simpa using hbefore j hj f hf⟩

theorem select?_of_pinned {l : Locator} {name : String} (hpin : l.pinned? = some name)
    (previous? : Option Selection) {es : List Entry} (hes : es ≠ []) :
    l.select? previous? es = es.findIdx? (·.name == name) := by
  unfold select?
  rw [hpin, if_neg (by simpa using hes)]

/-- **Nothing is selected only where there is nothing to select**: no entries at all, or none of the
pinned name. -/
theorem select?_eq_none_iff {l : Locator} {previous? : Option Selection} {es : List Entry} :
    l.select? previous? es = none ↔
      es = [] ∨ ∃ name, l.pinned? = some name ∧ ∀ e ∈ es, e.name ≠ name := by
  rcases eq_or_ne es [] with rfl | hes
  · exact iff_of_true rfl (.inl rfl)
  · cases hpin : l.pinned? with
    | none => simp [select?_of_unpinned hpin previous? hes, hes]
    | some name => simp [select?_of_pinned hpin previous? hes, hes]

theorem isFirstNamed_of_select? {l : Locator} {name : String} (hpin : l.pinned? = some name)
    {previous? : Option Selection} {es : List Entry} (hmem : ∃ e ∈ es, e.name = name) :
    ∃ i, l.select? previous? es = some i ∧ IsFirstNamed name es i := by
  obtain ⟨e, he, hname⟩ := hmem
  cases hi : l.select? previous? es with
  | none =>
    rcases select?_eq_none_iff.mp hi with rfl | ⟨pin, hpin', hnot⟩
    · cases he
    · obtain rfl : name = pin := Option.some.inj (hpin.symm.trans hpin')
      exact absurd hname (hnot e he)
  | some i =>
    rw [select?_of_pinned hpin previous? (List.ne_nil_of_mem he)] at hi
    exact ⟨i, rfl, isFirstNamed_of_findIdx? hi⟩

/-! ### Locating -/

/-- **What locating always yields.** Whatever the marks of the nodes are, every entry has a span in
the text. The entries are items, or the root is the only one. The selected index is that of an
entry; there is none exactly if there are no entries or none has the pinned name. A pinned name that
is there selects the first entry of that name, whatever was selected before. -/
theorem locateIn_invariant {l : Locator} {d : Document} {stream : List Yaml.Node}
    {previous? : Option Selection} {located : Located}
    (h : l.locateIn d stream previous? = .ok located) :
    (∀ e ∈ located.entries, e.span.start ≤ e.span.stop ∧ e.span.stop ≤ d.size) ∧
    ((∀ e ∈ located.entries, e.rootLevel = false) ∨
      ∃ e, located.entries = [e] ∧ e.rootLevel = true) ∧
    (∀ i, located.selected? = some i → i < located.entries.length) ∧
    (located.selected? = none ↔
      located.entries = [] ∨ ∃ name, l.pinned? = some name ∧ ∀ e ∈ located.entries, e.name ≠ name) ∧
    ∀ name, l.pinned? = some name → (∃ e ∈ located.entries, e.name = name) →
      ∃ i, located.selected? = some i ∧ IsFirstNamed name located.entries i := by
  rw [locateIn_eq, found] at h
  cases hroot : Yaml.singleRoot stream with
  | error e => rw [hroot] at h; cases h
  | ok root =>
    rw [hroot] at h
    obtain rfl := Except.ok.inj h
    rw [selected?_chosen, entries_chosen]
    refine ⟨fun e he => ⟨e.span.ordered, ?_⟩, entriesOf_levels d root, fun i => lt_of_select?,
      select?_eq_none_iff, fun name hpin => isFirstNamed_of_select? hpin⟩
    obtain ⟨node, hspan⟩ := exists_node_of_mem_entriesOf he
    rw [hspan]
    exact nodeSpan_stop_le_size d node.start node.stop

/-- A list of three applications with marks of every kind: in reverse, behind the end of the text,
and on the blanks at its end. -/
def strayNodes : List Yaml.Node :=
  let item (name : String) (start stop : Nat) : Yaml.Node :=
    .mapping [(.scalar nameKey start stop, .scalar name start stop)] start stop
  [.mapping [(.scalar applicationsKey 90 0,
    .sequence [item "db" 9 2, item "web" 4 70, item "web" 80 60, item "web" 1 6] 50 3)] 9 1]

/-- The entries of `strayNodes` in a text of eight characters that ends with three blanks. The pin
selects the first of three. -/
theorem locateIn_strayNodes :
    (⟨some "web"⟩ : Locator).locateIn (.ofText "abcde   ") strayNodes (some ⟨"db", 8⟩) =
        .ok (.ofEntries [⟨"db", false, ⟨8, 8, by decide⟩⟩, ⟨"web", false, ⟨4, 8, by decide⟩⟩,
          ⟨"web", false, ⟨8, 8, by decide⟩⟩, ⟨"web", false, ⟨1, 5, by decide⟩⟩] (some 1)) ∧
      IsFirstNamed "web" [⟨"db", false, ⟨8, 8, by decide⟩⟩, ⟨"web", false, ⟨4, 8, by decide⟩⟩,
        ⟨"web", false, ⟨8, 8, by decide⟩⟩, ⟨"web", false, ⟨1, 5, by decide⟩⟩] 1 := by
  have h : (⟨some "web"⟩ : Locator).locateIn (.ofText "abcde   ") strayNodes (some ⟨"db", 8⟩) =
      .ok (.ofEntries [⟨"db", false, ⟨8, 8, by decide⟩⟩, ⟨"web", false, ⟨4, 8, by decide⟩⟩,
        ⟨"web", false, ⟨8, 8, by decide⟩⟩, ⟨"web", false, ⟨1, 5, by decide⟩⟩] (some 1)) := by
    decide +kernel
  obtain ⟨-, -, -, -, hpinned⟩ := locateIn_invariant h
  obtain ⟨i, hi, hfirst⟩ := hpinned "web" rfl ⟨⟨"web", false, ⟨4, 8, by decide⟩⟩, by decide, rfl⟩
  obtain rfl : 1 = i := Option.some.inj hi
  exact ⟨h, hfirst⟩

end Manifest.Proofs.LocatedInvariant
