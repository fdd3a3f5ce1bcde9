import Manifest.Proofs.Selection
import Manifest.Session

/-! # The selection across passes

Two laws of what a session selects.

* Standing still: a document located again with the selection that its first pass has left gives the
  same entries and the same selected one, so that a second pass over it changes nothing
  (`relocate_eq_self`).
* Moving on: on another document the selection stays with its name. Among the entries of that name
  the one that starts nearest to the old start is selected, so an entry that has moved a little
  keeps the selection if all others of its name are further away from it than twice as much
  (`reconcile_selects`). -/

namespace Manifest.Proofs.Continuity

open Manifest.Locator Manifest.Proofs.Locating Manifest.Proofs.Selection

/-! ### Locating twice -/

theorem map_chosen_selection? {l : Locator} {previous? : Option Selection} {located : Located}
    {found : Except Yaml.Error (List Entry)} (h : found.map (chosen l previous?) = .ok located) :
    found.map (chosen l located.selection?) = .ok located := by
  cases found with
  | error e => cases h
  | ok es =>
    obtain rfl := Except.ok.inj h
    exact congrArg Except.ok (chosen_selection? l previous? es)

theorem locate_selection? (l : Locator) (d : Document) (previous? : Option Selection) :
    l.locate d (l.locate d previous?).selection? = l.locate d previous? := by
  rw [locate_eq, locate_eq, chosen_selection?]

theorem between_self (l : Located) : Changes.between l l = ⟨[], [], .unchanged⟩ := by
  unfold Changes.between Changes.selectionBetween
  rw [if_pos rfl, List.filter_eq_nil_iff.mpr (fun e he => by simpa using he)]

/-- A pass selects among the entries of the document by what the session has selected before. -/
theorem reconcile_eq (s : Session) (d : Document) (dirty? : Option Span) :
    s.reconcile d dirty? =
      (⟨chosen s.locator s.selection? (entriesIn d),
        .between s.current (chosen s.locator s.selection? (entriesIn d))⟩,
        ⟨s.locator, chosen s.locator s.selection? (entriesIn d)⟩) := by
  rw [← locate_eq]
  rfl

theorem reconcile_reconcile (s : Session) (d : Document) (dirty? dirty'? : Option Span) :
    (s.reconcile d dirty?).2.reconcile d dirty'? =
      (⟨(s.reconcile d dirty?).2.current, ⟨[], [], .unchanged⟩⟩, (s.reconcile d dirty?).2) := by
  simp only [reconcile_eq, Session.selection?, chosen_selection?, between_self]

/-- **Selecting is a fixed point of locating.** A document located again with the selection that
locating it has left, whatever the selection before was, gives the same entries and the same
selected one. So, whatever a session has seen so far, a second pass over the same document changes
nothing and leaves the session as it is. -/
theorem relocate_eq_self (l : Locator) (d : Document) (previous? : Option Selection) :
    (∀ stream located, l.locateIn d stream previous? = .ok located →
      l.locateIn d stream located.selection? = .ok located) ∧
    (∀ located, l.locate? d previous? = .ok located →
      l.locate? d located.selection? = .ok located) ∧
    l.locate d (l.locate d previous?).selection? = l.locate d previous? ∧
    ∀ (s : Session) (dirty? dirty'? : Option Span),
      (s.reconcile d dirty?).2.reconcile d dirty'? =
        (⟨(s.reconcile d dirty?).2.current, ⟨[], [], .unchanged⟩⟩, (s.reconcile d dirty?).2) := by
  refine ⟨fun stream located h => ?_, fun located h => ?_, locate_selection? l d previous?,
    fun s => reconcile_reconcile s d⟩
  · rw [locateIn_eq] at h ⊢
    exact map_chosen_selection? h
  · rw [locate?_eq] at h ⊢
    exact map_chosen_selection? h

/-- A list of three applications of which the second is a copy of the first, place and all, as an
alias makes it. -/
def copiedNodes : List Yaml.Node :=
  let item (name : String) (start : Nat) : Yaml.Node :=
    .mapping [(.scalar nameKey start (start + 4), .scalar name (start + 6) (start + 8))]
      start (start + 9)
  [.mapping [(.scalar applicationsKey 0 12, .sequence [item "db" 16, item "db" 16, item "db" 31]
    14 40)] 0 40]

/-- The entries of `copiedNodes` in a text of forty characters, the first one selected. -/
def copiedLocated : Located :=
  .ofEntries [⟨"db", false, ⟨16, 25, by decide⟩⟩, ⟨"db", false, ⟨16, 25, by decide⟩⟩,
    ⟨"db", false, ⟨31, 40, by decide⟩⟩] (some 0)

/-- The selection comes from the rule of the start, and again from the rule of the name. -/
theorem relocate_copied :
    (⟨none⟩ : Locator).locateIn ⟨List.replicate 40 'x'⟩ copiedNodes (some ⟨"web", 16⟩) =
        .ok copiedLocated ∧
      (⟨none⟩ : Locator).locateIn ⟨List.replicate 40 'x'⟩ copiedNodes copiedLocated.selection? =
        .ok copiedLocated :=
  have h : (⟨none⟩ : Locator).locateIn ⟨List.replicate 40 'x'⟩ copiedNodes (some ⟨"web", 16⟩) =
      .ok copiedLocated := rfl
  ⟨h, (relocate_eq_self ⟨none⟩ ⟨List.replicate 40 'x'⟩ (some ⟨"web", 16⟩)).1 _ _ h⟩

/-! ### Locating after an edit -/

/-- Entry `i` is the first one that starts at an offset. -/
structure IsFirstAt (offset : Nat) (es : List Entry) (i : Nat) : Prop where
  starts : ∃ e, es[i]? = some e ∧ e.span.start = offset
  before : ∀ j < i, ∀ f, es[j]? = some f → f.span.start ≠ offset

theorem isFirstAt_of_findIdx? {offset : Nat} {es : List Entry} {i : Nat}
    (h : es.findIdx? (·.span.start == offset) = some i) : IsFirstAt offset es i := by
  obtain ⟨e, he, hstart, hbefore⟩ := first_of_findIdx? h
  exact ⟨⟨e, he, by simpa using hstart⟩, fun j hj f hf => by simpa using hbefore j hj f hf⟩

theorem reselect?_of_named {name : String} (start : Nat) {es : List Entry}
    (h : ∃ e ∈ es, e.name = name) :
    ∃ i, reselect? ⟨name, start⟩ es = some i ∧ IsNearest name start es i := by
  obtain ⟨e, he, hname⟩ := h
  cases hn : nearest? name start es with
  | none => exact absurd hname (nearest?_eq_none_iff.mp hn e he)
  | some i =>
    refine ⟨i, ?_, isNearest_of_nearest? hn⟩
    unfold reselect?
    rw [show nearest? (Selection.mk name start).name (Selection.mk name start).start es = some i
      from hn]
    rfl

theorem reselect?_of_not_named {name : String} {start : Nat} {es : List Entry}
    (h : ∀ e ∈ es, e.name ≠ name) :
    reselect? ⟨name, start⟩ es = es.findIdx? (·.span.start == start) := by
  unfold reselect?
  rw [show nearest? (Selection.mk name start).name (Selection.mk name start).start es = none
    from nearest?_eq_none_iff.mpr h]
  rfl

/-- **The selection follows its name.** A session without a pin whose selected entry is called
`name` and starts at `start` goes on to a document that has entries. If some are called `name`, the
one that starts nearest to `start` is selected, the first of equally near ones. Otherwise it is the
first one that starts at `start`, and if there is none the first of all. So an entry of the name that
has moved by some distance is selected if all others of the name are further than twice that
distance away from it, whatever else has changed. -/
theorem reconcile_selects {s : Session} (hpin : s.locator.pinned? = none) {name : String}
    {start : Nat} (hsel : s.selection? = some ⟨name, start⟩) {d : Document} {dirty? : Option Span}
    {es : List Entry} (hes : (s.reconcile d dirty?).1.located.entries = es) (hne : es ≠ []) :
    ∃ i, (s.reconcile d dirty?).1.located.selected? = some i ∧
      ((∃ e ∈ es, e.name = name) → IsNearest name start es i) ∧
      ((∀ e ∈ es, e.name ≠ name) → (∃ e ∈ es, e.span.start = start) → IsFirstAt start es i) ∧
      ((∀ e ∈ es, e.name ≠ name ∧ e.span.start ≠ start) → i = 0) ∧
      ∀ m e, es[m]? = some e → e.name = name →
        (∀ j f, j ≠ m → es[j]? = some f → f.name = name →
          2 * gap e start < gap f e.span.start) → i = m := by
  have hpass : (s.reconcile d dirty?).1.located = chosen s.locator (some ⟨name, start⟩) es := by
    rw [← hes, ← hsel, reconcile_eq, entries_chosen]
  rw [hpass, selected?_chosen, select?_of_unpinned hpin _ hne, Option.bind_some]
  refine ⟨_, rfl, ?_⟩
  by_cases hnamed : ∃ e ∈ es, e.name = name
  · obtain ⟨i, hi, hnear⟩ := reselect?_of_named start hnamed
    rw [hi, Option.getD_some]
    obtain ⟨e, he, hname⟩ := hnamed
    refine ⟨fun _ => hnear, fun h => absurd hname (h e he), fun h => absurd hname (h e he).1, ?_⟩
    exact fun m e he hname hfar => hnear.eq_of_moved he hname hfar
  · have hnot : ∀ e ∈ es, e.name ≠ name := fun e he hname => hnamed ⟨e, he, hname⟩
    rw [reselect?_of_not_named hnot]
    refine ⟨fun h => absurd h hnamed, fun _ hstart => ?_, fun h => ?_, fun m e he hname => ?_⟩
    · cases hi : es.findIdx? (·.span.start == start) with
      | some i => exact isFirstAt_of_findIdx? hi
      | none =>
        obtain ⟨e, he, hs⟩ := hstart
        have := List.findIdx?_eq_none_iff.mp hi e he
        simp [hs] at this
    · have hi : es.findIdx? (·.span.start == start) = none :=
        List.findIdx?_eq_none_iff.mpr fun e he => by simpa using (h e he).2
      rw [hi]
      rfl
    · exact absurd hname (hnot e (List.mem_of_getElem? he))

/-- A session that has selected the application `db` at offset 31. -/
def secondSelected : Session :=
  ⟨⟨none⟩, .ofEntries [⟨"web", false, ⟨16, 29, by decide⟩⟩, ⟨"db", false, ⟨31, 42, by decide⟩⟩]
    (some 1)⟩

/-- The document that `secondSelected` goes on to has two applications of the selected name. -/
def doubledText : String := "applications:\n- name: db\n- name: x\n- name: db\n"

/-- Its applications. -/
def doubledEntries : List Entry :=
  [⟨"db", false, ⟨16, 25, by decide⟩⟩, ⟨"x", false, ⟨27, 35, by decide⟩⟩,
    ⟨"db", false, ⟨37, 46, by decide⟩⟩]

theorem reconcile_selects_doubled :
    secondSelected.selection? = some ⟨"db", 31⟩ ∧
      (secondSelected.reconcile (.ofText doubledText) none).1.located.entries = doubledEntries ∧
      ∃ i, (secondSelected.reconcile (.ofText doubledText) none).1.located.selected? = some i ∧
        IsNearest "db" 31 doubledEntries i := by
  have hes : (secondSelected.reconcile (.ofText doubledText) none).1.located.entries =
      doubledEntries := by decide +kernel
  obtain ⟨i, hi, hnear, -⟩ := reconcile_selects (s := secondSelected) rfl rfl hes (by decide)
  exact ⟨rfl, hes, i, hi, hnear ⟨⟨"db", false, ⟨16, 25, by decide⟩⟩, by decide, rfl⟩⟩

end Manifest.Proofs.Continuity
