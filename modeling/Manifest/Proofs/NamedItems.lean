import Manifest.Proofs.Locating
import Manifest.Proofs.Trimming
import Mathlib.Data.List.Chain

/-! # Which items become entries

A lookup by key finds the value of the first entry with that key, and no other (`HoldsFirst`,
`get?_eq_some_iff`), so a node is named by its first `name` alone (`nameOf?_eq_some_iff`). Going
through the items, each named one gives the next entry and each of the others is passed over
(`Lists`, `lists_filterMap`). An entry stops no later than its item does and starts no earlier, so
entries of items in order are in order too (`Lists.pairwise`), also where both are clamped to the end
of the text. Main statement: `entries_are_named_items`. -/

namespace Manifest.Proofs.NamedItems

open Manifest.Locator Manifest.Proofs.Locating Manifest.Proofs.Trimming

/-! ### The value of a key -/

/-- The node is a mapping, and the first of its entries whose key is the scalar `key` has the value
`value`. -/
def HoldsFirst (node : Yaml.Node) (key : String) (value : Yaml.Node) : Prop :=
  ∃ (front back : List (Yaml.Node × Yaml.Node)) (k : Yaml.Node) (start stop : Nat),
    node = .mapping (front ++ (k, value) :: back) start stop ∧ k.scalar? = some key ∧
      ∀ e ∈ front, e.1.scalar? ≠ some key

/-- The first `name` of the node is the scalar `name`. -/
def IsNamed (node : Yaml.Node) (name : String) : Prop :=
  ∃ start stop, HoldsFirst node nameKey (.scalar name start stop)

/-- The first `key` of the node is a sequence of these items. -/
def HoldsItems (node : Yaml.Node) (key : String) (items : List Yaml.Node) : Prop :=
  ∃ start stop, HoldsFirst node key (.sequence items start stop)

theorem get?_eq_some_iff {node value : Yaml.Node} {key : String} :
    node.get? key = some value ↔ HoldsFirst node key value := by
  cases node with
  | scalar text start stop => simp [Yaml.Node.get?, Yaml.Node.mapping?, HoldsFirst]
  | sequence items start stop => simp [Yaml.Node.get?, Yaml.Node.mapping?, HoldsFirst]
  | mapping entries start stop =>
    have hget : (Yaml.Node.mapping entries start stop).get? key =
        (entries.find? fun e => e.1.scalar? == some key).map Prod.snd := rfl
    rw [hget, Option.map_eq_some_iff]
    constructor
    · rintro ⟨⟨k, value⟩, hfind, rfl⟩
      obtain ⟨hk, front, back, rfl, hfront⟩ := List.find?_eq_some_iff_append.mp hfind
      exact ⟨front, back, k, start, stop, rfl, by simpa using hk, fun e he => by
        simpa using hfront e he⟩
    · rintro ⟨front, back, k, start', stop', hnode, hk, hfront⟩
      obtain ⟨rfl, -, -⟩ := Yaml.Node.mapping.inj hnode
      refine ⟨(k, value), List.find?_eq_some_iff_append.mpr ⟨by simpa using hk, front, back, rfl,
        fun e he => by simpa using hfront e he⟩, rfl⟩

theorem scalar?_eq_some_iff {node : Yaml.Node} {text : String} :
    node.scalar? = some text ↔ ∃ start stop, node = .scalar text start stop := by
  cases node <;> simp [Yaml.Node.scalar?]

theorem sequence?_eq_some_iff {node : Yaml.Node} {items : List Yaml.Node} :
    node.sequence? = some items ↔ ∃ start stop, node = .sequence items start stop := by
  cases node <;> simp [Yaml.Node.sequence?]

theorem nameOf?_eq_some_iff {node : Yaml.Node} {name : String} :
    nameOf? node = some name ↔ IsNamed node name := by
  simp only [nameOf?, Option.bind_eq_some_iff, get?_eq_some_iff, scalar?_eq_some_iff]
  constructor
  · rintro ⟨value, hvalue, start, stop, rfl⟩
    exact ⟨start, stop, hvalue⟩
  · rintro ⟨start, stop, hvalue⟩
    exact ⟨_, hvalue, start, stop, rfl⟩

theorem nameOf?_eq_none_iff {node : Yaml.Node} :
    nameOf? node = none ↔ ∀ name, ¬ IsNamed node name := by
  simp only [← nameOf?_eq_some_iff]
  cases nameOf? node <;> simp

theorem itemsOf?_eq_some_iff {node : Yaml.Node} {key : String} {items : List Yaml.Node} :
    (node.get? key).bind Yaml.Node.sequence? = some items ↔ HoldsItems node key items := by
  simp only [Option.bind_eq_some_iff, get?_eq_some_iff, sequence?_eq_some_iff]
  constructor
  · rintro ⟨value, hvalue, start, stop, rfl⟩
    exact ⟨start, stop, hvalue⟩
  · rintro ⟨start, stop, hvalue⟩
    exact ⟨_, hvalue, start, stop, rfl⟩

/-! ### From items to entries -/

/-- The entry carries the name and the trimmed span of the item. -/
structure IsEntryOf (d : Document) (item : Yaml.Node) (e : Entry) : Prop where
  named : IsNamed item e.name
  rootLevel : e.rootLevel = false
  span : e.span = d.nodeSpan item.start item.stop

/-- The entries are those of the named items, one for each and in their order; all other items have
none. -/
inductive Lists (d : Document) : List Yaml.Node → List Entry → Prop
  | nil : Lists d [] []
  | named {item : Yaml.Node} {e : Entry} {items : List Yaml.Node} {es : List Entry} :
      IsEntryOf d item e → Lists d items es → Lists d (item :: items) (e :: es)
  | passed {item : Yaml.Node} {items : List Yaml.Node} {es : List Entry} :
      (∀ name, ¬ IsNamed item name) → Lists d items es → Lists d (item :: items) es

theorem lists_filterMap (d : Document) (items : List Yaml.Node) :
    Lists d items (items.filterMap (entryOfItem? d)) := by
  induction items with
  | nil => exact .nil
  | cons item items ih =>
    cases hname : nameOf? item with
    | none =>
      rw [List.filterMap_cons_none (by rw [entryOfItem?, hname]; rfl)]
      exact .passed (nameOf?_eq_none_iff.mp hname) ih
    | some name =>
      have hentry : entryOfItem? d item =
          some ⟨name, false, d.nodeSpan item.start item.stop⟩ := by
        rw [entryOfItem?, hname]
        rfl
      rw [List.filterMap_cons_some hentry]
      exact .named ⟨nameOf?_eq_some_iff.mp hname, rfl, rfl⟩ ih

theorem Lists.exists_item {d : Document} {items : List Yaml.Node} {es : List Entry}
    (h : Lists d items es) {e : Entry} (he : e ∈ es) : ∃ item ∈ items, IsEntryOf d item e := by
  induction h with
  | nil => cases he
  | @named item f items es hentry _ ih =>
    rcases List.mem_cons.mp he with rfl | he
    · exact ⟨item, List.mem_cons_self, hentry⟩
    · obtain ⟨later, hlater, hentry'⟩ := ih he
      exact ⟨later, List.mem_cons_of_mem _ hlater, hentry'⟩
  | passed _ _ ih =>
    obtain ⟨later, hlater, hentry⟩ := ih he
    exact ⟨later, List.mem_cons_of_mem _ hlater, hentry⟩

/-! ### Items in order -/

/-- Every item stops at or behind its start, and at or in front of the start of the next one. -/
structure InOrder (items : List Yaml.Node) : Prop where
  marks : ∀ item ∈ items, item.start ≤ item.stop
  chain : items.IsChain fun a b => a.stop ≤ b.start

theorem InOrder.tail {item : Yaml.Node} {items : List Yaml.Node} (h : InOrder (item :: items)) :
    InOrder items :=
  ⟨fun later hlater => h.marks later (List.mem_cons_of_mem _ hlater), h.chain.tail⟩

/-- An item stops in front of all that follow, not only of the next one. -/
theorem InOrder.stop_le_start : ∀ {items : List Yaml.Node} {item : Yaml.Node},
    InOrder (item :: items) → ∀ later ∈ items, item.stop ≤ later.start
  | [], _, _, _, hlater => by cases hlater
  | next :: items, item, h, later, hlater => by
    have hnext : item.stop ≤ next.start := (List.isChain_cons_cons.mp h.chain).1
    rcases List.mem_cons.mp hlater with rfl | hlater
    · exact hnext
    · have hmarks := h.marks next (by simp)
      have hrest := InOrder.stop_le_start h.tail later hlater
      omega

/-- The spans of nodes in order are in order, clamped or not. -/
theorem nodeSpan_stop_le_start {d : Document} {a b : Yaml.Node} (ha : a.start ≤ a.stop)
    (hab : a.stop ≤ b.start) :
    (d.nodeSpan a.start a.stop).stop ≤ (d.nodeSpan b.start b.stop).start := by
  have hstop := nodeSpan_stop_le (d := d) ha
  rw [start_nodeSpan]
  omega

theorem Lists.pairwise {d : Document} {items : List Yaml.Node} {es : List Entry}
    (h : Lists d items es) (horder : InOrder items) :
    es.Pairwise fun e f => e.span.stop ≤ f.span.start := by
  induction h with
  | nil => exact .nil
  | @named item e items es hentry hlists ih =>
    refine List.pairwise_cons.mpr ⟨fun f hf => ?_, ih horder.tail⟩
    obtain ⟨later, hlater, hentry'⟩ := hlists.exists_item hf
    rw [hentry.span, hentry'.span]
    exact nodeSpan_stop_le_start (horder.marks item List.mem_cons_self)
      (horder.stop_le_start later hlater)
  | passed _ _ ih => exact ih horder.tail

/-- Spans in order have no offset in common. -/
theorem not_contains_of_le {s t : Span} (h : s.stop ≤ t.start) {o : Nat}
    (ho : s.contains o = true) : t.contains o = false := by
  simp only [Span.contains, Bool.and_eq_true, decide_eq_true_eq, Bool.and_eq_false_iff,
    decide_eq_false_iff_not] at ho ⊢
  omega

/-! ### Entries of a document -/

/-- **The entries are exactly the named items.** Locating in a single tree succeeds. Where the first
`applications` of the root is a sequence, the entries are those of its named items, in order; and if
the items are in order, so are the spans of the entries, which then have no offset in common. Where
it is not, the root is the only entry if it is named itself, and else there is none. -/
theorem entries_are_named_items (l : Locator) (d : Document) (root : Yaml.Node)
    (previous? : Option Selection) :
    ∃ located, l.locateIn d [root] previous? = .ok located ∧
      (∀ items, HoldsItems root applicationsKey items →
        Lists d items located.entries ∧
        (InOrder items → located.entries.Pairwise fun e f => e.span.stop ≤ f.span.start ∧
          ∀ o, e.span.contains o = true → f.span.contains o = false)) ∧
      ((∀ items, ¬ HoldsItems root applicationsKey items) →
        (∀ name, IsNamed root name →
          located.entries = [⟨name, true, d.nodeSpan root.start root.stop⟩]) ∧
        ((∀ name, ¬ IsNamed root name) → located.entries = [])) := by
  refine ⟨chosen l previous? (entriesOf d root), locateIn_eq l d [root] previous?, fun items hitems =>
    ?_, fun hnot => ?_⟩
  · have hentries : entriesOf d root = items.filterMap (entryOfItem? d) := by
      rw [entriesOf, itemsOf?_eq_some_iff.mpr hitems]
    rw [entries_chosen, hentries]
    have hlists := lists_filterMap d items
    exact ⟨hlists, fun horder => (hlists.pairwise horder).imp fun hle =>
      ⟨hle, fun o => not_contains_of_le hle⟩⟩
  · have hnone : (root.get? applicationsKey).bind Yaml.Node.sequence? = none := by
      rw [Option.eq_none_iff_forall_ne_some]
      intro items hitems
      exact hnot items (itemsOf?_eq_some_iff.mp hitems)
    have hentries : entriesOf d root = (entryOfRoot? d root).toList := by rw [entriesOf, hnone]
    rw [entries_chosen, hentries]
    refine ⟨fun name hname => ?_, fun hname => ?_⟩
    · rw [entryOfRoot?, nameOf?_eq_some_iff.mpr hname]
      rfl
    · rw [entryOfRoot?, nameOf?_eq_none_iff.mpr hname]
      rfl

/-- Items of every kind: a scalar, one whose first name is no scalar, one behind a key that is no
scalar, and two of one name, the second behind the end of a short text. -/
def mixedItems : List Yaml.Node :=
  let name (text : String) : Yaml.Node × Yaml.Node := (.scalar nameKey 0 0, .scalar text 0 0)
  [.mapping [name "db"] 0 2, .scalar "plain" 2 2,
    .mapping [(.scalar nameKey 2 2, .sequence [] 2 2), name "late"] 2 3,
    .mapping [(.sequence [] 3 3, .scalar "x" 3 3), name "web"] 3 9, .mapping [name "web"] 9 12]

/-- A root with two lists of applications, of which the second does not count. -/
def mixedRoot : Yaml.Node :=
  .mapping [(.scalar "version" 0 0, .scalar "1" 0 0),
    (.scalar applicationsKey 0 0, .sequence mixedItems 0 12),
    (.scalar applicationsKey 0 0, .sequence [] 0 0)] 0 12

theorem entries_of_mixedItems :
    Lists (.ofText "abcd f") mixedItems [⟨"db", false, ⟨0, 2, by decide⟩⟩,
        ⟨"web", false, ⟨3, 6, by decide⟩⟩, ⟨"web", false, ⟨6, 6, by decide⟩⟩] ∧
      InOrder mixedItems ∧
      ([⟨"db", false, ⟨0, 2, by decide⟩⟩, ⟨"web", false, ⟨3, 6, by decide⟩⟩,
        ⟨"web", false, ⟨6, 6, by decide⟩⟩] : List Entry).Pairwise
          (fun e f => e.span.stop ≤ f.span.start ∧
            ∀ o, e.span.contains o = true → f.span.contains o = false) := by
  have hitems : HoldsItems mixedRoot applicationsKey mixedItems := itemsOf?_eq_some_iff.mp rfl
  have horder : InOrder mixedItems := ⟨by decide, by decide⟩
  obtain ⟨located, hlocated, hlists, -⟩ :=
    entries_are_named_items ⟨none⟩ (.ofText "abcd f") mixedRoot none
  have hentries : located.entries = [⟨"db", false, ⟨0, 2, by decide⟩⟩,
      ⟨"web", false, ⟨3, 6, by decide⟩⟩, ⟨"web", false, ⟨6, 6, by decide⟩⟩] := by
    obtain rfl := Except.ok.inj hlocated
    decide +kernel
  rw [← hentries]
  exact ⟨(hlists mixedItems hitems).1, horder, (hlists mixedItems hitems).2 horder⟩

end Manifest.Proofs.NamedItems
