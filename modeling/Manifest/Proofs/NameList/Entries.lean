import Manifest.Proofs.Composing.Stream
import Manifest.Proofs.NameList.Events
import Manifest.Proofs.Selection
import Manifest.Proofs.Trimming

/-! # The entries of a list of names

The node of a list of names has one mapping for each item (`parse_list`). A mapping ends in front of
the dash of the next item or at the end of the text, so trimming its end changes nothing
(`trimEnd_of_atItem`), and the spans of the entries are the places of the items without their dashes
(`filterMap_itemNodes`). Main statement: `locate_manifestText`. -/

namespace Manifest.Proofs.NameList

open Manifest.Yaml Manifest.Proofs.Composing Manifest.Proofs.Trimming

/-! ### The node -/

/-- The node of the item at offset `o`. -/
def itemNode (o : Nat) (n : List Char) : Node :=
  .mapping
    [(.scalar "name" (o + 2) (o + 6), .scalar (String.ofList n) (o + 8) (o + 8 + n.length))]
    (o + 2) (o + 8 + n.length + 1)

/-- The nodes of the items from offset `o` on. -/
def itemNodes (o : Nat) : List (List Char) → List Node
  | [] => []
  | n :: ns => itemNode o n :: itemNodes (o + 8 + n.length + 1) ns

/-- The root of a list of names. -/
def listNode (ns : List (List Char)) : Node :=
  .mapping
    [(.scalar "applications" 0 12, .sequence (itemNodes 14 ns) 16 (endMark 14 2 ns).index)]
    0 (endMark 14 2 ns).index

theorem compose_itemTree (o L : Nat) {n : List Char} (hn : IsAppName n) :
    (itemTree o L n).compose [] = .ok (itemNode o n, []) := by
  simp [itemTree, EventTree.compose, EventTree.composeEntries, scalarText, Closed.add, pointAt,
    itemNode, hn.ne_nil]

theorem composeItems_itemTrees : ∀ (ns : List (List Char)) (o L : Nat), (∀ n ∈ ns, IsAppName n) →
    EventTree.composeItems [] (itemTrees o L ns) = .ok (itemNodes o ns, [])
  | [], _, _, _ => rfl
  | n :: ns, o, L, hns => by
    have hrest : ∀ m ∈ ns, IsAppName m := fun m hm => hns m (List.mem_cons_of_mem _ hm)
    rw [itemTrees, EventTree.composeItems, compose_itemTree o L (hns n (by simp))]
    dsimp only
    rw [composeItems_itemTrees ns _ _ hrest]
    rfl

theorem compose_listTree {ns : List (List Char)} (hns : ∀ n ∈ ns, IsAppName n) :
    (listTree ns).compose [] = .ok (listNode ns, []) := by
  have hitems := composeItems_itemTrees ns 14 2 hns
  simp [listTree, EventTree.compose, EventTree.composeEntries, Closed.add, hitems, scalarText,
    listNode, pointAt, Mark.origin]

/-- **The document of a list of names is one mapping.** -/
theorem parse_list {s : String} {ns : List (List Char)} (hne : ns ≠ [])
    (hns : ∀ n ∈ ns, IsAppName n) (hs : s.toList = header ++ items ns) :
    Yaml.parse s = .ok [listNode ns] := by
  obtain ⟨n, ns, rfl⟩ := List.exists_cons_of_ne_nil hne
  have hcompose : (listStream (n :: ns)).compose = .ok [listNode (n :: ns)] := by
    have hroots : (listStream (n :: ns)).roots = [listTree (n :: ns)] := rfl
    rw [TreeStream.compose, hroots, List.mapM_cons, compose_listTree hns]
    rfl
  rw [Yaml.parse, readEvents_listStream hns hs]
  dsimp only
  rw [ofEvents_events, hcompose]

/-! ### The entries -/

/-- A mark in front of a dash or at the end of the text is no mark on blanks. -/
theorem trimEnd_of_atItem {d : Document} {front rest : List Char} (hd : d.chars = front ++ rest)
    (hrest : AtItem rest) : d.trimEnd front.length = front.length := by
  have hsize : d.size = front.length + rest.length := by
    rw [Document.size, hd, List.length_append]
  have hkept : d.size ≤ front.length ∨ d.blankAt front.length = false := by
    cases rest with
    | nil => exact .inl hsize.le
    | cons c rest =>
      obtain rfl : c = '-' := hrest c rfl
      have hchar : d.charAt? front.length = some '-' := by
        rw [Document.charAt?, hd]
        simp
      right
      rw [Document.blankAt, hchar]
      rfl
  rw [trimEnd_of_kept hkept]
  omega

/-- An item without its dash. -/
def itemSpan (o : Nat) (n : List Char) : Span := ⟨o + 2, o + 8 + n.length + 1, by omega⟩

theorem nodeSpan_item {d : Document} {front n : List Char} {ns : List (List Char)}
    (hd : d.chars = front ++ (item n ++ items ns)) :
    d.nodeSpan (front.length + 2) (front.length + 8 + n.length + 1) = itemSpan front.length n := by
  have hlength : (front ++ item n).length = front.length + 8 + n.length + 1 := by
    rw [List.length_append, length_item]
    omega
  have hsize : front.length + 8 + n.length + 1 ≤ d.size := by
    rw [Document.size, hd, ← List.append_assoc, List.length_append, hlength]
    omega
  have htrim : d.trimEnd (front ++ item n).length = (front ++ item n).length :=
    trimEnd_of_atItem (by rw [hd, List.append_assoc]) (atItem_items ns)
  rw [hlength] at htrim
  refine Span.ext ?_ ?_
  · rw [start_nodeSpan]
    exact Nat.min_eq_left (by omega)
  · rw [stop_nodeSpan, htrim]
    exact Nat.max_eq_left (by omega)

/-- The entries of the items from offset `o` on. -/
def itemEntries (o : Nat) : List (List Char) → List Entry
  | [] => []
  | n :: ns => ⟨String.ofList n, false, itemSpan o n⟩ :: itemEntries (o + 8 + n.length + 1) ns

theorem filterMap_itemNodes {d : Document} : ∀ (ns : List (List Char)) (front : List Char),
    d.chars = front ++ items ns →
      (itemNodes front.length ns).filterMap (Locator.entryOfItem? d) = itemEntries front.length ns
  | [], _, _ => rfl
  | n :: ns, front, hd => by
    have hitems : items (n :: ns) = item n ++ items ns := List.flatMap_cons
    have hlength : (front ++ item n).length = front.length + 8 + n.length + 1 := by
      rw [List.length_append, length_item]
      omega
    rw [hitems] at hd
    have hentry : Locator.entryOfItem? d (itemNode front.length n) =
        some ⟨String.ofList n, false, itemSpan front.length n⟩ := by
      rw [← nodeSpan_item hd]
      rfl
    have ih := filterMap_itemNodes ns (front ++ item n) (by rw [hd, List.append_assoc])
    rw [hlength] at ih
    rw [itemNodes, List.filterMap_cons_some hentry, ih]
    rfl

theorem names_itemEntries : ∀ (ns : List (List Char)) (o : Nat),
    (itemEntries o ns).map Entry.name = ns.map String.ofList
  | [], _ => rfl
  | n :: ns, o => by
    rw [itemEntries, List.map_cons, names_itemEntries ns, List.map_cons]

theorem getElem?_itemEntries : ∀ (ns : List (List Char)) (o i : Nat) (e : Entry),
    (itemEntries o ns)[i]? = some e →
      e.rootLevel = false ∧ e.span.start = o + (items (ns.take i)).length + 2 ∧
        e.span.stop = o + (items (ns.take (i + 1))).length
  | [], _, _, _, he => by cases he
  | n :: ns, o, 0, e, he => by
    obtain rfl := Option.some.inj he
    refine ⟨rfl, rfl, ?_⟩
    have hnil : (items []).length = 0 := rfl
    show o + 8 + n.length + 1 = o + (items [n]).length
    rw [length_items_cons]
    omega
  | n :: ns, o, i + 1, e, he => by
    obtain ⟨hroot, hstart, hstop⟩ := getElem?_itemEntries ns _ i e he
    rw [List.take_succ_cons, List.take_succ_cons, length_items_cons, length_items_cons]
    exact ⟨hroot, by omega, by omega⟩

/-! ### Locating -/

theorem found_list {d : Document} {ns : List (List Char)} (hd : d.chars = header ++ items ns) :
    Locating.found d [listNode ns] = .ok (itemEntries 14 ns) := by
  have hitems : Locator.entriesOf d (listNode ns) =
      (itemNodes header.length ns).filterMap (Locator.entryOfItem? d) := rfl
  rw [filterMap_itemNodes ns header hd] at hitems
  rw [Locating.found, Yaml.singleRoot, Except.map, hitems]
  rfl

/-- **A manifest that lists names has these names**, each with the place of its item without the
dash, so that the last one ends with the text. All are items of the list. Without a pin and a
previous selection the first is selected. -/
theorem locate_manifestText {names : List String} (hne : names ≠ [])
    (hnames : ∀ n ∈ names, IsAppName n.toList) (l : Locator) (previous? : Option Selection) :
    ∃ located, l.locate? (.ofText (manifestText names)) previous? = .ok located ∧
      located.names = names ∧
      (∀ (i : Nat) (e : Entry), located.entries[i]? = some e →
        e.rootLevel = false ∧ e.span.start = itemStart names i + 2 ∧
          e.span.stop = itemStart names (i + 1)) ∧
      (Document.ofText (manifestText names)).size = itemStart names names.length ∧
      (l.pinned? = none → previous? = none → located.selected? = some 0) := by
  have hne' : names.map String.toList ≠ [] := by simpa using hne
  have hns : ∀ n ∈ names.map String.toList, IsAppName n := by
    intro n hn
    obtain ⟨m, hm, rfl⟩ := List.mem_map.mp hn
    exact hnames m hm
  have hchars : (Document.ofText (manifestText names)).chars =
      header ++ items (names.map String.toList) := by
    rw [ofText_manifestText]
  have hparse := parse_list (s := (Document.ofText (manifestText names)).text) hne' hns
    (by rw [Document.text, String.toList_ofList, hchars])
  have hentries : (itemEntries 14 (names.map String.toList)).map Entry.name = names := by
    rw [names_itemEntries, List.map_map]
    exact (List.map_congr_left fun n _ => String.ofList_toList).trans (List.map_id names)
  refine ⟨Locating.chosen l previous? (itemEntries 14 (names.map String.toList)), ?_, hentries,
    fun i e he => ?_, ?_, fun hpin hprev => ?_⟩
  · rw [Locating.locate?_eq, hparse, Except.bind, found_list hchars]
    rfl
  · rw [itemStart_eq, itemStart_eq]
    exact getElem?_itemEntries _ 14 i e he
  · rw [itemStart_eq, Document.size, hchars, List.length_append, ← List.length_map String.toList,
      List.take_length]
    rfl
  · have hsome : itemEntries 14 (names.map String.toList) ≠ [] := by
      intro h
      rw [h] at hentries
      exact hne hentries.symm
    rw [Selection.selected?_chosen, Selection.select?_of_unpinned hpin _ hsome, hprev]
    rfl

/-- Names with a digit, a hyphen and a repetition. -/
def repeatedNames : List String := ["web-1", "db", "db"]

/-- The items of these names start at 14, 28 and 39, and the text ends at 50. -/
theorem locate_repeatedNames :
    repeatedNames ≠ [] ∧ (∀ n ∈ repeatedNames, IsAppName n.toList) ∧
    (List.range 4).map (itemStart repeatedNames) = [14, 28, 39, 50] ∧
    ∃ located, (Locator.mk none).locate? (.ofText (manifestText repeatedNames)) none = .ok located ∧
      located.names = repeatedNames ∧
      (∀ (i : Nat) (e : Entry), located.entries[i]? = some e →
        e.rootLevel = false ∧ e.span.start = itemStart repeatedNames i + 2 ∧
          e.span.stop = itemStart repeatedNames (i + 1)) ∧
      (Document.ofText (manifestText repeatedNames)).size = itemStart repeatedNames 3 ∧
      located.selected? = some 0 := by
  have hne : repeatedNames ≠ [] := by decide
  have hnames : ∀ n ∈ repeatedNames, IsAppName n.toList := by decide +kernel
  obtain ⟨located, hlocated, hentries, hspans, hsize, hselected⟩ :=
    locate_manifestText hne hnames ⟨none⟩ none
  exact ⟨hne, hnames, by decide +kernel, located, hlocated, hentries, hspans, hsize,
    hselected rfl rfl⟩

end Manifest.Proofs.NameList
