import Manifest.Proofs.Composing.EventTree
import Manifest.Proofs.NameList.Tokens
import Manifest.Yaml.Event.Reader

/-! # The events of a list of names

The reader goes over the tokens of a list of names one item at a time (`gives_item`): each is a
mapping of its own, and the reader stands where it stood in front of it. What it gives is the stream
of one tree, `listStream`; the tree has no anchors. -/

namespace Manifest.Proofs.NameList

open Manifest.Yaml Manifest.Proofs.Composing

/-! ### The tree -/

/-- An event that is one token without width. -/
def pointAt (m : Mark) : Extent := ⟨m, m⟩

/-- The mapping of the item at offset `o` on line `L`. -/
def itemTree (o L : Nat) (n : List Char) : EventTree :=
  .mapping 0 none (pointAt ⟨o + 2, L, 2⟩)
    [(.scalar "name" .plain 0 none ⟨⟨o + 2, L, 2⟩, ⟨o + 6, L, 6⟩⟩,
      .scalar (String.ofList n) .plain 0 none
        ⟨⟨o + 8, L, 8⟩, ⟨o + 8 + n.length, L, 8 + n.length⟩⟩)]
    (pointAt ⟨o + 8 + n.length + 1, L + 1, 0⟩)

/-- The mappings of the items from offset `o` and line `L` on. -/
def itemTrees (o L : Nat) : List (List Char) → List EventTree
  | [] => []
  | n :: ns => itemTree o L n :: itemTrees (o + 8 + n.length + 1) (L + 1) ns

/-- Where the items from offset `o` and line `L` on end. -/
def endMark (o L : Nat) : List (List Char) → Mark
  | [] => ⟨o, L, 0⟩
  | n :: ns => endMark (o + 8 + n.length + 1) (L + 1) ns

/-- The root of a list of names. -/
def listTree (ns : List (List Char)) : EventTree :=
  .mapping 0 none (pointAt .origin)
    [(.scalar "applications" .plain 0 none ⟨.origin, ⟨12, 1, 12⟩⟩,
      .sequence 0 none (pointAt ⟨16, 2, 2⟩) (itemTrees 14 2 ns) (pointAt (endMark 14 2 ns)))]
    (pointAt (endMark 14 2 ns))

/-- The stream of a list of names. -/
def listStream (ns : List (List Char)) : TreeStream where
  opening := pointAt .origin
  documents := [⟨false, pointAt .origin, some (listTree ns), pointAt (endMark 14 2 ns)⟩]
  closing := pointAt (endMark 14 2 ns)

/-! ### Reading -/

/-- From `r` the reader gives the events `es`, after which it stands in `r'`. -/
def Gives (r : Reader) (es : List MarkedEvent) (r' : Reader) : Prop :=
  ∀ fuel done, Reader.run (fuel + es.length) r done = Reader.run fuel r' (es.reverse ++ done)

theorem Gives.refl (r : Reader) : Gives r [] r := fun _ _ => rfl

theorem Gives.trans {r r' r'' : Reader} {es es' : List MarkedEvent} (h : Gives r es r')
    (h' : Gives r' es' r'') : Gives r (es ++ es') r'' := by
  intro fuel done
  have hlength : fuel + (es ++ es').length = fuel + es'.length + es.length := by
    rw [List.length_append]
    omega
  rw [hlength, h, h', List.reverse_append, List.append_assoc]

/-- The reader outside of documents with anchors or directives. -/
def reading (f : Fault) (ts : List Token) (expect : Expect) (stack : List Expect) : Reader where
  tokens := ts
  fault := f
  expect
  stack
  anchors := []
  nextAnchor := 1
  handles := []

/-- **An item is the four events of its mapping.** -/
theorem gives_item (f : Fault) (o L : Nat) (n : List Char) (ts : List Token) (stack : List Expect) :
    Gives
      (reading f (itemTokens o L n ++ .point .blockEnd ⟨o + 8 + n.length + 1, L + 1, 0⟩ :: ts)
        .looseEntry stack)
      (itemTree o L n).events (reading f ts .looseEntry stack) := fun _ _ => rfl

theorem gives_items (f : Fault) (stack : List Expect) : ∀ (ns : List (List Char)) (o L : Nat),
    Gives (reading f (tokensFrom o L ns) .looseEntry stack)
      (EventTree.eventsOfItems (itemTrees o L ns))
      (reading f [.point .blockEnd (endMark o L ns), .point .streamEnd (endMark o L ns)] .looseEntry
        stack)
  | [], _, _ => .refl _
  | n :: ns, o, L =>
    (gives_item f o L n _ stack).trans (gives_items f stack ns (o + 8 + n.length + 1) (L + 1))

/-- The events in front of the items. -/
def openingEvents : List MarkedEvent :=
  [(pointAt .origin).mark .streamStart, (pointAt .origin).mark (.documentStart false),
    (pointAt .origin).mark (.mappingStart 0 none),
    ⟨.scalar "applications" .plain 0 none, .origin, ⟨12, 1, 12⟩⟩,
    (pointAt ⟨16, 2, 2⟩).mark (.sequenceStart 0 none)]

/-- The events behind the items. -/
def closingEvents (m : Mark) : List MarkedEvent :=
  [(pointAt m).mark .sequenceEnd, (pointAt m).mark .mappingEnd, (pointAt m).mark .documentEnd,
    (pointAt m).mark .streamEnd]

theorem events_listStream (ns : List (List Char)) :
    (listStream ns).events =
      openingEvents ++ (EventTree.eventsOfItems (itemTrees 14 2 ns) ++
        closingEvents (endMark 14 2 ns)) := by
  simp [listStream, TreeStream.events, TreeDocument.events, listTree, EventTree.events,
    EventTree.eventsOfEntries, openingEvents, closingEvents, Extent.mark, pointAt]

theorem gives_opening (n : List Char) (ns : List (List Char)) :
    Gives (.ofTokens ⟨listTokens (n :: ns), none⟩) openingEvents
      (reading ⟨.tokensEnded, .origin⟩ (tokensFrom 14 2 (n :: ns)) .looseEntry
        [.blockKey false, .documentEnd]) := fun _ _ => rfl

theorem gives_closing (f : Fault) (m : Mark) :
    Gives
      (reading f [.point .blockEnd m, .point .streamEnd m] .looseEntry
        [.blockKey false, .documentEnd])
      (closingEvents m) (reading f [] .nothing []) := fun _ _ => rfl

theorem run_nothing (f : Fault) (ts : List Token) (stack : List Expect) (done : List MarkedEvent) :
    ∀ fuel, Reader.run fuel (reading f ts .nothing stack) done = .ok done.reverse
  | 0 => rfl
  | _ + 1 => rfl

theorem length_eventsOfItems_le : ∀ (ns : List (List Char)) (o L : Nat),
    (EventTree.eventsOfItems (itemTrees o L ns)).length ≤ (tokensFrom o L ns).length
  | [], _, _ => Nat.zero_le _
  | n :: ns, o, L => by
    have ih := length_eventsOfItems_le ns (o + 8 + n.length + 1) (L + 1)
    have hevents : (itemTree o L n).events.length = 4 := rfl
    have htokens : (itemTokens o L n).length = 6 := rfl
    rw [itemTrees, EventTree.eventsOfItems, tokensFrom, List.length_append, List.length_append,
      List.length_cons]
    omega

/-- **The reader gives the events of the stream of a list of names.** -/
theorem readEvents_listStream {s : String} {n : List Char} {ns : List (List Char)}
    (hns : ∀ m ∈ n :: ns, IsAppName m) (hs : s.toList = header ++ items (n :: ns)) :
    readEvents s = .ok (listStream (n :: ns)).events := by
  have hall : Gives (.ofTokens ⟨listTokens (n :: ns), none⟩) (listStream (n :: ns)).events
      (reading ⟨.tokensEnded, .origin⟩ [] .nothing []) := by
    rw [events_listStream]
    exact (gives_opening n ns).trans ((gives_items _ _ (n :: ns) 14 2).trans (gives_closing _ _))
  obtain ⟨fuel, hfuel⟩ : ∃ fuel, 5 * (listTokens (n :: ns)).length + 5 =
      fuel + (listStream (n :: ns)).events.length := by
    refine Nat.exists_eq_add_of_le' ?_
    have hitems := length_eventsOfItems_le (n :: ns) 14 2
    have hopening : openingEvents.length = 5 := rfl
    have hclosing : (closingEvents (endMark 14 2 (n :: ns))).length = 4 := rfl
    have hheader : headerTokens.length = 5 := rfl
    rw [events_listStream, listTokens, List.length_append, List.length_append, List.length_append]
    omega
  rw [readEvents, tokens_ofText hns hs]
  dsimp only
  rw [hfuel, hall, run_nothing, List.append_nil, List.reverse_reverse]

end Manifest.Proofs.NameList
