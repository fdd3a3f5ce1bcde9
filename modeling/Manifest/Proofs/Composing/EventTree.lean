import Manifest.Yaml.Node.Builder

/-! # Trees of events

The events of a document form a tree: a scalar or an alias is a leaf, and a collection holds what
stands between its first and its last event. Every event keeps its two marks.

* `events` writes a tree out again, and `TreeStream.events` a whole stream of documents.
* `compose` is the node that a tree stands for: an alias is a copy of the latest node with its
  anchor among those that were complete in front of it. It fails with the anchor of the first alias
  that has no such node. -/

namespace Manifest.Proofs.Composing

open Manifest.Yaml

/-- The marks of an event. -/
structure Extent where
  start : Mark
  stop : Mark
deriving DecidableEq, Repr

/-- An event with its marks. -/
def Extent.mark (x : Extent) (e : Event) : MarkedEvent := ⟨e, x.start, x.stop⟩

/-- The events of a node. Anchor zero is no anchor. -/
inductive EventTree
  | scalar (text : String) (style : Style) (anchor : Nat) (tag? : Option Tag) (extent : Extent)
  | sequence (anchor : Nat) (tag? : Option Tag) (opening : Extent) (items : List EventTree)
    (closing : Extent)
  | mapping (anchor : Nat) (tag? : Option Tag) (opening : Extent)
    (entries : List (EventTree × EventTree)) (closing : Extent)
  | aliasOf (anchor : Nat) (extent : Extent)

/-! ### Writing out -/

mutual

/-- The events of a tree, in order. -/
def EventTree.events : EventTree → List MarkedEvent
  | .scalar text style anchor tag? x => [x.mark (.scalar text style anchor tag?)]
  | .sequence anchor tag? opening items closing =>
    opening.mark (.sequenceStart anchor tag?) ::
      (EventTree.eventsOfItems items ++ [closing.mark .sequenceEnd])
  | .mapping anchor tag? opening entries closing =>
    opening.mark (.mappingStart anchor tag?) ::
      (EventTree.eventsOfEntries entries ++ [closing.mark .mappingEnd])
  | .aliasOf anchor x => [x.mark (.aliasOf anchor)]

/-- The events of the items of a sequence. -/
def EventTree.eventsOfItems : List EventTree → List MarkedEvent
  | [] => []
  | t :: ts => t.events ++ EventTree.eventsOfItems ts

/-- The events of the entries of a mapping, each key in front of its value. -/
def EventTree.eventsOfEntries : List (EventTree × EventTree) → List MarkedEvent
  | [] => []
  | (k, v) :: es => k.events ++ (v.events ++ EventTree.eventsOfEntries es)

end

/-- A document, which may be empty. -/
structure TreeDocument where
  explicit : Bool
  opening : Extent
  root? : Option EventTree
  closing : Extent

/-- The events of a document. -/
def TreeDocument.events (d : TreeDocument) : List MarkedEvent :=
  d.opening.mark (.documentStart d.explicit) ::
    ((d.root?.map EventTree.events).getD [] ++ [d.closing.mark .documentEnd])

/-- A stream of documents. -/
structure TreeStream where
  opening : Extent
  documents : List TreeDocument
  closing : Extent

/-- The events of a stream. -/
def TreeStream.events (s : TreeStream) : List MarkedEvent :=
  s.opening.mark .streamStart ::
    (s.documents.flatMap TreeDocument.events ++ [s.closing.mark .streamEnd])

/-- The trees of the documents that are not empty. -/
def TreeStream.roots (s : TreeStream) : List EventTree := s.documents.filterMap (·.root?)

/-! ### Composing -/

/-- The complete nodes of a document that have anchors, newest first. -/
abbrev Closed := List (Nat × Node)

/-- Adds a complete node, if it has an anchor. -/
def Closed.add (closed : Closed) (anchor : Nat) (n : Node) : Closed :=
  if anchor = 0 then closed else (anchor, n) :: closed

/-- The text of a scalar: a plain one without width stands for a value left out. -/
def scalarText (text : String) (style : Style) (x : Extent) : String :=
  if style = .plain ∧ x.start.index = x.stop.index then "" else text

mutual

/-- The node of a tree behind the complete nodes `closed`, and the complete nodes behind it. -/
def EventTree.compose (closed : Closed) : EventTree → Except Nat (Node × Closed)
  | .scalar text style anchor _ x =>
    let n := Node.scalar (scalarText text style x) x.start.index x.stop.index
    .ok (n, closed.add anchor n)
  | .sequence anchor _ opening items closing =>
    match EventTree.composeItems closed items with
    | .error a => .error a
    | .ok (ns, closed) =>
      let n := Node.sequence ns opening.start.index closing.stop.index
      .ok (n, closed.add anchor n)
  | .mapping anchor _ opening entries closing =>
    match EventTree.composeEntries closed entries with
    | .error a => .error a
    | .ok (ns, closed) =>
      let n := Node.mapping ns opening.start.index closing.stop.index
      .ok (n, closed.add anchor n)
  | .aliasOf anchor _ =>
    match closed.lookup anchor with
    | some n => .ok (n, closed)
    | none => .error anchor

/-- The nodes of the items of a sequence. -/
def EventTree.composeItems (closed : Closed) : List EventTree → Except Nat (List Node × Closed)
  | [] => .ok ([], closed)
  | t :: ts =>
    match t.compose closed with
    | .error a => .error a
    | .ok (n, closed) =>
      match EventTree.composeItems closed ts with
      | .error a => .error a
      | .ok (ns, closed) => .ok (n :: ns, closed)

/-- The nodes of the entries of a mapping. -/
def EventTree.composeEntries (closed : Closed) :
    List (EventTree × EventTree) → Except Nat (List (Node × Node) × Closed)
  | [] => .ok ([], closed)
  | (k, v) :: es =>
    match k.compose closed with
    | .error a => .error a
    | .ok (key, closed) =>
      match v.compose closed with
      | .error a => .error a
      | .ok (value, closed) =>
        match EventTree.composeEntries closed es with
        | .error a => .error a
        | .ok (ns, closed) => .ok ((key, value) :: ns, closed)

end

end Manifest.Proofs.Composing
