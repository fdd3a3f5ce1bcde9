import Manifest.Yaml.Error
import Manifest.Yaml.Node

/-! # Building nodes from events

The events are taken one by one. A stack holds the collections that are open, innermost first, each
with the nodes that it has so far. When a node is complete it is noted under its anchor and handed to
the collection around it; one outside of all collections is a document. A plain scalar without width
stands for a value left out, and its text is empty.

The events count up to the first end of the stream outside of all documents. -/

namespace Manifest.Yaml

/-- A collection that is open, with what it has so far in reverse. -/
inductive Frame
  | sequence (anchor start : Nat) (items : List Node)
  | mapping (anchor start : Nat) (entries : List (Node × Node))
  /-- A mapping whose last key has no value yet. -/
  | keyed (anchor start : Nat) (entries : List (Node × Node)) (key : Node)

/-- Where in the stream the next event stands. -/
inductive Place
  | outside
  /-- Directly behind the start of a document. -/
  | documentStart
  | inside (frame : Frame) (outer : List Frame)

/-- What has been built so far. -/
structure Builder where
  /-- The complete documents, newest first. -/
  documents : List Node
  /-- The complete nodes with anchors in the current document, newest first. -/
  anchors : List (Nat × Node)
  place : Place

namespace Builder

/-- Nothing built yet. -/
def start : Builder := ⟨[], [], .outside⟩

variable (b : Builder)

/-- Notes a complete node under its anchor, if it has one. -/
def note (anchor : Nat) (n : Node) : Builder :=
  if anchor = 0 then b else { b with anchors := (anchor, n) :: b.anchors }

/-- Hands a complete node to the collection around it. -/
def hand (outer : List Frame) (n : Node) : Builder :=
  match outer with
  | [] => { b with documents := n :: b.documents, place := .outside }
  | .sequence anchor start items :: outer =>
    { b with place := .inside (.sequence anchor start (n :: items)) outer }
  | .mapping anchor start entries :: outer =>
    { b with place := .inside (.keyed anchor start entries n) outer }
  | .keyed anchor start entries key :: outer =>
    { b with place := .inside (.mapping anchor start ((key, n) :: entries)) outer }

/-- Takes an event that stands where a node is needed, inside the collections `outer`. -/
def takeNode (outer : List Frame) (e : MarkedEvent) : Except Misfit Builder :=
  match e.event with
  | .scalar text style anchor _ =>
    let absent := style == .plain && e.start.index == e.stop.index
    let n := Node.scalar (if absent then "" else text) e.start.index e.stop.index
    .ok ((b.note anchor n).hand outer n)
  | .sequenceStart anchor _ =>
    .ok { b with place := .inside (.sequence anchor e.start.index []) outer }
  | .mappingStart anchor _ =>
    .ok { b with place := .inside (.mapping anchor e.start.index []) outer }
  | .aliasOf anchor =>
    match b.anchors.lookup anchor with
    | some n => .ok (b.hand outer n)
    | none => .error (.unknownAlias anchor)
  | other => .error (.notANode other)

/-- Takes an event inside the collection `frame`. -/
def takeInside (frame : Frame) (outer : List Frame) (e : MarkedEvent) : Except Misfit Builder :=
  match frame, e.event with
  | .sequence anchor start items, .sequenceEnd =>
    let n := Node.sequence items.reverse start e.stop.index
    .ok ((b.note anchor n).hand outer n)
  | .mapping anchor start entries, .mappingEnd =>
    let n := Node.mapping entries.reverse start e.stop.index
    .ok ((b.note anchor n).hand outer n)
  | frame, _ => b.takeNode (frame :: outer) e

/-- Takes an event outside of all documents, other than the end of the stream. -/
def takeOutside (e : Event) : Except Misfit Builder :=
  match e with
  | .streamStart => .ok b
  | .documentEnd => .ok b
  | .nothing => .ok b
  | .documentStart _ => .ok { b with anchors := [], place := .documentStart }
  | other => .error (.outsideDocument other)

/-- What is wrong with an end of the events here. -/
def finish : Except Misfit (List Node) :=
  match b.place with
  | .outside => .ok b.documents.reverse
  | .documentStart => .error .endedInsideNode
  | .inside (.sequence _ _ _) _ => .error .unterminatedSequence
  | .inside (.mapping _ _ _) _ => .error .unterminatedMapping
  | .inside (.keyed _ _ _ _) _ => .error .endedInsideNode

/-- Takes the events in turn. -/
def takeAll (b : Builder) : List MarkedEvent → Except Misfit (List Node)
  | [] => b.finish
  | e :: rest =>
    match b.place with
    | .outside =>
      if e.event = .streamEnd then .ok b.documents.reverse
      else
        match b.takeOutside e.event with
        | .error m => .error m
        | .ok b => takeAll b rest
    | .documentStart =>
      if e.event = .documentEnd then takeAll { b with place := .outside } rest
      else
        match b.takeNode [] e with
        | .error m => .error m
        | .ok b => takeAll b rest
    | .inside frame outer =>
      match b.takeInside frame outer e with
      | .error m => .error m
      | .ok b => takeAll b rest

end Builder

/-- The documents of a sequence of events. -/
def Node.ofEvents (events : List MarkedEvent) : Except Misfit (List Node) :=
  Builder.start.takeAll events

end Manifest.Yaml
