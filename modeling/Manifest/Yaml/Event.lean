import Manifest.Yaml.Token

/-! # Events

A YAML text read as a sequence of events: the starts and ends of documents and collections, scalars
and aliases. Anchors are numbered from one in the order in which they stand; zero is no anchor. -/

namespace Manifest.Yaml

/-- A tag with its handle spelled out. -/
structure Tag where
  handle : String
  suffix : String
deriving DecidableEq, Repr

/-- What happens in a YAML text. -/
inductive Event
  | nothing
  | streamStart
  | streamEnd
  | documentStart (explicit : Bool)
  | documentEnd
  | aliasOf (anchor : Nat)
  | scalar (text : String) (style : Style) (anchor : Nat) (tag? : Option Tag)
  | sequenceStart (anchor : Nat) (tag? : Option Tag)
  | sequenceEnd
  | mappingStart (anchor : Nat) (tag? : Option Tag)
  | mappingEnd
deriving DecidableEq, Repr

/-- The scalar that stands for a value left out. -/
def Event.absent : Event := .scalar "~" .plain 0 none

/-- An event and its place. -/
structure MarkedEvent where
  event : Event
  start : Mark
  stop : Mark
deriving DecidableEq, Repr

/-- An event at the place of a token. -/
def Event.at (e : Event) (t : Token) : MarkedEvent := ⟨e, t.start, t.stop⟩

end Manifest.Yaml
