/-! # Nodes

A YAML document as a tree. Every node carries the offsets at which it starts and stops in the text;
an alias has become a copy of the node that it names, offsets included. -/

namespace Manifest.Yaml

/-- A node of a document. -/
inductive Node
  | scalar (text : String) (start stop : Nat)
  | sequence (items : List Node) (start stop : Nat)
  | mapping (entries : List (Node × Node)) (start stop : Nat)
deriving Repr, Inhabited

namespace Node

/-- Where the node starts. -/
def start : Node → Nat
  | scalar _ s _ => s
  | sequence _ s _ => s
  | mapping _ s _ => s

/-- Where the node stops. -/
def stop : Node → Nat
  | scalar _ _ e => e
  | sequence _ _ e => e
  | mapping _ _ e => e

/-- The text of a scalar. -/
def scalar? : Node → Option String
  | scalar t _ _ => some t
  | _ => none

/-- The items of a sequence. -/
def sequence? : Node → Option (List Node)
  | sequence items _ _ => some items
  | _ => none

/-- The entries of a mapping. -/
def mapping? : Node → Option (List (Node × Node))
  | mapping entries _ _ => some entries
  | _ => none

/-- The value of the first entry of a mapping whose key is the scalar `key`. -/
def get? (n : Node) (key : String) : Option Node :=
  n.mapping?.bind fun entries =>
    (entries.find? fun e => e.1.scalar? == some key).map Prod.snd

end Node

end Manifest.Yaml
