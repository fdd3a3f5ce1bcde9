import Manifest.Yaml.Event.Reader
import Manifest.Yaml.Node.Builder

/-! # Reading YAML

A text is read as events, and the events as documents. -/

namespace Manifest.Yaml

/-- The documents of a text. -/
def parse (s : String) : Except Error (List Node) :=
  match readEvents s with
  | .error f => .error (.malformed f)
  | .ok events =>
    match Node.ofEvents events with
    | .error m => .error (.misfit m)
    | .ok documents => .ok documents

/-- The only one of a list of documents. -/
def singleRoot : List Node → Except Error Node
  | [root] => .ok root
  | other => .error (.documents other.length)

end Manifest.Yaml
