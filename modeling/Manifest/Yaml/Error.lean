import Manifest.Yaml.Event
import Manifest.Yaml.Fault

/-! # Why a text has no tree

A text can be malformed, its events can fail to fit together, and where one document is asked for
there can be none or several. -/

namespace Manifest.Yaml

/-- Why a sequence of events is not a sequence of documents. -/
inductive Misfit
  /-- A document or collection was still open at the end. -/
  | endedInsideNode
  | unterminatedSequence
  | unterminatedMapping
  /-- An event that belongs inside a document stood outside of all. -/
  | outsideDocument (e : Event)
  /-- An event that starts no node stood where a node is needed. -/
  | notANode (e : Event)
  /-- The anchor of an alias is on no node that was complete before it. -/
  | unknownAlias (anchor : Nat)
deriving DecidableEq, Repr

/-! ### Events in messages

A message shows an event with all that it carries: numbers and flags as they are, texts between
quotes. -/

/-- A character between quotes. Quotes, backslashes and control characters are written as
escapes. -/
def escaped (c : Char) : String :=
  match c with
  | '"' => "\\\""
  | '\\' => "\\\\"
  | '\t' => "\\t"
  | '\n' => "\\n"
  | '\r' => "\\r"
  | '\x00' => "\\0"
  | c =>
    if c.toNat < 0x20 ∨ 0x7f ≤ c.toNat ∧ c.toNat < 0xa0 then
      "\\u\x7b" ++ String.ofList (Nat.toDigits 16 c.toNat) ++ "\x7d"
    else c.toString

/-- A text between quotes. -/
def quoted (s : String) : String := "\"" ++ String.join (s.toList.map escaped) ++ "\""

/-- A name with values behind it. -/
def call (name : String) (args : List String) : String := name ++ "(" ++ ", ".intercalate args ++ ")"

/-- The name of a style. -/
def Style.describe : Style → String
  | plain => "Plain"
  | singleQuoted => "SingleQuoted"
  | doubleQuoted => "DoubleQuoted"
  | literal => "Literal"
  | folded => "Folded"

/-- A tag in messages, or that there is none. -/
def describeTag : Option Tag → String
  | none => "None"
  | some t =>
    call "Some" ["Tag \x7b handle: " ++ quoted t.handle ++ ", suffix: " ++ quoted t.suffix ++ " \x7d"]

/-- An event in messages. -/
def Event.describe : Event → String
  | nothing => "Nothing"
  | streamStart => "StreamStart"
  | streamEnd => "StreamEnd"
  | documentStart explicit => call "DocumentStart" [toString explicit]
  | documentEnd => "DocumentEnd"
  | aliasOf anchor => call "Alias" [toString anchor]
  | scalar text style anchor tag? =>
    call "Scalar" [quoted text, style.describe, toString anchor, describeTag tag?]
  | sequenceStart anchor tag? => call "SequenceStart" [toString anchor, describeTag tag?]
  | sequenceEnd => "SequenceEnd"
  | mappingStart anchor tag? => call "MappingStart" [toString anchor, describeTag tag?]
  | mappingEnd => "MappingEnd"

example : (Event.scalar "a\"\n" .plain 0 (some ⟨"!", "x"⟩)).describe =
    "Scalar(\"a\\\"\\n\", Plain, 0, Some(Tag \x7b handle: \"!\", suffix: \"x\" \x7d))" := by
  decide +kernel

/-- The wording of a misfit. -/
def Misfit.message : Misfit → String
  | endedInsideNode => "event stream ended inside a node"
  | unterminatedSequence => "unterminated sequence"
  | unterminatedMapping => "unterminated mapping"
  | outsideDocument e => "unexpected " ++ e.describe ++ " outside a document"
  | notANode e => "expected a node, found " ++ e.describe
  | unknownAlias anchor => "unknown alias #" ++ toString anchor

/-- Why a text has no tree. -/
inductive Error
  | malformed (f : Fault)
  | misfit (m : Misfit)
  /-- The number of documents is not one. -/
  | documents (n : Nat)
deriving DecidableEq, Repr

/-- The wording of an error. -/
def Error.message : Error → String
  | malformed f => "malformed YAML: " ++ f.message
  | misfit m => "unexpected YAML event stream: " ++ m.message
  | documents n => "expected exactly one YAML document, found " ++ toString n

/-- The error and what lies behind it: a fault is told once more without a label. -/
def Error.chain (e : Error) : List String :=
  match e with
  | malformed f => [e.message, f.message]
  | _ => [e.message]

end Manifest.Yaml
