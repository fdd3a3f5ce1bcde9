import Manifest.Yaml.Mark

/-! # Tokens

The smallest parts of a YAML text, each with the marks of its start and its end. The starts and ends
of block collections are tokens without a text of their own. -/

namespace Manifest.Yaml

/-- How a scalar is written. -/
inductive Style
  | plain
  | singleQuoted
  | doubleQuoted
  | literal
  | folded
deriving DecidableEq, Repr

/-- What a token is. -/
inductive Token.Kind
  | streamStart
  | streamEnd
  | versionDirective
  | tagDirective (handle expansion : String)
  | documentStart
  | documentEnd
  | blockSequenceStart
  | blockMappingStart
  | blockEnd
  | flowSequenceStart
  | flowSequenceEnd
  | flowMappingStart
  | flowMappingEnd
  | blockEntry
  | flowEntry
  | key
  | value
  | aliasOf (name : String)
  | anchor (name : String)
  | tag (handle suffix : String)
  | scalar (style : Style) (text : String)
deriving DecidableEq, Repr

/-- A token and its place. -/
structure Token where
  kind : Token.Kind
  start : Mark
  stop : Mark
deriving DecidableEq, Repr

/-- A token without width. -/
def Token.point (kind : Token.Kind) (m : Mark) : Token := ⟨kind, m, m⟩

end Manifest.Yaml
