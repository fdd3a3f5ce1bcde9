import Manifest.Text.Blank

/-! # Output formats

The formats that a report can be written in, and their names. A name in a configuration may be
padded with blanks, may be in upper case and may be one of the short forms; on the command line the
plain name is needed. -/

namespace Manifest

/-- A format that a report can be written in. -/
inductive Format
  | plain
  | markdown
  | json
  | yaml
deriving DecidableEq, Repr

namespace Format

/-- All formats. -/
def all : List Format := [plain, markdown, json, yaml]

/-- The name of a format. -/
def name : Format → String
  | plain => "plain"
  | markdown => "markdown"
  | json => "json"
  | yaml => "yaml"

/-- The format with exactly this name. -/
def ofName? (s : String) : Option Format := all.find? (·.name == s)

/-- An ASCII letter in lower case; any other character as it is. -/
def lowerAscii (s : String) : String := String.ofList (s.toList.map Char.toLower)

/-- The format that a setting names, or the name without blanks and in lower case if there is no
such format. -/
def ofSetting (s : String) : Except String Format :=
  match lowerAscii (Text.trim s) with
  | "plain" | "text" | "txt" => .ok plain
  | "markdown" | "md" => .ok markdown
  | "json" => .ok json
  | "yaml" | "yml" => .ok yaml
  | other => .error other

/-- The wording of the error about a name that no format has. -/
def unknownMessage (name : String) : String := "unknown output format '" ++ name ++ "'"

end Format

end Manifest
