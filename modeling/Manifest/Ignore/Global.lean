import Manifest.Config.Load
import Manifest.Ignore.Rule

/-! # The user's own ignore file

Rules that hold in every repository of the user. A setting of the version control names the file, or
else it has a fixed place among the user's settings. -/

namespace Manifest.Ignore

/-- The name of the setting, in lower case. -/
def excludesKey : List Char := "excludesfile".toList

/-- A blank of ASCII. -/
def isAsciiBlank (c : Char) : Bool := c == ' ' || ('\t' ≤ c && c ≤ '\r')

/-- The text without the blanks in front of it. -/
def skipBlank (cs : List Char) : List Char := cs.dropWhile isAsciiBlank

/-- The text without the blanks at its end. -/
def dropBlank (cs : List Char) : List Char := (cs.reverse.dropWhile isAsciiBlank).reverse

/-- The text without a quote in front of it and one at its end, unless nothing else is there. -/
def unquote (cs : List Char) : List Char :=
  let opened := match cs with
    | '"' :: rest => if (skipBlank rest).isEmpty then cs else skipBlank rest
    | cs => cs
  match opened.reverse with
  | '"' :: rest =>
    let inner := dropBlank rest.reverse
    if inner.isEmpty then opened else inner
  | _ => opened

/-- The value of the setting, if a line gives it. -/
def excludesOfLine? (line : List Char) : Option (List Char) :=
  let cs := skipBlank line
  if (cs.take excludesKey.length).map Char.toLower = excludesKey then
    match skipBlank (cs.drop excludesKey.length) with
    | '=' :: rest =>
      let value := unquote (dropBlank (skipBlank rest))
      if value.isEmpty || value.any isAsciiBlank then none else some value
    | _ => none
  else none

/-- The file that a text of settings names. -/
def excludesOfSettings? (content : ByteArray) : Option (List Char) :=
  (content.toList.splitOnP (· == 0x0a)).findSome? fun line =>
    (String.fromUTF8? ⟨line.toArray⟩).bind fun s => excludesOfLine? s.toList

/-- A path with the user's directory in place of each tilde. -/
def expandTilde (env : Environment) (cs : List Char) : Path :=
  let home := env.home?.elim ['~'] fun p => p.text.toList
  .ofText (String.ofList (cs.flatMap fun c => if c = '~' then home else [c]))

/-- The directory of the user's settings, also if its path is not absolute. -/
def settingsDir? (env : Environment) : Option Path :=
  env.path? "XDG_CONFIG_HOME" <|> env.home?.map (·.child ".config")

/-- The user's ignore file. -/
def globalFile? (d : Disk) (env : Environment) : Option Path :=
  let named (file? : Option Path) : Option Path := do
    let content ← (d.readBytes (← file?)).toOption
    (excludesOfSettings? content).map (expandTilde env)
  named (env.home?.map (·.child ".gitconfig"))
    <|> named ((settingsDir? env).map fun dir => (dir.child "git").child "config")
    <|> (settingsDir? env).map fun dir => (dir.child "git").child "ignore"

/-- The rules of an ignore file that may not be there. -/
def rulesIn (d : Disk) (file : Path) : List Rule :=
  match d.readBytes file with
  | .ok content => rulesOf content
  | .error _ => []

/-- The rules that hold in every repository. -/
def globalRules (d : Disk) (env : Environment) : List Rule :=
  (globalFile? d env).elim [] (rulesIn d)

end Manifest.Ignore
