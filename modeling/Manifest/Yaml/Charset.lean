/-! # Character classes of YAML

The classes that tell YAML tokens apart. All of them but the complements are classes of ASCII
characters, as the indicators of the language are. The functions on lists look at the next
characters of the text; the end of the text counts as a line break in `atBreak` and `atBlank`. -/

namespace Manifest.Yaml

/-- A space or a tab. -/
def isBlank (c : Char) : Bool := c == ' ' || c == '\t'

/-- A line feed or a carriage return. -/
def isBreak (c : Char) : Bool := c == '\n' || c == '\r'

/-- A space, a tab, a line feed or a carriage return. -/
def isBlankOrBreak (c : Char) : Bool := isBlank c || isBreak c

/-- An indicator of flow collections. -/
def isFlow (c : Char) : Bool := c == ',' || c == '[' || c == ']' || c == '{' || c == '}'

/-- A letter, a digit, a hyphen or an underscore. -/
def isAlpha (c : Char) : Bool := c.isAlphanum || c == '-' || c == '_'

/-- A character that an anchor's name may hold. -/
def isAnchorChar (c : Char) : Bool := !isBlankOrBreak c && !isFlow c && c != '\ufeff'

/-- A character that a URI may hold. -/
def isUriChar (c : Char) : Bool :=
  c.isAlphanum || c == '-' || "#;/?:@&=+$,_.!~*'()[]%".toList.contains c

/-- A character that the short form of a tag may hold. -/
def isTagChar (c : Char) : Bool := isUriChar c && !isFlow c && c != '!'

/-! ### The next characters -/

/-- A line break or the end comes next. -/
def atBreak : List Char → Bool
  | [] => true
  | c :: _ => isBreak c

/-- A blank, a line break or the end comes next. -/
def atBlank : List Char → Bool
  | [] => true
  | c :: _ => isBlankOrBreak c

/-- The next character belongs to the class. -/
def nextIs (p : Char → Bool) : List Char → Bool
  | [] => false
  | c :: _ => p c

/-- Three dashes or three dots, with a blank, a line break or the end behind them, come next. -/
def atMarker (dash : Char) : List Char → Bool
  | a :: b :: c :: rest => a == dash && b == dash && c == dash && atBlank rest
  | _ => false

/-- A marker of a document's start or end comes next. -/
def atDocumentMarker (cs : List Char) : Bool := atMarker '-' cs || atMarker '.' cs

end Manifest.Yaml
