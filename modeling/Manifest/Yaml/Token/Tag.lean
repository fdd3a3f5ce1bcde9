import Manifest.Text.Digit
import Manifest.Yaml.Cursor
import Manifest.Yaml.Token

/-! # Anchors, tags and directives

The tokens that stand in front of a node or of a document. A fault inside one of them is reported at
the start of the token. -/

namespace Manifest.Yaml

/-- What reading a part of a token yields: what was read, and the cursor behind it. -/
abbrev Reading (α : Type) := Except Cause (α × Cursor)

/-! ### Anchors -/

/-- Reads the name of an anchor or an alias, which must not be empty. -/
def readAnchorName (c : Cursor) : Reading String :=
  let name := c.rest.takeWhile isAnchorChar
  if name.isEmpty then .error .anchorEmpty else .ok (String.ofList name, c.take name.length)

/-! ### URIs -/

/-- The number of bytes in the encoding of a character that starts with the byte. -/
def leadingWidth? (byte : Nat) : Option Nat :=
  if byte < 0x80 then some 1
  else if 0xc0 ≤ byte ∧ byte < 0xe0 then some 2
  else if 0xe0 ≤ byte ∧ byte < 0xf0 then some 3
  else if 0xf0 ≤ byte ∧ byte < 0xf8 then some 4
  else none

/-- The byte of an escape: a percent sign and two hexadecimal digits. -/
def escapedByte? : List Char → Option Nat
  | '%' :: a :: b :: _ => if Text.isHex a && Text.isHex b then some (Text.number 16 [a, b]) else none
  | _ => none

/-- Reads `n` escapes of trailing bytes, which are put side by side behind `code`. -/
def readTrailing : (n : Nat) → Cursor → (code : Nat) → Reading Nat
  | 0, c, code => .ok (code, c)
  | n + 1, c, code =>
    match escapedByte? c.rest with
    | none => .error .uriEscape
    | some byte =>
      if byte / 0x40 = 2 then readTrailing n (c.take 3) (code * 0x100 + byte)
      else .error .uriTrailingByte

/-- Reads one character that is written as one or more escapes. -/
def readUriEscape (c : Cursor) : Reading Char :=
  match escapedByte? c.rest with
  | none => .error .uriEscape
  | some byte =>
    match leadingWidth? byte with
    | none => .error .uriLeadingByte
    | some width =>
      match readTrailing (width - 1) (c.take 3) byte with
      | .error e => .error e
      | .ok (code, c) =>
        if code.isValidChar then .ok (Char.ofNat code, c) else .error .uriCharacter

/-- Reads the characters of a class, among which a percent sign starts an escape. `text` holds what
has been read so far in reverse. -/
def readUri (p : Char → Bool) : (fuel : Nat) → Cursor → (text : List Char) → Reading (List Char)
  | 0, c, text => .ok (text, c)
  | fuel + 1, c, text =>
    match c.rest with
    | [] => .ok (text, c)
    | x :: _ =>
      if !p x then .ok (text, c)
      else if x == '%' then
        match readUriEscape c with
        | .error e => .error e
        | .ok (y, c) => readUri p fuel c (y :: text)
      else readUri p fuel (c.take 1) (x :: text)

/-- Reads all characters of a class from the cursor. -/
def readUriWhile (p : Char → Bool) (c : Cursor) (text : List Char) : Reading String :=
  match readUri p (c.rest.length + 1) c text with
  | .error e => .error e
  | .ok (text, c) => .ok (String.ofList text.reverse, c)

/-! ### Tags -/

/-- Reads a handle: `!`, `!!` or `!name!`. Where it need not be closed (`directive` is false), an
exclamation mark with a name behind it is read all the same. -/
def readHandle (directive : Bool) (c : Cursor) : Reading String :=
  if !nextIs (· == '!') c.rest then .error .tagBang
  else
    let name := c.rest.tail.takeWhile isAlpha
    let c := c.take (name.length + 1)
    if nextIs (· == '!') c.rest then .ok (String.ofList ('!' :: name ++ ['!']), c.take 1)
    else if directive && !name.isEmpty then .error .tagDirectiveBang
    else .ok (String.ofList ('!' :: name), c)

/-- The handle is closed by an exclamation mark of its own. -/
def isNamedHandle (handle : String) : Bool :=
  handle.length ≥ 2 && handle.toList.head? == some '!' && handle.toList.getLast? == some '!'

/-- Reads a tag in its verbatim form, from behind the opening angle bracket. -/
def readVerbatim (c : Cursor) : Reading String :=
  match readUriWhile isUriChar c [] with
  | .error e => .error e
  | .ok (uri, c) =>
    if nextIs (· == '>') c.rest then .ok (uri, c.take 1) else .error .tagVerbatimUnclosed

/-- Reads the handle and the suffix of a tag from its exclamation mark. A tag whose handle is not
closed has the handle `!`; a lone exclamation mark is a suffix without a handle. -/
def readTag (c : Cursor) : Reading (String × String) :=
  if nextIs (· == '<') c.rest.tail then
    match readVerbatim (c.take 2) with
    | .error e => .error e
    | .ok (uri, c) => .ok (("", uri), c)
  else
    match readHandle false c with
    | .error e => .error e
    | .ok (handle, c) =>
      if isNamedHandle handle then
        match readUriWhile isTagChar c [] with
        | .error e => .error e
        | .ok (suffix, c) => if suffix.isEmpty then .error .tagEmpty else .ok ((handle, suffix), c)
      else
        match readUriWhile isTagChar c (handle.toList.drop 1).reverse with
        | .error e => .error e
        | .ok (suffix, c) => .ok (if suffix.isEmpty then ("", "!") else ("!", suffix), c)

/-! ### Directives -/

/-- Reads a number of at most nine digits. -/
def readVersionNumber (c : Cursor) : Reading Unit :=
  let digits := (c.rest.takeWhile Char.isDigit).length
  if digits > 9 then .error .versionTooLong
  else if digits = 0 then .error .versionMissing
  else .ok ((), c.take digits)

/-- Reads the two numbers of a version directive. -/
def readVersion (c : Cursor) : Reading Token.Kind :=
  match readVersionNumber (c.skipWhile isBlank) with
  | .error e => .error e
  | .ok (_, c) =>
    if !nextIs (· == '.') c.rest then .error .versionPoint
    else
      match readVersionNumber (c.take 1) with
      | .error e => .error e
      | .ok (_, c) => .ok (.versionDirective, c)

/-- Reads what a handle stands for: a local tag, or a URI that does not start with a flow
indicator. -/
def readExpansion (c : Cursor) : Reading String :=
  match c.rest with
  | [] => .error .tagPrefix
  | x :: _ =>
    if x == '!' then readUriWhile isUriChar (c.take 1) ['!']
    else if !isTagChar x then .error .tagPrefix
    else readUriWhile isUriChar c []

/-- Reads the handle of a tag directive and what it stands for. -/
def readTagDirective (c : Cursor) : Reading Token.Kind :=
  match readHandle true (c.skipWhile isBlank) with
  | .error e => .error e
  | .ok (handle, c) =>
    match readExpansion (c.skipWhile isBlank) with
    | .error e => .error e
    | .ok (expansion, c) =>
      if atBlank c.rest then .ok (.tagDirective handle expansion, c)
      else .error .tagDirectiveTrailing

/-- Reads a directive from its percent sign to the end of its line. A directive with another name
than `YAML` and `TAG` is passed over. -/
def scanDirective (c : Cursor) : Except Fault (Token × Cursor) :=
  let start := c.mark
  let inner := c.take 1
  let name := inner.rest.takeWhile isAlpha
  let body := inner.skip name.length
  if name.isEmpty then inner.fail .directiveName
  else if !atBlank body.rest then inner.fail .directiveCharacter
  else
    let parts : Reading Token.Kind :=
      if name = "YAML".toList then readVersion body
      else if name = "TAG".toList then readTagDirective body
      else .ok (.tagDirective "" "", body.skipWhile (!isBreak ·))
    match parts with
    | .error e => .error ⟨e, start⟩
    | .ok (kind, stop) =>
      match stop.skipLineRest true with
      | .error e => .error e
      | .ok line =>
        if atBreak line.cursor.rest then .ok (⟨kind, start, stop.mark⟩, line.cursor.skipBreak)
        else .error ⟨.directiveTrailing, start⟩

end Manifest.Yaml
