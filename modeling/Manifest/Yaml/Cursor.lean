import Manifest.Yaml.Charset
import Manifest.Yaml.Fault

/-! # Cursors

A cursor is a place in a text together with the characters that follow it. The functions here move
it over runs of blanks, comments and line breaks. -/

namespace Manifest.Yaml

/-- The rest of a text and the mark in front of it. -/
structure Cursor where
  rest : List Char
  mark : Mark
  /-- Only blanks have been passed on this line so far. -/
  leading : Bool
deriving DecidableEq, Repr

namespace Cursor

/-- The start of a text. A NUL character ends the text. -/
def ofText (s : String) : Cursor := ⟨s.toList.takeWhile (· != '\x00'), .origin, true⟩

/-- The cursor moved over `n` characters that are no line breaks. -/
def skip (c : Cursor) (n : Nat) : Cursor := ⟨c.rest.drop n, c.mark.right n, c.leading⟩

/-- The cursor moved over `n` characters of a token. -/
def take (c : Cursor) (n : Nat) : Cursor := ⟨c.rest.drop n, c.mark.right n, false⟩

/-- The cursor moved over one line break, if one comes next. -/
def skipBreak (c : Cursor) : Cursor :=
  match c.rest with
  | '\r' :: '\n' :: rest => ⟨rest, c.mark.nextLine 2, true⟩
  | '\n' :: rest => ⟨rest, c.mark.nextLine 1, true⟩
  | '\r' :: rest => ⟨rest, c.mark.nextLine 1, true⟩
  | _ => c

/-- The cursor moved over the characters of a class. -/
def skipWhile (c : Cursor) (p : Char → Bool) : Cursor := c.skip (c.rest.takeWhile p).length

/-- The column as an integer, to compare with an indentation. -/
def column (c : Cursor) : Int := c.mark.column

/-- The end of the text comes next. -/
def atEnd (c : Cursor) : Bool := c.rest.isEmpty

/-- A fault at the cursor. -/
def fail {α : Type} (c : Cursor) (cause : Cause) : Except Fault α := .error ⟨cause, c.mark⟩

/-- What lies between a token and the end of its line, and whether blanks of each kind were in it. -/
structure LineRest where
  cursor : Cursor
  sawTab : Bool
  sawSpace : Bool

/-- The cursor moved over the blanks in front of it and a comment behind them. Tabs count as blanks
only where `tabs` says so. A comment with no blank in front of it is a fault. -/
def skipLineRest (c : Cursor) (tabs : Bool) : Except Fault LineRest :=
  let blanks := c.rest.takeWhile fun x => x == ' ' || (tabs && x == '\t')
  let c := c.skip blanks.length
  if c.rest.head? = some '#' then
    if blanks.isEmpty then c.fail .commentNotSeparated
    else .ok ⟨c.skipWhile (!isBreak ·), blanks.contains '\t', blanks.contains ' '⟩
  else .ok ⟨c, blanks.contains '\t', blanks.contains ' '⟩

/-! ### Gaps between tokens -/

/-- The outcome of passing a gap: where it ends, and whether a line break lay in it. -/
structure Gap where
  cursor : Cursor
  crossedLine : Bool

/-- Passes blanks, line breaks and comments from the characters `rest` at `mark`. Inside a comment
(`comment`) all up to the next line break is passed. A tab that stands where `indent` demands
spaces is a fault unless the rest of its line is blank; `indent` is `none` outside every block. -/
def passGap (indent : Option Int) :
    (rest : List Char) → (mark : Mark) → (leading comment crossed : Bool) → Except Fault Gap
  | [], mark, leading, _, crossed => .ok ⟨⟨[], mark, leading⟩, crossed⟩
  | '\r' :: '\n' :: rest, mark, _, _, _ => passGap indent rest (mark.nextLine 2) true false true
  | c :: rest, mark, leading, comment, crossed =>
    if isBreak c then passGap indent rest (mark.nextLine 1) true false true
    else if comment then passGap indent rest (mark.right 1) leading true crossed
    else if c == '#' then passGap indent rest (mark.right 1) leading true crossed
    else if c == ' ' then passGap indent rest (mark.right 1) leading false crossed
    else if c == '\t' then
      let line : Cursor := (Cursor.mk rest (mark.right 1) leading).skipWhile isBlank
      if leading && indent.any ((mark.column : Int) < ·) && !atBreak line.rest
          && line.rest.head? != some '#' then
        line.fail .tabInBlockIndentation
      else passGap indent rest (mark.right 1) leading false crossed
    else .ok ⟨⟨c :: rest, mark, leading⟩, crossed⟩

/-- Passes the gap in front of the next token. -/
def skipGap (c : Cursor) (indent : Option Int) : Except Fault Gap :=
  passGap indent c.rest c.mark c.leading false false

/-- Passes spaces, line breaks and comments, but no tabs, behind the indicator of an explicit key.
The flag `seen` says that a space or a line break has been passed. -/
def passKeyGap :
    (rest : List Char) → (mark : Mark) → (leading comment crossed seen : Bool) → Gap × Bool
  | [], mark, leading, _, crossed, seen => (⟨⟨[], mark, leading⟩, crossed⟩, seen)
  | '\r' :: '\n' :: rest, mark, _, _, _, _ => passKeyGap rest (mark.nextLine 2) true false true true
  | c :: rest, mark, leading, comment, crossed, seen =>
    if isBreak c then passKeyGap rest (mark.nextLine 1) true false true true
    else if comment then passKeyGap rest (mark.right 1) leading true crossed seen
    else if c == '#' then passKeyGap rest (mark.right 1) leading true crossed seen
    else if c == ' ' then passKeyGap rest (mark.right 1) leading false crossed true
    else (⟨⟨c :: rest, mark, leading⟩, crossed⟩, seen)

/-- Passes the gap behind the indicator of an explicit key, which must not be empty. -/
def skipKeyGap (c : Cursor) : Except Fault Gap :=
  match passKeyGap c.rest c.mark c.leading false false false with
  | (gap, true) => .ok gap
  | (gap, false) => gap.cursor.fail .whitespaceExpected

end Cursor

end Manifest.Yaml
