import Manifest.Span
import Manifest.Text.Blank

/-! # Documents

A document is the text of a manifest as a list of characters, with look-ups by character offset and
by line. An offset counts characters; lines and columns count from zero. A line ends before its
line feed, and before a carriage return that stands directly in front of that line feed or of the
end of the text.

* `lineOf?` and `lineColumn?` go from an offset to its line and column, `offsetOf?` goes back;
* `lineRegion?` is the span of one line, `lineAligned` widens a span to whole lines;
* `trimEnd` pulls an end mark back over the blanks in front of it, and `nodeSpan` clamps the two
  marks of a node to the text. -/

namespace Manifest

/-- The text of a manifest, character by character. -/
structure Document where
  chars : List Char
deriving DecidableEq, Repr

/-- A line and a column in it, both counted from zero. -/
structure LineColumn where
  line : Nat
  column : Nat
deriving DecidableEq, Repr

namespace Document

/-- The byte order mark. -/
def byteOrderMark : Char := '\ufeff'

/-- The document of a list of characters: one leading byte order mark is dropped. -/
def ofChars : List Char → Document
  | [] => ⟨[]⟩
  | c :: cs => if c = byteOrderMark then ⟨cs⟩ else ⟨c :: cs⟩

/-- The document of a text: one leading byte order mark is dropped. -/
def ofText (s : String) : Document := ofChars s.toList

instance : Inhabited Document := ⟨⟨[]⟩⟩

/-- The text of the document. -/
def text (d : Document) : String := String.ofList d.chars

/-- The number of characters. -/
def size (d : Document) : Nat := d.chars.length

/-- The document has no characters. -/
def isEmpty (d : Document) : Bool := d.chars.isEmpty

/-- The character at an offset. -/
def charAt? (d : Document) (i : Nat) : Option Char := d.chars[i]?

/-- The characters under a span; bounds beyond the end count as the end. -/
def sliceChars (d : Document) (s : Span) : List Char := (d.chars.drop s.start).take s.size

/-- The text under a span. -/
def slice (d : Document) (s : Span) : String := String.ofList (d.sliceChars s)

/-! ### Lines -/

/-- The offsets that follow a line feed of `cs`, where `cs` begins at offset `i`. -/
def startsAfter (i : Nat) : List Char → List Nat
  | [] => []
  | c :: cs => if c = '\n' then (i + 1) :: startsAfter (i + 1) cs else startsAfter (i + 1) cs

/-- The offset at which each line starts. -/
def lineStarts (d : Document) : List Nat := 0 :: startsAfter 0 d.chars

/-- The number of lines: one more than the number of line feeds. -/
def lineCount (d : Document) : Nat := d.chars.count '\n' + 1

/-- The line of an offset: the number of line feeds in front of it. -/
def lineOf? (d : Document) (i : Nat) : Option Nat :=
  if i ≤ d.size then some ((d.chars.take i).count '\n') else none

/-- The line of an offset, and its distance to the start of that line. -/
def lineColumn? (d : Document) (i : Nat) : Option LineColumn := do
  let line ← d.lineOf? i
  let start ← d.lineStarts[line]?
  return ⟨line, i - start⟩

/-- Where the line that starts at `start` and has its line feed (or the end) at `stop` ends: a
carriage return at the end of the line is not part of it. -/
def regionEnd (d : Document) (start stop : Nat) : Nat :=
  if start < stop ∧ d.charAt? (stop - 1) = some '\r' then stop - 1 else stop

/-- The span of a line without its delimiter. -/
def lineRegion? (d : Document) (line : Nat) : Option Span := do
  let start ← d.lineStarts[line]?
  let stop := match d.lineStarts[line + 1]? with
    | some next => next - 1
    | none => d.size
  return .between start (d.regionEnd start stop)

/-- The offset of a line and column, if the line is long enough. -/
def offsetOf? (d : Document) (line column : Nat) : Option Nat := do
  let region ← d.lineRegion? line
  if column ≤ region.size then some (region.start + column) else none

/-- The whole document as a span. -/
def whole (d : Document) : Span := ⟨0, d.size, Nat.zero_le _⟩

/-- A span widened to lines. Inside one line it becomes the region of that line; over several lines
it runs from the start of the first one to one character before the end of the last one. A span
whose start or last offset lies behind the end of the text becomes the whole document. -/
def lineAligned (d : Document) (s : Span) : Span :=
  let aligned? : Option Span := do
    let first ← d.lineOf? s.start
    let last ← d.lineOf? (s.start + (s.size - 1))
    let firstRegion ← d.lineRegion? first
    let lastRegion ← d.lineRegion? last
    if first = last then some firstRegion
    else some (.between firstRegion.start (lastRegion.start + (lastRegion.size - 1)))
  aligned?.getD d.whole

/-! ### Node marks -/

/-- The character at the offset exists and is blank. -/
def blankAt (d : Document) (i : Nat) : Bool := (d.charAt? i).any Text.isBlank

/-- One past the last offset `≤ i` that does not hold a blank, or zero. -/
def lastInk (d : Document) : Nat → Nat
  | 0 => if d.blankAt 0 then 0 else 1
  | i + 1 => if d.blankAt (i + 1) then lastInk d i else i + 2

/-- An end mark that stands on a blank, pulled back to directly behind the last character that is
not blank; a mark at or beyond the end of the text becomes the end of the text. -/
def trimEnd (d : Document) (i : Nat) : Nat :=
  if d.size ≤ i then d.size
  else if d.blankAt i then d.lastInk i
  else i

/-- The span of a node with the given marks: the start clamped to the text, the end trimmed and
never in front of the start. -/
def nodeSpan (d : Document) (start stop : Nat) : Span :=
  .between (min start d.size) (max (d.trimEnd stop) (min start d.size))

end Document

end Manifest
