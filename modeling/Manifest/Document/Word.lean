import Manifest.Document
import Manifest.Text.Digit

/-! # Look-ups in 64-bit arithmetic

The look-ups of `Document` as a machine runs them: offsets are words of 64 bits, the text lies in
UTF-8 bytes, and two tables, filled in one pass over the text, give the byte offset of every
character and the offset at which every line starts. Each addition, subtraction, table access and cut
of the text is a step that can fault; a step whose result is not used in the end is taken all the
same. -/

namespace Manifest.Document.Word

/-- What a machine step can do wrong. -/
inductive Fault
  /-- A sum that is not a word of 64 bits. -/
  | overflow
  /-- A difference below zero. -/
  | underflow
  /-- A table access beyond the end of the table. -/
  | outOfRange
  /-- A cut of the text whose end lies in front of its start. -/
  | reversed
  /-- A cut of the text inside a character. -/
  | splitCharacter
deriving DecidableEq, Repr

/-- A computation of machine steps. -/
abbrev Run := Except Fault

/-- The sum of two words. -/
def add (a b : Nat) : Run Nat := if a + b < Text.wordCount then .ok (a + b) else .error .overflow

/-- The difference of two words. -/
def sub (a b : Nat) : Run Nat := if b ≤ a then .ok (a - b) else .error .underflow

/-- The entry of a table. -/
def access {α : Type} (table : List α) (i : Nat) : Run α :=
  match table[i]? with
  | some a => .ok a
  | none => .error .outOfRange

/-- The byte offsets at which the characters of `cs` begin, where `cs` begins at byte `b`, and the
byte offset of its end. -/
def byteStarts (b : Nat) : List Char → List Nat
  | [] => [b]
  | c :: cs => b :: byteStarts (b + c.utf8Size) cs

/-- The document with its two tables. -/
structure Tables where
  document : Document
  byteStarts : List Nat
  lineStarts : List Nat

/-- The tables of a document. -/
def tables (d : Document) : Tables := ⟨d, byteStarts 0 d.chars, d.lineStarts⟩

/-- The pass over a text that fills both tables: the offset and the byte offset of the next character,
and the entries so far. -/
structure Pass where
  offset : Nat
  byte : Nat
  byteStarts : Array Nat
  lineStarts : Array Nat

/-- The pass in front of the first character, where the first line starts. -/
def Pass.start : Pass := ⟨0, 0, #[], #[0]⟩

/-- The pass behind the next character. -/
def Pass.take (p : Pass) (c : Char) : Pass where
  offset := p.offset + 1
  byte := p.byte + c.utf8Size
  byteStarts := p.byteStarts.push p.byte
  lineStarts := if c = '\n' then p.lineStarts.push (p.offset + 1) else p.lineStarts

namespace Tables

/-- The tables of a text, filled in one pass over its document. The size of the text closes the table
of byte offsets. -/
def ofText (s : String) : Tables :=
  let d := Document.ofText s
  let p := d.chars.foldl Pass.take .start
  ⟨d, (p.byteStarts.push d.text.utf8ByteSize).toList, p.lineStarts.toList⟩

variable (t : Tables)

/-- The number of characters, read off the table of byte offsets. -/
def size : Run Nat := sub t.byteStarts.length 1

/-- The characters between two byte offsets. -/
def cut (start stop : Nat) : Run (List Char) :=
  if stop < start then .error .reversed
  else match t.byteStarts.idxOf? start, t.byteStarts.idxOf? stop with
    | some i, some j => .ok ((t.document.chars.drop i).take (j - i))
    | _, _ => .error .splitCharacter

/-- The byte offset of a character offset; an offset beyond the end gives the end of the text. -/
def toByte (i : Nat) : Nat := t.byteStarts[i]?.getD (t.byteStarts.getLastD 0)

/-- The length of a span. -/
def length (s : Span) : Run Nat := sub s.stop s.start

/-- The character at an offset. -/
def charAt? (i : Nat) : Run (Option Char) := do
  if (← t.size) ≤ i then return none
  let rest ← t.cut (← access t.byteStarts i) (t.byteStarts.getLastD 0)
  return rest.head?

/-- The characters from one offset to another; there are none if the other lies in front. -/
def textBetween (start stop : Nat) : Run (List Char) :=
  t.cut (t.toByte start) (max (t.toByte stop) (t.toByte start))

/-- The characters under a span. -/
def slice (s : Span) : Run (List Char) := t.textBetween s.start s.stop

/-- The line of an offset: the line that starts there, or the one in front of the place where the
offset would be inserted into the table of line starts. -/
def lineOf? (i : Nat) : Run (Option Nat) := do
  if i > (← t.size) then return none
  match t.lineStarts.idxOf? i with
  | some line => return some line
  | none => return some (← sub (t.lineStarts.countP (· < i)) 1)

/-- The line of an offset, and its distance to the start of that line. -/
def lineColumn? (i : Nat) : Run (Option LineColumn) := do
  match ← t.lineOf? i with
  | none => return none
  | some line => return some ⟨line, ← sub i (← access t.lineStarts line)⟩

/-- Where a line stops: one in front of the start of the next one, or at the end of the text. -/
def lineStop (line : Nat) : Run Nat := do
  let after ← add line 1
  let size ← t.size
  match t.lineStarts[after]? with
  | some next => sub next 1
  | none => return size

/-- Where the region of a line ends that starts and stops at these offsets. -/
def regionEnd (start stop : Nat) : Run Nat := do
  if start < stop then
    let last ← sub stop 1
    if (← t.charAt? last) = some '\r' then sub stop 1 else return stop
  else return stop

/-- The span of a line without its delimiter. -/
def lineRegion? (line : Nat) : Run (Option Span) := do
  match t.lineStarts[line]? with
  | none => return none
  | some start => return some (.between start (← t.regionEnd start (← t.lineStop line)))

/-- The offset of a line and column. The sum is taken before the column is compared. -/
def offsetOf? (line column : Nat) : Run (Option Nat) := do
  match ← t.lineRegion? line with
  | none => return none
  | some region =>
    let size ← length region
    let offset ← add region.start column
    return if column ≤ size then some offset else none

/-- A span widened to whole lines. -/
def lineAligned (s : Span) : Run Span := do
  let lastOffset ← add s.start ((← length s) - 1)
  let size ← t.size
  match ← t.lineOf? s.start, ← t.lineOf? lastOffset with
  | some first, some last =>
    match ← t.lineRegion? first, ← t.lineRegion? last with
    | some firstRegion, some lastRegion =>
      if first = last then return firstRegion
      else return .between firstRegion.start (← add lastRegion.start ((← length lastRegion) - 1))
    | _, _ => return .between 0 size
  | _, _ => return .between 0 size

/-- The search of `trimEnd`: the nearest offset at or in front of `i` that does not hold a blank. -/
def findInk (i : Nat) : Run (Option Nat) := do
  if ((← t.charAt? i).any Text.isBlank) then
    match i with
    | 0 => return none
    | i + 1 => findInk i
  else return some i

/-- An end mark pulled back over the blanks in front of it. -/
def trimEnd (i : Nat) : Run Nat := do
  let size ← t.size
  if size ≤ i then return size
  match ← t.findInk i with
  | none => return 0
  | some o => if o = i then return i else add o 1

/-- The span of a node with the given marks. -/
def nodeSpan (start stop : Nat) : Run Span := do
  let start := min start (← t.size)
  return .between start (max (← t.trimEnd stop) start)

end Tables

end Manifest.Document.Word
