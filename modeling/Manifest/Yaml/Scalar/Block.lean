import Manifest.Yaml.Cursor

/-! # Block scalars

A literal block scalar keeps the line breaks of its lines, a folded one turns a single break between
two lines that do not start with a blank into a space. The header may give the indentation of the
lines and how the breaks behind the last line are kept. -/

namespace Manifest.Yaml.Block

/-- What becomes of the line breaks behind the last line. -/
inductive Chomping
  | clip
  | strip
  | keep
deriving DecidableEq, Repr

/-- What the header of a block scalar says. -/
structure Header where
  chomping : Chomping
  increment : Nat
  cursor : Cursor

/-- The chomping that an indicator asks for. -/
def chomping? : List Char → Option Chomping
  | '+' :: _ => some .keep
  | '-' :: _ => some .strip
  | _ => none

/-- The digit that comes next. -/
def digit? : List Char → Option Nat
  | c :: _ => if c.isDigit then some (c.toNat - '0'.toNat) else none
  | [] => none

/-- Reads the indicators of a header, in either order, from behind the indicator of the scalar. -/
def readHeader (c : Cursor) : Except Cause Header :=
  match chomping? c.rest with
  | some chomping =>
    let c := c.take 1
    match digit? c.rest with
    | some 0 => .error .blockIndentZero
    | some n => .ok ⟨chomping, n, c.take 1⟩
    | none => .ok ⟨chomping, 0, c⟩
  | none =>
    match digit? c.rest with
    | some 0 => .error .blockIndentZero
    | some n =>
      let c := c.take 1
      match chomping? c.rest with
      | some chomping => .ok ⟨chomping, n, c.take 1⟩
      | none => .ok ⟨.clip, n, c⟩
    | none => .ok ⟨.clip, 0, c⟩

/-- The outcome of passing the indentation of lines, and of lines that hold nothing else. -/
structure Margin where
  cursor : Cursor
  /-- The number of line breaks passed. -/
  breaks : Nat
  /-- The greatest column that the spaces reached. -/
  widest : Nat

/-- Passes spaces and line breaks; on each line no spaces from column `limit` on, if it is given. -/
def passMargin (limit : Option Nat) :
    (rest : List Char) → (mark : Mark) → (leading : Bool) → (breaks widest : Nat) → Margin
  | [], mark, leading, breaks, widest => ⟨⟨[], mark, leading⟩, breaks, max widest mark.column⟩
  | '\r' :: '\n' :: rest, mark, _, breaks, widest =>
    passMargin limit rest (mark.nextLine 2) true (breaks + 1) (max widest mark.column)
  | c :: rest, mark, leading, breaks, widest =>
    if isBreak c then
      passMargin limit rest (mark.nextLine 1) true (breaks + 1) (max widest mark.column)
    else if c == ' ' && limit.all (mark.column < ·) then
      passMargin limit rest (mark.right 1) leading breaks widest
    else ⟨⟨c :: rest, mark, leading⟩, breaks, max widest mark.column⟩

/-- Passes the margin in front of the cursor. -/
def skipMargin (c : Cursor) (limit : Option Nat) : Margin :=
  passMargin limit c.rest c.mark c.leading 0 0

/-- The content lines of a block scalar. -/
structure Body where
  /-- The text so far, newest first. -/
  text : List Char
  cursor : Cursor
  /-- A line break stands behind the last line. -/
  broken : Bool
  /-- The number of line breaks behind that one. -/
  breaks : Nat

/-- What stands between two content lines: in a folded scalar a single break between lines that do
not start with a blank becomes a space. -/
def joint (literal : Bool) (broken : Bool) (breaks : Nat) (afterBlank beforeBlank : Bool) :
    List Char :=
  if !literal && broken && !afterBlank && !beforeBlank then
    if breaks = 0 then [' '] else List.replicate breaks '\n'
  else List.replicate (breaks + broken.toNat) '\n'

/-- Reads content lines as long as they are indented to column `indent`. The arguments behind the
cursor are the text so far in reverse, whether a break stands behind it, the number of further
breaks, and whether the last line started with a blank. -/
def lines (literal : Bool) (indent : Nat) :
    (fuel : Nat) → Cursor → List Char → (broken : Bool) → (breaks : Nat) → (afterBlank : Bool) → Body
  | 0, c, text, broken, breaks, _ => ⟨text, c, broken, breaks⟩
  | fuel + 1, c, text, broken, breaks, afterBlank =>
    if c.mark.column ≠ indent ∨ c.atEnd ∨ (indent = 0 ∧ atMarker '.' c.rest) then
      ⟨text, c, broken, breaks⟩
    else
      let blank := nextIs isBlank c.rest
      let line := c.rest.takeWhile (!isBreak ·)
      let text := line.reverse ++ (joint literal broken breaks afterBlank blank ++ text)
      let c := c.skip line.length
      if c.atEnd then ⟨text, c, false, 0⟩
      else
        let margin := skipMargin c.skipBreak (some indent)
        lines literal indent fuel margin.cursor text true margin.breaks blank

/-- A block scalar: its text, its start and the cursor behind it. -/
structure Scanned where
  text : String
  start : Mark
  cursor : Cursor

/-- The text of a scalar without content lines. -/
def emptyText (chomping : Chomping) (sameLine broken : Bool) (breaks : Nat) : List Char :=
  match chomping with
  | .strip => []
  | .clip => if sameLine || !broken then [] else ['\n']
  | .keep =>
    if sameLine then [] else if breaks = 0 then List.replicate broken.toNat '\n'
    else List.replicate breaks '\n'

/-- The line breaks behind the last content line. -/
def tail (chomping : Chomping) (indent : Nat) (b : Body) : List Char :=
  match chomping with
  | .strip => []
  | .clip => final
  | .keep => final ++ List.replicate b.breaks '\n'
where
  /-- A last line that the end of the text cuts off gets its break too. -/
  final : List Char :=
    List.replicate b.broken.toNat '\n'
      ++ (if b.cursor.atEnd ∧ max indent 1 ≤ b.cursor.mark.column then ['\n'] else [])

/-- Reads a block scalar from its indicator, inside a block at column `parent` (−1 outside). -/
def scan (literal : Bool) (parent : Int) (c : Cursor) : Except Fault Scanned := do
  let start := c.mark
  let fault (cause : Cause) : Except Fault Scanned := .error ⟨cause, start⟩
  match readHeader (c.take 1) with
  | .error e => fault e
  | .ok header =>
    let line := (← header.cursor.skipLineRest true).cursor
    if !atBreak line.rest then fault .blockHeader
    else
      let broken := !line.atEnd
      let first := line.skipBreak
      if nextIs (· == '\t') first.rest then fault .blockStartsWithTab
      else
        let given := if header.increment = 0 then 0 else (max parent 0 + header.increment).toNat
        let margin := skipMargin first (if given = 0 then none else some given)
        let indent :=
          if given = 0 then max (max margin.widest (parent + 1).toNat) (if parent > 0 then 1 else 0)
          else given
        let c := margin.cursor
        if c.atEnd then
          let text := emptyText header.chomping (c.mark.line == start.line) broken margin.breaks
          return ⟨String.ofList text, start, c⟩
        else if c.mark.column < indent ∧ c.column > parent then c.fail .blockLineIndentation
        else
          let body := lines literal indent (c.rest.length + 1) c [] false margin.breaks false
          let text := body.text.reverse ++ tail header.chomping indent body
          return ⟨String.ofList text, c.mark, body.cursor⟩

end Manifest.Yaml.Block
