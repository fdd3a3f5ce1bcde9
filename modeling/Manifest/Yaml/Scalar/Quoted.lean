import Manifest.Text.Digit
import Manifest.Yaml.Scalar.Fold

/-! # Quoted scalars

In single quotes only the quote itself is special and is written twice. In double quotes a backslash
starts an escape, and a backslash in front of a line break joins the two lines. The text between two
words is folded as in plain scalars. -/

namespace Manifest.Yaml.Quoted

/-- What the character behind a backslash stands for. -/
inductive Escape
  | char (c : Char)
  /-- The code point follows in so many hexadecimal digits. -/
  | code (digits : Nat)

/-- The escapes of double quotes. -/
def escape? : Char → Option Escape
  | '0' => some (.char '\x00')
  | 'a' => some (.char '\x07')
  | 'b' => some (.char '\x08')
  | 't' => some (.char '\t')
  | '\t' => some (.char '\t')
  | 'n' => some (.char '\n')
  | 'v' => some (.char '\x0b')
  | 'f' => some (.char '\x0c')
  | 'r' => some (.char '\r')
  | 'e' => some (.char '\x1b')
  | ' ' => some (.char ' ')
  | '"' => some (.char '"')
  | '/' => some (.char '/')
  | '\\' => some (.char '\\')
  | 'N' => some (.char '\u0085')
  | '_' => some (.char '\u00a0')
  | 'L' => some (.char '\u2028')
  | 'P' => some (.char '\u2029')
  | 'x' => some (.code 2)
  | 'u' => some (.code 4)
  | 'U' => some (.code 8)
  | _ => none

/-- Reads what stands behind a backslash: the character meant, and the number of characters read. -/
def readEscape : List Char → Except Cause (Char × Nat)
  | [] => .error .escapeUnknown
  | c :: rest =>
    match escape? c with
    | none => .error .escapeUnknown
    | some (.char c) => .ok (c, 1)
    | some (.code n) =>
      match Text.hexNumber? n rest with
      | none => .error .escapeNotHexadecimal
      | some v =>
        match Text.charOfCode? v with
        | none => .error .escapeNotCharacter
        | some c => .ok (c, n + 1)

/-- A row of characters without blanks inside quotes. -/
structure Word where
  /-- The characters meant, newest first. -/
  text : List Char
  cursor : Cursor
  /-- The word ended with an escaped line break. -/
  joined : Bool

/-- Reads characters up to a blank, a line break, the closing quote or an escaped line break. `text`
holds what has been read so far in reverse. -/
def word (single : Bool) : (fuel : Nat) → Cursor → (text : List Char) → Except Cause Word
  | 0, c, text => .ok ⟨text, c, false⟩
  | fuel + 1, c, text =>
    match c.rest with
    | [] => .ok ⟨text, c, false⟩
    | x :: rest =>
      if isBlankOrBreak x then .ok ⟨text, c, false⟩
      else if single then
        if x == '\'' then
          if nextIs (· == '\'') rest then word single fuel (c.take 2) ('\'' :: text)
          else .ok ⟨text, c, false⟩
        else word single fuel (c.take 1) (x :: text)
      else if x == '"' then .ok ⟨text, c, false⟩
      else if x == '\\' then
        if nextIs isBreak rest then .ok ⟨text, (c.take 1).skipBreak, true⟩
        else
          match readEscape rest with
          | .error e => .error e
          | .ok (y, n) => word single fuel (c.take (n + 1)) (y :: text)
      else word single fuel (c.take 1) (x :: text)

/-- Passes the blanks and line breaks behind a word. On a line that follows a break, a tab in front
of column `indent` is a fault. -/
def passFold (indent : Int) :
    (rest : List Char) → (mark : Mark) → (leading fresh : Bool) → Fold →
      Except Fault (Fold × Cursor)
  | [], mark, leading, _, fold => .ok (fold, ⟨[], mark, leading⟩)
  | '\r' :: '\n' :: rest, mark, _, _, fold =>
    passFold indent rest (mark.nextLine 2) true true { fold with breaks := fold.breaks + 1 }
  | c :: rest, mark, leading, fresh, fold =>
    if isBreak c then
      passFold indent rest (mark.nextLine 1) true true { fold with breaks := fold.breaks + 1 }
    else if isBlank c then
      if !fresh then
        passFold indent rest (mark.right 1) leading false { fold with blanks := c :: fold.blanks }
      else if c == '\t' && (mark.column : Int) < indent then .error ⟨.quotedTab, mark⟩
      else passFold indent rest (mark.right 1) leading true fold
    else .ok (fold, ⟨c :: rest, mark, leading⟩)

/-- Reads words up to the closing quote. `text` holds what has been read so far in reverse. The
continuation lines reach to column `indent`, and the scalar starts at `start`. -/
def words (single : Bool) (indent : Int) (start : Mark) :
    (fuel : Nat) → Cursor → (text : List Char) → Except Fault (List Char × Cursor)
  | 0, _, _ => .error ⟨.quotedUnclosed, start⟩
  | fuel + 1, c, text =>
    if c.mark.column = 0 ∧ atDocumentMarker c.rest then .error ⟨.quotedDocumentIndicator, start⟩
    else if c.atEnd then .error ⟨.quotedUnclosed, start⟩
    else if c.column < indent then .error ⟨.quotedIndentation, start⟩
    else
      match word single (c.rest.length + 1) c text with
      | .error e => .error ⟨e, start⟩
      | .ok w =>
        if nextIs (· == (if single then '\'' else '"')) w.cursor.rest then
          .ok (w.text, w.cursor.take 1)
        else
          match passFold indent w.cursor.rest w.cursor.mark w.cursor.leading w.joined .none with
          | .error e => .error e
          | .ok (fold, next) =>
            let gap := if w.joined then fold.textEscaped else fold.text
            words single indent start fuel next (gap ++ w.text)

/-- What may follow the closing quote on its line: inside a flow collection its indicators, and a
colon unless the scalar spans several lines outside of flow collections. -/
def mayFollow (inFlow : Bool) (start : Mark) (c : Cursor) : Bool :=
  atBreak c.rest
    || (inFlow && nextIs (fun x => x == ',' || x == '}' || x == ']') c.rest)
    || (nextIs (· == ':') c.rest && (inFlow || start.line == c.mark.line))

/-- A quoted scalar: its text, and the cursor behind the blanks that follow it on its line. -/
structure Scanned where
  text : String
  cursor : Cursor

/-- Reads a quoted scalar from its opening quote. -/
def scan (single inFlow : Bool) (indent : Int) (c : Cursor) : Except Fault Scanned := do
  let (text, closed) ← words single indent c.mark (c.rest.length + 1) (c.take 1) []
  let line ← closed.skipLineRest true
  if mayFollow inFlow c.mark line.cursor then
    return ⟨String.ofList text.reverse, line.cursor⟩
  else line.cursor.fail .quotedTrailing

end Manifest.Yaml.Quoted
