import Manifest.Yaml.Scalar.Fold

/-! # Plain scalars

A plain scalar is a row of words without quotes. A word ends at a blank, at a colon with a blank
behind it and, inside flow collections, at every flow indicator. -/

namespace Manifest.Yaml.Plain

/-- The next character may stand in a word. -/
def continues (inFlow : Bool) : List Char → Bool
  | [] => false
  | c :: rest =>
    !isBlankOrBreak c
      && !(c == ':' && (atBlank rest || (inFlow && nextIs isFlow rest)))
      && !(inFlow && isFlow c)

/-- The word at the start of a text. -/
def word (inFlow : Bool) : List Char → List Char
  | [] => []
  | c :: rest => if continues inFlow (c :: rest) then c :: word inFlow rest else []

/-- The rest of the line holds nothing but blanks and a comment. -/
def atLineRest (cs : List Char) : Bool :=
  let rest := cs.dropWhile isBlank
  atBreak rest || nextIs (· == '#') rest

/-- Passes the blanks and line breaks behind a word. In a line that is not blank, a tab in front of
column `indent` is a fault of the scalar that starts at `start`. -/
def passFold (indent : Int) (start : Mark) :
    (rest : List Char) → (mark : Mark) → (leading comment : Bool) → Fold →
      Except Fault (Fold × Cursor)
  | [], mark, leading, _, fold => .ok (fold, ⟨[], mark, leading⟩)
  | '\r' :: '\n' :: rest, mark, _, _, fold =>
    passFold indent start rest (mark.nextLine 2) true false { fold with breaks := fold.breaks + 1 }
  | c :: rest, mark, leading, comment, fold =>
    if isBreak c then
      passFold indent start rest (mark.nextLine 1) true false { fold with breaks := fold.breaks + 1 }
    else if comment then passFold indent start rest (mark.right 1) leading true fold
    else if isBlank c then
      if !leading then
        passFold indent start rest (mark.right 1) false false
          { fold with blanks := c :: fold.blanks }
      else if c == '\t' && (mark.column : Int) < indent then
        if atLineRest rest then passFold indent start rest (mark.right 1) true true fold
        else .error ⟨.plainTab, start⟩
      else passFold indent start rest (mark.right 1) true false fold
    else .ok (fold, ⟨c :: rest, mark, leading⟩)

/-- A plain scalar: its text, where its last word ends, and the cursor behind the blanks after it. -/
structure Scanned where
  text : String
  stop : Mark
  cursor : Cursor

/-- Reads words until the scalar ends. `text` holds what has been read so far in reverse, `fold`
the gap behind it, and `stop` the end of the last word. -/
def words (inFlow : Bool) (indent : Int) (start : Mark) :
    (fuel : Nat) → Cursor → (text : List Char) → Fold → (stop : Mark) → Except Fault Scanned
  | 0, c, text, _, stop => .ok ⟨String.ofList text.reverse, stop, c⟩
  | fuel + 1, c, text, fold, stop =>
    if (c.leading && atDocumentMarker c.rest) || nextIs (· == '#') c.rest then
      .ok ⟨String.ofList text.reverse, stop, c⟩
    else if inFlow && nextIs (· == '-') c.rest && nextIs isFlow c.rest.tail then
      c.fail .plainDash
    else
      let word := word inFlow c.rest
      let next := if word.isEmpty then c else c.take word.length
      let text := if word.isEmpty then text else word.reverse ++ (fold.text ++ text)
      let stop := if word.isEmpty then stop else next.mark
      if nextIs isBlankOrBreak next.rest then
        match passFold indent start next.rest next.mark next.leading false .none with
        | .error e => .error e
        | .ok (fold, next) =>
          if !inFlow && next.column < indent then .ok ⟨String.ofList text.reverse, stop, next⟩
          else words inFlow indent start fuel next text fold stop
      else .ok ⟨String.ofList text.reverse, stop, next⟩

/-- Reads a plain scalar whose continuation lines reach to column `indent`. It has at least one
word. -/
def scan (inFlow : Bool) (indent : Int) (c : Cursor) : Except Fault Scanned :=
  if inFlow && c.column < indent then c.fail .plainIndentation
  else
    match words inFlow indent c.mark (c.rest.length + 1) c [] .none c.mark with
    | .error e => .error e
    | .ok s => if s.text.isEmpty then c.fail .plainEmpty else .ok s

end Manifest.Yaml.Plain
