import Manifest.Toml.Number
import Manifest.Toml.Table
import Manifest.Toml.Text

/-! # Reading TOML

A text is read line by line: a header, an entry, or nothing but a comment. A value of several lines
stands in brackets or in three quotes. Brackets and braces nest at most `nestLimit` deep. -/

namespace Manifest.Toml

/-- How deep brackets and braces nest. -/
def nestLimit : Nat := 79

/-- The text behind a word, if it starts with the word. -/
def afterWord? (word : String) (cs : List Char) : Option (List Char) :=
  let w := word.toList
  if cs.take w.length = w then some (cs.drop w.length) else none

mutual

/-- The value at the start of a text, in at most `levels` brackets. -/
def value? (levels : Nat) : (fuel : Nat) → List Char → Option (Toml × List Char)
  | 0, _ => none
  | fuel + 1, cs =>
    match cs with
    | '"' :: _ | '\'' :: _ => (string? cs).map fun (s, rest) => (string s, rest)
    | '[' :: rest =>
      if levels = 0 then none
      else (items? (levels - 1) fuel rest []).map fun (items, rest) => (array items, rest)
    | '{' :: rest =>
      if levels = 0 then none
      else (entries? (levels - 1) fuel rest []).map fun (entries, rest) =>
        (table .inline entries, rest)
    | 't' :: _ => (afterWord? "true" cs).map (bool true, ·)
    | 'f' :: _ => (afterWord? "false" cs).map (bool false, ·)
    | cs => number? cs

/-- The items of an array up to its bracket. `read` holds those so far in reverse. -/
def items? (levels : Nat) : (fuel : Nat) → List Char → (read : List Toml) →
    Option (List Toml × List Char)
  | 0, _, _ => none
  | fuel + 1, cs, read =>
    match skipLines? false cs with
    | none => none
    | some (']' :: rest) => some (read.reverse, rest)
    | some cs =>
      match value? levels fuel cs with
      | none => none
      | some (item, rest) =>
        match skipLines? false rest with
        | some (']' :: rest) => some ((item :: read).reverse, rest)
        | some (',' :: rest) => items? levels fuel rest (item :: read)
        | _ => none

/-- The entries of a table in braces up to the closing one. -/
def entries? (levels : Nat) : (fuel : Nat) → List Char →
    (read : List (String × Toml)) → Option (List (String × Toml) × List Char)
  | 0, _, _ => none
  | fuel + 1, cs, read =>
    match skipSpace cs, read with
    | '}' :: rest, [] => some ([], rest)
    | cs, read =>
      match key? keyLimit cs with
      | some (keys, '=' :: rest) =>
        match value? levels fuel (skipSpace rest) with
        | none => none
        | some (value, rest) =>
          match add keys value .inline read, skipSpace rest with
          | some read, '}' :: rest => some (read, rest)
          | some read, ',' :: rest => entries? levels fuel rest read
          | _, _ => none
      | _ => none

end

/-! ### Lines -/

/-- A header from behind its opening brackets: the draft with the table opened, and the text behind
the line. -/
def header? (d : Draft) (next : Bool) (cs : List Char) : Option (Draft × List Char) := do
  let (keys, rest) ← key? keyLimit cs
  let rest ← afterWord? (if next then "]]" else "]") rest
  let rest ← afterLine? rest
  return (← d.openTable keys next, rest)

/-- An entry: the draft with the entry added, and the text behind the line. -/
def entryLine? (d : Draft) (cs : List Char) : Option (Draft × List Char) := do
  let (keys, rest) ← key? keyLimit cs
  let rest ← after? '=' rest
  let (value, rest) ← value? nestLimit (rest.length + 1) (skipSpace rest)
  let rest ← afterLine? rest
  return (← d.add keys value, rest)

/-- One line that is not the end of the text. -/
def line? (d : Draft) (cs : List Char) : Option (Draft × List Char) :=
  match cs with
  | '[' :: '[' :: rest => header? d true rest
  | '[' :: rest => header? d false rest
  | '#' :: _ | '\n' :: _ | '\r' :: _ => (afterLine? cs).map (d, ·)
  | cs => entryLine? d cs

/-- All lines of a text. -/
def lines? : (fuel : Nat) → Draft → List Char → Option Draft
  | 0, _, _ => none
  | fuel + 1, d, cs =>
    match skipSpace cs with
    | [] => some d
    | cs =>
      match line? d cs with
      | some (d, rest) => lines? fuel d rest
      | none => none

/-- The table that a text writes. A byte order mark in front of it is passed over. -/
def parse? (text : String) : Option Toml :=
  let cs := match text.toList with
    | '\ufeff' :: rest => rest
    | cs => cs
  (lines? (cs.length + 1) .empty cs).map fun d => table .header d.entries

end Manifest.Toml
