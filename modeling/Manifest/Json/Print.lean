import Manifest.Json

/-! # Printing JSON

The layout gives each item and each field a line of its own, two spaces deeper than the brackets
around it; empty brackets stay on their line. In strings, quotes, backslashes and the control
characters below U+0020 are escaped, all else stands as it is. -/

namespace Manifest.Json

/-- A lower-case hexadecimal digit. -/
def hexDigit (n : Nat) : Char := Nat.digitChar (n % 16)

/-- A character inside a string. -/
def escapeChar (c : Char) : List Char :=
  match c with
  | '"' => ['\\', '"']
  | '\\' => ['\\', '\\']
  | '\x08' => ['\\', 'b']
  | '\x0c' => ['\\', 'f']
  | '\n' => ['\\', 'n']
  | '\r' => ['\\', 'r']
  | '\t' => ['\\', 't']
  | c =>
    if c.toNat < 0x20 then ['\\', 'u', '0', '0', hexDigit (c.toNat / 16), hexDigit c.toNat]
    else [c]

/-- A string with its quotes. -/
def quote (s : String) : List Char := '"' :: s.toList.flatMap escapeChar ++ ['"']

/-- The line break in front of an item or a bracket, and the spaces behind it. -/
def newline (depth : Nat) : List Char := '\n' :: List.replicate (2 * depth) ' '

mutual

/-- A value that stands inside `depth` brackets. -/
def printAt (depth : Nat) : Json → List Char
  | null => "null".toList
  | bool true => "true".toList
  | bool false => "false".toList
  | nat n => (toString n).toList
  | number text => text.toList
  | string s => quote s
  | array [] => ['[', ']']
  | array (item :: items) =>
    '[' :: (newline (depth + 1) ++ printAt (depth + 1) item ++ printItems (depth + 1) items
      ++ newline depth ++ [']'])
  | object [] => ['{', '}']
  | object ((key, value) :: fields) =>
    '{' :: (newline (depth + 1) ++ quote key ++ ": ".toList ++ printAt (depth + 1) value
      ++ printFields (depth + 1) fields ++ newline depth ++ ['}'])

/-- The items behind the first one, each with the comma in front of it. -/
def printItems (depth : Nat) : List Json → List Char
  | [] => []
  | item :: items => ',' :: (newline depth ++ printAt depth item ++ printItems depth items)

/-- The fields behind the first one, each with the comma in front of it. -/
def printFields (depth : Nat) : List (String × Json) → List Char
  | [] => []
  | (key, value) :: fields =>
    ',' :: (newline depth ++ quote key ++ ": ".toList ++ printAt depth value
      ++ printFields depth fields)

end

/-- The text of a value. -/
def print (j : Json) : String := String.ofList (printAt 0 j)

end Manifest.Json
