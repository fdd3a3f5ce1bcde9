import Manifest.Json
import Manifest.Text.Digit

/-! # Reading JSON

A reader of JSON texts. Between tokens spaces, tabs and line breaks are passed. A number counts as
whole when it has no sign, no fraction and no exponent and fits into 64 bits. An escape for half of
a surrogate pair must be followed by one for the other half. -/

namespace Manifest.Json

/-- A space, a tab or a line break. -/
def isSpace (c : Char) : Bool := c == ' ' || c == '\n' || c == '\t' || c == '\r'

/-- The text behind the spaces in front of it. -/
def skipSpace (cs : List Char) : List Char := cs.dropWhile isSpace

/-! ### Strings -/

/-- The number of four hexadecimal digits, and the text behind them. -/
def hex4? (cs : List Char) : Option (Nat × List Char) :=
  (Text.hexNumber? 4 cs).map (·, cs.drop 4)

/-- The character of an escape, from behind its `u`. Two escapes can make up one character. -/
def unicodeEscape? (cs : List Char) : Option (Char × List Char) := do
  let (n, rest) ← hex4? cs
  if 0xd800 ≤ n ∧ n < 0xdc00 then
    match rest with
    | '\\' :: 'u' :: rest =>
      let (m, rest) ← hex4? rest
      if 0xdc00 ≤ m ∧ m < 0xe000 then
        return (Char.ofNat (0x10000 + (n - 0xd800) * 0x400 + (m - 0xdc00)), rest)
      else none
    | _ => none
  else if 0xdc00 ≤ n ∧ n < 0xe000 then none
  else return (Char.ofNat n, rest)

/-- The character that a letter behind a backslash stands for. -/
def simpleEscape? : Char → Option Char
  | '"' => some '"'
  | '\\' => some '\\'
  | '/' => some '/'
  | 'b' => some '\x08'
  | 'f' => some '\x0c'
  | 'n' => some '\n'
  | 'r' => some '\r'
  | 't' => some '\t'
  | _ => none

/-- The characters of a string from behind its opening quote. `read` holds those so far in
reverse. -/
def stringBody? : (fuel : Nat) → List Char → (read : List Char) → Option (String × List Char)
  | 0, _, _ => none
  | fuel + 1, cs, read =>
    match cs with
    | [] => none
    | '"' :: rest => some (String.ofList read.reverse, rest)
    | '\\' :: 'u' :: rest =>
      match unicodeEscape? rest with
      | some (c, rest) => stringBody? fuel rest (c :: read)
      | none => none
    | '\\' :: c :: rest =>
      match simpleEscape? c with
      | some c => stringBody? fuel rest (c :: read)
      | none => none
    | c :: rest => if c.toNat < 0x20 || c == '\\' then none else stringBody? fuel rest (c :: read)

/-! ### Numbers -/

/-- The exponent at the start of a text, which may be missing. -/
def exponent? (cs : List Char) : Option (List Char × List Char) :=
  match cs with
  | e :: rest =>
    if e == 'e' || e == 'E' then
      let (sign, rest) := match rest with
        | '+' :: rest => (['+'], rest)
        | '-' :: rest => (['-'], rest)
        | rest => ([], rest)
      let digits := rest.takeWhile Char.isDigit
      if digits.isEmpty then none else some (e :: sign ++ digits, rest.dropWhile Char.isDigit)
    else some ([], e :: rest)
  | [] => some ([], [])

/-- The fraction at the start of a text, which may be missing. -/
def fraction? (cs : List Char) : Option (List Char × List Char) :=
  match cs with
  | '.' :: rest =>
    let digits := rest.takeWhile Char.isDigit
    if digits.isEmpty then none else some ('.' :: digits, rest.dropWhile Char.isDigit)
  | rest => some ([], rest)

/-- The number at the start of a text. A zero stands alone in front of the point. -/
def number? (cs : List Char) : Option (Json × List Char) := do
  let (sign, unsigned) := match cs with
    | '-' :: rest => (['-'], rest)
    | rest => ([], rest)
  let digits := unsigned.takeWhile Char.isDigit
  if digits.isEmpty ∨ (digits.head? = some '0' ∧ digits.length ≠ 1) then none
  else
    let (fraction, rest) ← fraction? (unsigned.dropWhile Char.isDigit)
    let (exponent, rest) ← exponent? rest
    let n := Text.number 10 digits
    if sign.isEmpty ∧ fraction.isEmpty ∧ exponent.isEmpty ∧ n < Text.wordCount then
      return (nat n, rest)
    else return (number (String.ofList (sign ++ digits ++ fraction ++ exponent)), rest)

/-! ### Values -/

/-- The text behind a word, if it starts with the word. -/
def afterWord? : (word : List Char) → List Char → Option (List Char)
  | [], cs => some cs
  | w :: word, c :: cs => if w = c then afterWord? word cs else none
  | _ :: _, [] => none

mutual

/-- The value at the start of a text. -/
def value? : (fuel : Nat) → List Char → Option (Json × List Char)
  | 0, _ => none
  | fuel + 1, cs =>
    match skipSpace cs with
    | '"' :: rest => (stringBody? (rest.length + 1) rest []).map fun (s, rest) => (string s, rest)
    | '[' :: rest =>
      match skipSpace rest with
      | ']' :: rest => some (array [], rest)
      | rest => (items? fuel rest []).map fun (items, rest) => (array items, rest)
    | '{' :: rest =>
      match skipSpace rest with
      | '}' :: rest => some (object [], rest)
      | rest => (fields? fuel rest []).map fun (fields, rest) => (object fields, rest)
    | 'n' :: rest => (afterWord? "ull".toList rest).map (null, ·)
    | 't' :: rest => (afterWord? "rue".toList rest).map (bool true, ·)
    | 'f' :: rest => (afterWord? "alse".toList rest).map (bool false, ·)
    | cs => number? cs

/-- The items of an array up to its bracket. `read` holds those so far in reverse. -/
def items? : (fuel : Nat) → List Char → (read : List Json) → Option (List Json × List Char)
  | 0, _, _ => none
  | fuel + 1, cs, read =>
    match value? fuel cs with
    | none => none
    | some (item, rest) =>
      match skipSpace rest with
      | ']' :: rest => some ((item :: read).reverse, rest)
      | ',' :: rest => items? fuel rest (item :: read)
      | _ => none

/-- The fields of an object up to its brace. `read` holds those so far in reverse. -/
def fields? : (fuel : Nat) → List Char → (read : List (String × Json)) →
    Option (List (String × Json) × List Char)
  | 0, _, _ => none
  | fuel + 1, cs, read =>
    match skipSpace cs with
    | '"' :: rest =>
      match stringBody? (rest.length + 1) rest [] with
      | none => none
      | some (key, rest) =>
        match skipSpace rest with
        | ':' :: rest =>
          match value? fuel rest with
          | none => none
          | some (value, rest) =>
            match skipSpace rest with
            | '}' :: rest => some (((key, value) :: read).reverse, rest)
            | ',' :: rest => fields? fuel rest ((key, value) :: read)
            | _ => none
        | _ => none
    | _ => none

end

/-- The value that a text consists of. -/
def parse? (s : String) : Option Json :=
  let cs := s.toList
  match value? (cs.length + 1) cs with
  | some (j, rest) => if (skipSpace rest).isEmpty then some j else none
  | none => none

end Manifest.Json
