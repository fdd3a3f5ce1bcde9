import Manifest.Text.Digit

/-! # Texts of TOML

Strings, keys, and what stands between values: blanks, comments and line breaks. A line ends with a
line feed, which a carriage return may precede. Control characters other than the tab are nowhere
allowed. A reader gives what it has read and the text behind it. -/

namespace Manifest.Toml

/-! ### Between values -/

/-- A space or a tab. -/
def isSpace (c : Char) : Bool := c == ' ' || c == '\t'

/-- The text behind the spaces in front of it. -/
def skipSpace (cs : List Char) : List Char := cs.dropWhile isSpace

/-- A character that may stand in a comment: a tab, or any character that is no control character of
ASCII. -/
def isPrintable (c : Char) : Bool := c == '\t' || (0x20 ≤ c.toNat && c.toNat != 0x7f)

/-- The text behind a line break. -/
def afterBreak? : List Char → Option (List Char)
  | '\n' :: rest => some rest
  | '\r' :: '\n' :: rest => some rest
  | _ => none

/-- The text behind a comment. -/
def skipComment : List Char → List Char
  | '#' :: rest => rest.dropWhile isPrintable
  | cs => cs

/-- The text behind the end of a line, on which only a comment may stand. -/
def afterLine? (cs : List Char) : Option (List Char) :=
  match skipComment (skipSpace cs) with
  | [] => some []
  | cs => afterBreak? cs

/-- The text behind spaces, line breaks and whole comments. -/
def skipLines? (inComment : Bool) : List Char → Option (List Char)
  | [] => if inComment then none else some []
  | '\n' :: rest => skipLines? false rest
  | '\r' :: '\n' :: rest => skipLines? false rest
  | c :: rest =>
    if inComment then if isPrintable c then skipLines? true rest else none
    else if isSpace c then skipLines? false rest
    else if c == '#' then skipLines? true rest
    else if c == '\r' then none
    else some (c :: rest)

/-! ### Strings -/

/-- The character of an escape, from behind its backslash. -/
def escape? : List Char → Option (Char × List Char)
  | 'b' :: rest => some ('\x08', rest)
  | 'f' :: rest => some ('\x0c', rest)
  | 'n' :: rest => some ('\n', rest)
  | 'r' :: rest => some ('\r', rest)
  | 't' :: rest => some ('\t', rest)
  | '"' :: rest => some ('"', rest)
  | '\\' :: rest => some ('\\', rest)
  | 'u' :: rest => ((Text.hexNumber? 4 rest).bind Text.charOfCode?).map (·, rest.drop 4)
  | 'U' :: rest => ((Text.hexNumber? 8 rest).bind Text.charOfCode?).map (·, rest.drop 8)
  | _ => none

/-- A string in double quotes, from behind the opening one. `read` holds the characters so far in
reverse. -/
def basicString? : (fuel : Nat) → List Char → (read : List Char) → Option (String × List Char)
  | 0, _, _ => none
  | fuel + 1, cs, read =>
    match cs with
    | '"' :: rest => some (String.ofList read.reverse, rest)
    | '\\' :: rest =>
      match escape? rest with
      | some (c, rest) => basicString? fuel rest (c :: read)
      | none => none
    | c :: rest => if isPrintable c then basicString? fuel rest (c :: read) else none
    | [] => none

/-- A string in single quotes, from behind the opening one. -/
def literalString? (cs : List Char) : Option (String × List Char) :=
  let body := cs.takeWhile fun c => isPrintable c && c != '\''
  match cs.drop body.length with
  | '\'' :: rest => some (String.ofList body, rest)
  | _ => none

/-- What a row of `quote`s in a string of several lines means: the quotes that belong to the string,
and the text behind the closing quotes, or `none` if they do not close it. At most two quotes in
front of the closing three belong to the string. -/
def closing? (quote : Char) (cs : List Char) : Option (List Char × List Char) :=
  let count := (cs.takeWhile (· == quote)).length
  if count < 3 then none else some (List.replicate (min count 5 - 3) quote, cs.drop (min count 5))

/-- The text behind a line break that a backslash takes away, with the blank lines behind it, from
behind the backslash. -/
def joined? (cs : List Char) : Option (List Char) :=
  (afterBreak? (skipSpace cs)).map fun rest => go rest
where
  /-- The text behind spaces and line breaks. -/
  go : List Char → List Char
    | '\n' :: rest => go rest
    | '\r' :: '\n' :: rest => go rest
    | c :: rest => if isSpace c then go rest else c :: rest
    | [] => []

/-- A string of several lines, from behind the opening quotes. In double quotes a backslash escapes.
-/
def longString? (quote : Char) :
    (fuel : Nat) → List Char → (read : List Char) → Option (String × List Char)
  | 0, _, _ => none
  | fuel + 1, cs, read =>
    match closing? quote cs with
    | some (quotes, rest) => some (String.ofList (quotes ++ read).reverse, rest)
    | none =>
      match afterBreak? cs with
      | some rest => longString? quote fuel rest ('\n' :: read)
      | none =>
        match cs with
        | [] => none
        | c :: rest =>
          if c = '\\' ∧ quote = '"' then
            match joined? rest with
            | some rest => longString? quote fuel rest read
            | none =>
              match escape? rest with
              | some (c, rest) => longString? quote fuel rest (c :: read)
              | none => none
          else if isPrintable c then longString? quote fuel rest (c :: read)
          else none

/-- The text behind a line break, or the text itself. -/
def dropBreak (cs : List Char) : List Char := (afterBreak? cs).getD cs

/-- A string of any of the four forms, at its opening quote. -/
def string? (cs : List Char) : Option (String × List Char) :=
  match cs with
  | '"' :: '"' :: '"' :: rest => longString? '"' cs.length (dropBreak rest) []
  | '"' :: rest => basicString? cs.length rest []
  | '\'' :: '\'' :: '\'' :: rest => longString? '\'' cs.length (dropBreak rest) []
  | '\'' :: rest => literalString? rest
  | _ => none

/-! ### Keys -/

/-- A character of a key without quotes. -/
def isKeyChar (c : Char) : Bool := c.isAlphanum || c == '_' || c == '-'

/-- One part of a key. -/
def keyPart? (cs : List Char) : Option (String × List Char) :=
  match cs with
  | '"' :: rest => basicString? cs.length rest []
  | '\'' :: rest => literalString? rest
  | cs =>
    let name := cs.takeWhile isKeyChar
    if name.isEmpty then none else some (String.ofList name, cs.drop name.length)

/-- How many parts a key has at most. -/
def keyLimit : Nat := 79

/-- A key with the spaces around its parts, of at most as many parts as the fuel. -/
def key? : (fuel : Nat) → List Char → Option (List String × List Char)
  | 0, _ => none
  | fuel + 1, cs =>
    match keyPart? (skipSpace cs) with
    | none => none
    | some (part, rest) =>
      match skipSpace rest with
      | '.' :: rest => (key? fuel rest).map fun (parts, rest) => (part :: parts, rest)
      | rest => some ([part], rest)

end Manifest.Toml
