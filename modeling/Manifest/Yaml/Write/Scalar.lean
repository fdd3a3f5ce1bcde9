import Manifest.Yaml.Write.Literal

/-! # Writing scalars

A string with a line feed is written as a literal block, one that would be read as something else in
single quotes, any other plain. Where the characters of the string rule the style out, the next
stronger one is taken: single quotes for plain, double quotes for the others. Only double quotes can
hold every string. -/

namespace Manifest.Yaml.Write

/-- The styles that a writer chooses from. -/
inductive Quoting
  | plain
  | single
  | double
  | literal
deriving DecidableEq, Repr

/-! ### What a string holds -/

/-- A line break of YAML 1.1. -/
def isLineBreak (c : Char) : Bool :=
  c == '\n' || c == '\r' || c == '\u0085' || c == '\u2028' || c == '\u2029'

/-- The character may stand in a YAML text as it is. -/
def isPrintable (c : Char) : Bool :=
  let n := c.toNat
  n == 0x0a || (0x20 ≤ n && n ≤ 0x7e) || (0xa0 ≤ n && n ≤ 0xd7ff)
    || (0xe000 ≤ n && n ≤ 0xfffd && n != 0xfeff) || 0x10000 ≤ n

/-- A space, a tab or a line break. -/
def isWhite (c : Char) : Bool := c == ' ' || c == '\t' || isLineBreak c

/-- White space or the end comes next. -/
def atWhite : List Char → Bool
  | [] => true
  | c :: _ => isWhite c || c == '\x00'

/-- Characters that cannot start a plain scalar. -/
def isIndicator (c : Char) : Bool := "#,[]{}&*!|>'\"%@`".toList.contains c

/-- The first character, in front of `rest`, has a meaning of its own. -/
def indicatesFirst (c : Char) (rest : List Char) : Bool :=
  isIndicator c || ((c == '?' || c == ':' || c == '-') && atWhite rest)

/-- Behind the first character, a colon in front of white space or a number sign behind it has a
meaning of its own. -/
def indicatesLater : (afterWhite : Bool) → List Char → Bool
  | _, [] => false
  | afterWhite, c :: rest =>
    (c == ':' && atWhite rest) || (c == '#' && afterWhite)
      || indicatesLater (isWhite c || c == '\x00') rest

/-- The string holds something that has a meaning of its own in a plain scalar. -/
def hasIndicator (cs : List Char) : Bool :=
  match cs with
  | [] => false
  | c :: rest =>
    ['-', '-', '-'].isPrefixOf cs || ['.', '.', '.'].isPrefixOf cs || indicatesFirst c rest
      || indicatesLater (isWhite c || c == '\x00') rest

/-- Two neighbouring characters of the string belong to two classes. -/
def hasPair (p q : Char → Bool) : List Char → Bool
  | a :: b :: rest => (p a && q b) || hasPair p q (b :: rest)
  | _ => false

/-- A character that no style but double quotes can hold, or a space in front of a line break. -/
def isSpecial (cs : List Char) : Bool :=
  cs.any (!isPrintable ·) || hasPair (· == ' ') isLineBreak cs

/-- The string starts or ends with a space or a line break. -/
def hasOuterWhite (cs : List Char) : Bool :=
  let outer := fun c => c == ' ' || isLineBreak c
  cs.head?.any outer || cs.getLast?.any outer

/-- The string can be written plain. -/
def plainAllowed (cs : List Char) : Bool :=
  !isSpecial cs && !hasOuterWhite cs && !cs.any isLineBreak && !hasIndicator cs

/-- The string can be written in single quotes. -/
def singleAllowed (cs : List Char) : Bool := !isSpecial cs && !hasPair isLineBreak (· == ' ') cs

/-- The string can be written as a literal block. -/
def literalAllowed (cs : List Char) : Bool := !isSpecial cs && cs.getLast? != some ' '

/-- The style that a string is written in. -/
def quoting (s : String) : Quoting :=
  let cs := s.toList
  if cs.contains '\n' then if literalAllowed cs then .literal else .double
  else if !isAmbiguous s && plainAllowed cs then .plain
  else if singleAllowed cs then .single
  else .double

/-! ### The styles -/

/-- A row of spaces. -/
def spaces (n : Nat) : List Char := List.replicate n ' '

/-- The characters inside single quotes. A line break is followed by the indentation. -/
def singleBody (indent : Nat) : (broken : Bool) → List Char → List Char
  | broken, [] => if broken then spaces indent else []
  | broken, c :: rest =>
    if isLineBreak c then c :: singleBody indent true rest
    else
      (if broken then spaces indent else []) ++ (if c == '\'' then ['\'', '\''] else [c])
        ++ singleBody indent false rest

/-- A hexadecimal digit in upper case. -/
def upperHexDigit (n : Nat) : Char := (Nat.digitChar (n % 16)).toUpper

/-- The last `width` hexadecimal digits of a number. -/
def hexDigits : (width : Nat) → (n : Nat) → List Char
  | 0, _ => []
  | width + 1, n => hexDigits width (n / 16) ++ [upperHexDigit n]

/-- The escape of a character inside double quotes, without its backslash. -/
def escapeOf (c : Char) : List Char :=
  match c with
  | '\x00' => ['0']
  | '\x07' => ['a']
  | '\x08' => ['b']
  | '\t' => ['t']
  | '\n' => ['n']
  | '\x0b' => ['v']
  | '\x0c' => ['f']
  | '\r' => ['r']
  | '\x1b' => ['e']
  | '"' => ['"']
  | '\\' => ['\\']
  | '\u0085' => ['N']
  | '\u00a0' => ['_']
  | '\u2028' => ['L']
  | '\u2029' => ['P']
  | c =>
    if c.toNat ≤ 0xff then 'x' :: hexDigits 2 c.toNat
    else if c.toNat ≤ 0xffff then 'u' :: hexDigits 4 c.toNat
    else 'U' :: hexDigits 8 c.toNat

/-- A character inside double quotes. -/
def doubleChar (c : Char) : List Char :=
  if !isPrintable c || isLineBreak c || c == '"' || c == '\\' then '\\' :: escapeOf c else [c]

/-- What stands behind the bar of a literal block: the width of the indentation, if the string
starts with white space, and whether line breaks at its end are dropped or kept. -/
def literalHeader (cs : List Char) : List Char :=
  let width := if cs.head?.any fun c => c == ' ' || isLineBreak c then ['2'] else []
  let chomping := match cs.reverse with
    | [] => ['-']
    | [c] => if isLineBreak c then ['+'] else ['-']
    | c :: d :: _ => if !isLineBreak c then ['-'] else if isLineBreak d then ['+'] else []
  width ++ chomping

/-- The lines of a literal block, each behind the indentation. Empty lines stay empty. -/
def literalBody (indent : Nat) : (lineStart : Bool) → List Char → List Char
  | _, [] => []
  | lineStart, c :: rest =>
    if isLineBreak c then c :: literalBody indent true rest
    else (if lineStart then spaces indent else []) ++ c :: literalBody indent false rest

/-- A string as a value whose continuation lines are indented by `indent`, with the end of its
line. A literal block that ends with a line break has ended its line. -/
def scalarLine (indent : Nat) (s : String) : List Char :=
  let cs := s.toList
  match quoting s with
  | .plain => cs ++ ['\n']
  | .single => '\'' :: (singleBody indent false cs ++ ['\'', '\n'])
  | .double => '"' :: (cs.flatMap doubleChar ++ ['"', '\n'])
  | .literal =>
    '|' :: (literalHeader cs ++ '\n' :: literalBody indent true cs
      ++ (if cs.getLast?.any isLineBreak then [] else ['\n']))

end Manifest.Yaml.Write
