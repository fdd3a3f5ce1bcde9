/-! # Texts that stand for something else than themselves

A plain scalar that spells null, a truth value or a number is not read as a string. These are the
spellings: the words of YAML 1.2, integers in decimal, hexadecimal, octal and binary notation up to
128 bits, and decimal fractions that round to a finite double. Decimal digits behind a leading zero
spell no number, but look like one. -/

namespace Manifest.Yaml.Write

/-- The words for null and the truth values. -/
def words : List String :=
  ["null", "Null", "NULL", "~", "true", "True", "TRUE", "false", "False", "FALSE"]

/-- The words for infinity and for not a number. -/
def floatWords : List String :=
  [".inf", ".Inf", ".INF", "+.inf", "+.Inf", "+.INF", "-.inf", "-.Inf", "-.INF", ".nan", ".NaN",
    ".NAN"]

/-! ### Integers -/

/-- The value of a digit in bases up to sixteen. -/
def digitValue? (c : Char) : Option Nat :=
  if c.isDigit then some (c.toNat - '0'.toNat)
  else if 'a' ≤ c ∧ c ≤ 'f' then some (c.toNat - 'a'.toNat + 10)
  else if 'A' ≤ c ∧ c ≤ 'F' then some (c.toNat - 'A'.toNat + 10)
  else none

/-- The value of digits in a base, of which there must be one at least. -/
def number? (base : Nat) (digits : List Char) : Option Nat :=
  if digits.isEmpty then none
  else
    digits.foldl (fun n? c => do
      let n ← n?
      let d ← digitValue? c
      if d < base then some (n * base + d) else none) (some 0)

/-- The sign of a number: whether it is a minus, and the text behind it. -/
def splitSign : List Char → Bool × List Char
  | '-' :: cs => (true, cs)
  | '+' :: cs => (false, cs)
  | cs => (false, cs)

/-- The base of a number and its digits. -/
def splitBase : List Char → Nat × List Char
  | '0' :: 'x' :: cs => (16, cs)
  | '0' :: 'o' :: cs => (8, cs)
  | '0' :: 'b' :: cs => (2, cs)
  | cs => (10, cs)

/-- Two or more decimal digits, the first of which is zero, perhaps behind a sign. -/
def isPadded (cs : List Char) : Bool :=
  let digits := (splitSign cs).2
  digits.head? == some '0' && digits.length > 1 && digits.all Char.isDigit

/-- An integer that fits into 128 bits, with a sign if it is negative. -/
def isInteger (cs : List Char) : Bool :=
  let (minus, unsigned) := splitSign cs
  let (base, digits) := splitBase unsigned
  !isPadded cs && (number? base digits).any fun n =>
    if minus then n ≤ Nat.pow 2 127 else n < Nat.pow 2 128

/-! ### Fractions -/

/-- A decimal fraction `digits · 10 ^ exponent`. -/
structure Decimal where
  digits : Nat
  exponent : Int

/-- Reads an exponent: an `e`, perhaps a sign, and digits; or nothing. -/
def exponent? : List Char → Option Int
  | [] => some 0
  | e :: cs =>
    if e == 'e' || e == 'E' then
      let (minus, digits) := splitSign cs
      (number? 10 digits).map fun n => if minus then -(n : Int) else n
    else none

/-- Reads an unsigned decimal fraction, in which digits may be missing on one side of the point. -/
def decimal? (cs : List Char) : Option Decimal :=
  let whole := cs.takeWhile Char.isDigit
  let rest := cs.dropWhile Char.isDigit
  let (fraction, rest) := match rest with
    | '.' :: rest => (rest.takeWhile Char.isDigit, rest.dropWhile Char.isDigit)
    | rest => ([], rest)
  (number? 10 (whole ++ fraction)).bind fun digits =>
    (exponent? rest).map fun e => ⟨digits, e - fraction.length⟩

/-- The least number that rounds to infinity as a double: half a unit in the last place above the
greatest double. -/
def overflow : Nat := Nat.pow 2 1024 - Nat.pow 2 970

/-- The fraction rounds to a finite double. Powers of ten far away from the limit are not
computed. -/
def Decimal.isFinite (d : Decimal) : Bool :=
  if d.digits = 0 then true
  else
    let length := (Nat.toDigits 10 d.digits).length
    if d.exponent + length > 310 then false
    else if d.exponent + length < 300 then true
    else if d.exponent ≥ 0 then d.digits * Nat.pow 10 d.exponent.toNat < overflow
    else d.digits < overflow * Nat.pow 10 (-d.exponent).toNat

/-- A finite fraction or one of the words for a double. -/
def isFloat (cs : List Char) : Bool :=
  floatWords.contains (String.ofList cs)
    || (!isPadded cs && (decimal? (splitSign cs).2).any Decimal.isFinite)

/-- The text, written plain, would not be read as a string, or looks as if it would not. -/
def isAmbiguous (s : String) : Bool :=
  s.isEmpty || words.contains s || isInteger s.toList || isFloat s.toList || isPadded s.toList

end Manifest.Yaml.Write
