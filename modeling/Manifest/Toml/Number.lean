import Manifest.Text.Digit
import Manifest.Toml

/-! # Numbers, dates and times of TOML

Whole numbers are read with their value, which must fit into 64 bits with a sign. Of floats, dates
and times only the form is read. Underscores may stand between two digits. A reader gives what it
has read and the text behind it. -/

namespace Manifest.Toml

/-! ### Digits -/

/-- The digits behind a first one, without the underscores between them. -/
def moreDigits? (isDigit : Char → Bool) : List Char → Option (List Char × List Char)
  | '_' :: c :: rest =>
    if isDigit c then (moreDigits? isDigit rest).map fun (ds, rest) => (c :: ds, rest) else none
  | c :: rest =>
    if isDigit c then (moreDigits? isDigit rest).map fun (ds, rest) => (c :: ds, rest)
    else if c == '_' then none
    else some ([], c :: rest)
  | [] => some ([], [])

/-- A row of digits. -/
def digits? (isDigit : Char → Bool) : List Char → Option (List Char × List Char)
  | c :: rest =>
    if isDigit c then (moreDigits? isDigit rest).map fun (ds, rest) => (c :: ds, rest) else none
  | [] => none

/-- A sign in front of a number, and whether it is negative. -/
def sign : List Char → Bool × List Char
  | '-' :: rest => (true, rest)
  | '+' :: rest => (false, rest)
  | cs => (false, cs)

/-- A row of decimal digits with no needless zero in front. -/
def decimal? : List Char → Option (List Char × List Char)
  | '0' :: rest => some (['0'], rest)
  | cs => digits? Char.isDigit cs

/-! ### Whole numbers -/

/-- The least and the largest whole number. -/
def integerRange : Int × Int := (-0x8000000000000000, 0x7fffffffffffffff)

/-- A whole number with its sign, if it is in range. -/
def integerOf? (negative : Bool) (n : Nat) : Option Toml :=
  let i : Int := if negative then -n else n
  if integerRange.1 ≤ i ∧ i ≤ integerRange.2 then some (integer i) else none

/-- An octal digit. -/
def isOctal (c : Char) : Bool := '0' ≤ c && c ≤ '7'

/-- A binary digit. -/
def isBinary (c : Char) : Bool := c == '0' || c == '1'

/-- A whole number in a base, from behind the letter for the base. -/
def based? (base : Nat) (isDigit : Char → Bool) (cs : List Char) : Option (Toml × List Char) := do
  let (ds, rest) ← digits? isDigit cs
  let value ← integerOf? false (Text.number base ds)
  return (value, rest)

/-- A whole number. -/
def integer? : List Char → Option (Toml × List Char)
  | '0' :: 'x' :: rest => based? 16 Text.isHex rest
  | '0' :: 'o' :: rest => based? 8 isOctal rest
  | '0' :: 'b' :: rest => based? 2 isBinary rest
  | cs => do
    let (negative, cs) := sign cs
    let (ds, rest) ← decimal? cs
    let value ← integerOf? negative (Text.number 10 ds)
    return (value, rest)

/-! ### Floats -/

/-- The least number that is taken for infinity: halfway between the largest double and the power of
two above it. -/
def infinityBound : Nat := Nat.pow 2 1024 - Nat.pow 2 970

/-- A number times a power of ten is taken for infinity. -/
def isInfinite (digits : List Char) (exponent : Int) : Bool :=
  let digits := digits.dropWhile (· == '0')
  let n := Text.number 10 digits
  let size := digits.length + exponent
  if n = 0 ∨ size < 300 then false
  else if 320 < size then true
  else if 0 ≤ exponent then infinityBound ≤ n * Nat.pow 10 exponent.toNat
  else infinityBound * Nat.pow 10 (-exponent).toNat ≤ n

/-- An exponent, from its letter on. -/
def exponent? : List Char → Option (Int × List Char)
  | c :: rest => do
    if c != 'e' && c != 'E' then none
    let (negative, rest) := sign rest
    let (ds, rest) ← digits? Char.isDigit rest
    let n : Int := Text.number 10 ds
    return (if negative then -n else n, rest)
  | [] => none

/-- An exponent that may be missing. -/
def optionalExponent? (cs : List Char) : Option (Int × List Char) :=
  match cs with
  | 'e' :: _ | 'E' :: _ => exponent? cs
  | cs => some (0, cs)

/-- A float in digits. One that is too large is refused, unless it is negative. -/
def decimalFloat? (cs : List Char) : Option (List Char) := do
  let (negative, cs) := sign cs
  let (whole, cs) ← decimal? cs
  let (fraction, exponent, rest) ← match cs with
    | '.' :: cs => do
      let (fraction, cs) ← digits? Char.isDigit cs
      let (exponent, rest) ← optionalExponent? cs
      some (fraction, exponent, rest)
    | cs => do
      let (exponent, rest) ← exponent? cs
      some ([], exponent, rest)
  if !negative && isInfinite (whole ++ fraction) (exponent - fraction.length) then none
  else some rest

/-- A float, in digits or in words. -/
def float? (cs : List Char) : Option (List Char) :=
  match (sign cs).2 with
  | 'i' :: 'n' :: 'f' :: rest => some rest
  | 'n' :: 'a' :: 'n' :: rest => some rest
  | _ => decimalFloat? cs

/-! ### Dates and times -/

/-- A number of just so many digits that lies between two bounds. -/
def field? (width low high : Nat) (cs : List Char) : Option (Nat × List Char) :=
  let ds := cs.take width
  let n := Text.number 10 ds
  if ds.length = width ∧ ds.all Char.isDigit ∧ low ≤ n ∧ n ≤ high then some (n, cs.drop width)
  else none

/-- The text behind a character. -/
def after? (c : Char) : List Char → Option (List Char)
  | d :: rest => if d = c then some rest else none
  | [] => none

/-- The number of days of a month. -/
def daysIn (year month : Nat) : Nat :=
  if month = 2 then
    if year % 4 = 0 ∧ (year % 100 ≠ 0 ∨ year % 400 = 0) then 29 else 28
  else if month = 4 ∨ month = 6 ∨ month = 9 ∨ month = 11 then 30
  else 31

/-- A date. -/
def date? (cs : List Char) : Option (List Char) := do
  let (year, cs) ← field? 4 0 9999 cs
  let (month, cs) ← field? 2 1 12 (← after? '-' cs)
  let (_, cs) ← field? 2 1 (daysIn year month) (← after? '-' cs)
  return cs

/-- A fraction of a second, which may be missing. -/
def skipFraction (cs : List Char) : List Char :=
  match cs with
  | '.' :: rest => if (rest.takeWhile Char.isDigit).isEmpty then cs else rest.dropWhile Char.isDigit
  | cs => cs

/-- A time of day. -/
def time? (cs : List Char) : Option (List Char) := do
  let (_, cs) ← field? 2 0 23 cs
  let (_, cs) ← field? 2 0 59 (← after? ':' cs)
  let (_, cs) ← field? 2 0 60 (← after? ':' cs)
  return skipFraction cs

/-- The distance of a time from universal time. -/
def offset? (cs : List Char) : Option (List Char) :=
  match cs with
  | 'Z' :: rest | 'z' :: rest => some rest
  | '+' :: rest | '-' :: rest => do
    let (_, cs) ← field? 2 0 23 rest
    let (_, cs) ← field? 2 0 59 (← after? ':' cs)
    return cs
  | _ => none

/-- The time of day behind a date, with its offset; both may be missing. -/
def skipTimeOfDay (cs : List Char) : List Char :=
  match cs with
  | 'T' :: rest | 't' :: rest | ' ' :: rest =>
    match time? rest with
    | some rest => (offset? rest).getD rest
    | none => cs
  | cs => cs

/-- A date, a time, or both. -/
def dateTime? (cs : List Char) : Option (List Char) :=
  match date? cs with
  | some rest => some (skipTimeOfDay rest)
  | none => time? cs

/-! ### Any of them -/

/-- A number, a date or a time. -/
def number? (cs : List Char) : Option (Toml × List Char) :=
  match dateTime? cs with
  | some rest => some (other, rest)
  | none =>
    match float? cs with
    | some rest => some (other, rest)
    | none => integer? cs

end Manifest.Toml
