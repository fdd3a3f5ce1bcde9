/-! # JSON values

Values of JSON as the program's own data need them: whole numbers that fit into 64 bits are numbers,
any other number is kept as it was written. The fields of an object stand in their written order. -/

namespace Manifest

/-- A JSON value. -/
inductive Json
  | null
  | bool (b : Bool)
  | nat (n : Nat)
  /-- A number that is negative, has a fraction or an exponent, or does not fit into 64 bits. -/
  | number (text : String)
  | string (s : String)
  | array (items : List Json)
  | object (fields : List (String × Json))
deriving Repr, Inhabited

namespace Json

/-- The text of a string. -/
def string? : Json → Option String
  | string s => some s
  | _ => none

/-- The number, if it is whole and fits into 64 bits. -/
def nat? : Json → Option Nat
  | nat n => some n
  | _ => none

/-- The truth value. -/
def bool? : Json → Option Bool
  | bool b => some b
  | _ => none

/-- The items of an array. -/
def array? : Json → Option (List Json)
  | array items => some items
  | _ => none

/-- The fields of an object. -/
def object? : Json → Option (List (String × Json))
  | object fields => some fields
  | _ => none

/-- A field whose value may be left out. -/
def optionalField (key : String) : Option String → List (String × Json)
  | some s => [(key, string s)]
  | none => []

end Json

end Manifest
