/-! # TOML values

Values of TOML as settings need them. A table remembers how it came to be, because that decides what
may still be added to it. -/

namespace Manifest

/-- How a table came to be. -/
inductive Toml.Origin
  /-- It has a header of its own, or is the table of the whole text. -/
  | header
  /-- It stands in the header of a table below it. -/
  | implied
  /-- It stands in a dotted key. -/
  | dotted
  /-- It is written in braces. -/
  | inline
deriving DecidableEq, Repr

/-- A TOML value. -/
inductive Toml
  | string (s : String)
  | integer (n : Int)
  | bool (b : Bool)
  /-- A float, a date or a time. -/
  | other
  | array (items : List Toml)
  | table (origin : Toml.Origin) (entries : List (String × Toml))
  /-- Tables of one header that stands in double brackets; there is at least one. -/
  | tables (items : List (List (String × Toml)))
deriving Inhabited

namespace Toml

/-- The text of a string. -/
def asString? : Toml → Option String
  | string s => some s
  | _ => none

/-- The truth value. -/
def asBool? : Toml → Option Bool
  | bool b => some b
  | _ => none

/-- The number, if it is not negative. -/
def asNat? : Toml → Option Nat
  | integer n => n.toNat?
  | _ => none

/-- The items of an array. -/
def asItems? : Toml → Option (List Toml)
  | array items => some items
  | tables items => some (items.map (table .header))
  | _ => none

/-- The value of a key in a table. -/
def valueOf? (entries : List (String × Toml)) (key : String) : Option Toml :=
  match entries with
  | [] => none
  | (k, v) :: rest => if k = key then some v else valueOf? rest key

/-- The values of some keys, each of which may be missing. An array gives them by position. -/
def settings? (keys : List String) : Toml → Option (List (Option Toml))
  | table _ entries => some (keys.map (valueOf? entries))
  | t => t.asItems?.map fun items => keys.zipIdx.map fun (_, i) => items[i]?

end Toml

end Manifest
