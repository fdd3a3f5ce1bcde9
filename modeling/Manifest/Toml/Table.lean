import Manifest.Toml

/-! # Building tables

A TOML text is read line by line into one table. A header or a dotted key leads through the tables
above it and makes those that are missing; both are refused where they meet a value that is no
table. A key is given a value once. A dotted key adds only to tables that dotted keys have made, and
a header opens a table once, unless the table has only been implied so far. -/

namespace Manifest.Toml

/-- The entries with the value of a key replaced. -/
def replace (entries : List (String × Toml)) (key : String) (value : Toml) : List (String × Toml) :=
  match entries with
  | [] => []
  | (k, v) :: rest => if k = key then (k, value) :: rest else (k, v) :: replace rest key value

/-- Whether keys lead through a table: a dotted key leads only through tables that no header and no
braces have made, a header through all but those in braces. -/
def leadsThrough (dotted : Bool) : Origin → Bool
  | .header => !dotted
  | .implied | .dotted => true
  | .inline => false

/-- Changes the table that keys lead to, from a table of the given origin and entries. In an array of
tables the last one is meant. -/
def change (dotted : Bool) (f : Origin → List (String × Toml) → Option (List (String × Toml))) :
    List String → Origin → List (String × Toml) → Option (List (String × Toml))
  | [], origin, entries => f origin entries
  | key :: path, _, entries =>
    match valueOf? entries key with
    | none =>
      let made := if dotted then .dotted else .implied
      (change dotted f path made []).map fun sub => entries ++ [(key, table made sub)]
    | some (table origin sub) =>
      if leadsThrough dotted origin then
        (change dotted f path origin sub).map fun sub => replace entries key (table origin sub)
      else none
    | some (tables items) =>
      (change dotted f path .header (items.getLastD [])).map fun last =>
        replace entries key (tables (items.dropLast ++ [last]))
    | some _ => none

/-- Gives a key a value in the table reached. A plain key belongs into a table that is not dotted, the
last key of a dotted one into a table that is. -/
def addHere (key : String) (value : Toml) (isDotted : Bool) (origin : Origin)
    (entries : List (String × Toml)) : Option (List (String × Toml)) :=
  if (origin == .dotted) == isDotted && (valueOf? entries key).isNone then
    some (entries ++ [(key, value)])
  else none

/-- Gives a key, which may be dotted, a value. -/
def add (keys : List String) (value : Toml) (origin : Origin) (entries : List (String × Toml)) :
    Option (List (String × Toml)) :=
  match keys.getLast? with
  | some key => change true (addHere key value (keys.length != 1)) keys.dropLast origin entries
  | none => none

/-- Opens the table of a header in the table above it. -/
def openHere (key : String) (_ : Origin) (entries : List (String × Toml)) :
    Option (List (String × Toml)) :=
  match valueOf? entries key with
  | none => some (entries ++ [(key, table .header [])])
  | some (table .implied sub) => some (replace entries key (table .header sub))
  | some _ => none

/-- Opens one more table of an array of tables in the table above it. -/
def openNextHere (key : String) (_ : Origin) (entries : List (String × Toml)) :
    Option (List (String × Toml)) :=
  match valueOf? entries key with
  | none => some (entries ++ [(key, tables [[]])])
  | some (tables items) => some (replace entries key (tables (items ++ [[]])))
  | some _ => none

/-- A table being built, and the header that its next entries belong to. -/
structure Draft where
  entries : List (String × Toml)
  header : List String

namespace Draft

/-- Nothing has been read. -/
def empty : Draft := ⟨[], []⟩

/-- Adds an entry under the last header. -/
def add (d : Draft) (keys : List String) (value : Toml) : Option Draft :=
  (change false (Toml.add keys value) d.header .header d.entries).map fun entries =>
    { d with entries }

/-- Opens a table, which is one more of several if `next`. -/
def openTable (d : Draft) (keys : List String) (next : Bool) : Option Draft :=
  match keys.getLast? with
  | some key =>
    let f := if next then openNextHere key else openHere key
    (change false f keys.dropLast .header d.entries).map fun entries => ⟨entries, keys⟩
  | none => none

end Draft

end Manifest.Toml
