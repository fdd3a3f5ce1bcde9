import Manifest.Locator

/-! # Sessions

A session follows a document through its versions. Each pass locates the applications anew, with the
selection of the pass before, and tells what has changed: the entries that are gone, those that are
new, and whether the selected entry is another one. -/

namespace Manifest

/-- What a pass does to the selection. -/
inductive SelectionChange
  | unchanged
  | selected (s : Selection)
  | cleared
deriving DecidableEq, Repr

/-- What a pass has changed. -/
structure Changes where
  removed : List Entry
  added : List Entry
  selection : SelectionChange
deriving DecidableEq, Repr

namespace Changes

/-- How the selection differs between two passes. -/
def selectionBetween (old new : Located) : SelectionChange :=
  if old.chosen? = new.chosen? then .unchanged
  else
    match new.selection? with
    | some s => .selected s
    | none => .cleared

/-- What differs between two passes. -/
def between (old new : Located) : Changes where
  removed := old.entries.filter (· ∉ new.entries)
  added := new.entries.filter (· ∉ old.entries)
  selection := selectionBetween old new

/-- Nothing has changed. -/
def isEmpty (c : Changes) : Bool :=
  c.removed.isEmpty && c.added.isEmpty && c.selection == .unchanged

/-! ### Printing -/

/-- A line about a name and an offset behind a sign. -/
def line (sign : String) (name : String) (start : Nat) : String :=
  sign ++ " " ++ name ++ " @" ++ toString start ++ "\n"

/-- The line about the selection. -/
def selectionLine : SelectionChange → String
  | .unchanged => ""
  | .selected s => line "*" s.name s.start
  | .cleared => "* (none)\n"

/-- A line for each entry that is gone or new, and one for the selection if it is another. -/
def describe (c : Changes) : String :=
  String.join (c.removed.map fun e => line "-" e.name e.span.start)
    ++ String.join (c.added.map fun e => line "+" e.name e.span.start)
    ++ selectionLine c.selection

end Changes

/-- The result of a pass. -/
structure Pass where
  located : Located
  changes : Changes
deriving DecidableEq, Repr

/-- A locator and what its last pass has located. -/
structure Session where
  locator : Locator
  current : Located
deriving DecidableEq, Repr

namespace Session

/-- A session in front of its first pass. -/
def start (l : Locator) : Session := ⟨l, .empty⟩

/-- The selection that the next pass starts from. -/
def selection? (s : Session) : Option Selection := s.current.selection?

/-- The session with its entries and its selection forgotten. -/
def reset (s : Session) : Session := { s with current := .empty }

/-- One pass over a version of the document. The applications are always located in all of it, so
the dirty span plays no part. -/
def reconcile (s : Session) (d : Document) (_dirty? : Option Span) : Pass × Session :=
  let located := s.locator.locate d s.selection?
  (⟨located, .between s.current located⟩, { s with current := located })

/-- The first pass. -/
def initial (s : Session) (d : Document) : Pass × Session := s.reconcile d none

end Session

end Manifest
