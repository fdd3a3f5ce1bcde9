import Manifest.View

/-! # Reports

A report lists manifests and, under each, its applications: where each stands in characters, lines
and columns, whether it is the selected one, and on demand its text. Lines and columns count from
one. -/

namespace Manifest

/-- A line and a column, both counted from one. -/
structure Report.Position where
  line : Nat
  column : Nat
deriving DecidableEq, Repr

/-- What a report says about an application. -/
structure Report.Application where
  name : String
  selected : Bool
  rootLevel : Bool
  span : Span
  start : Report.Position
  stop : Report.Position
  source? : Option String
deriving DecidableEq, Repr

/-- What a report says about a manifest. -/
structure Report.Listing where
  path : String
  applications : List Report.Application
  error? : Option String
deriving DecidableEq, Repr

/-- The contents of a report. -/
structure Report where
  manifests : List Report.Listing
deriving DecidableEq, Repr

namespace Report

/-- The position of an offset; one that is not in the document has the first position. -/
def position (d : Document) (i : Nat) : Position :=
  match d.lineColumn? i with
  | some lc => ⟨lc.line + 1, lc.column + 1⟩
  | none => ⟨1, 1⟩

/-- What a report says about an entry of a document. -/
def application (d : Document) (withSource : Bool) (e : Entry) (selected : Bool) : Application where
  name := e.name
  selected
  rootLevel := e.rootLevel
  span := e.span
  start := position d e.span.start
  stop := position d e.span.stop
  source? := if withSource then some (d.slice e.span) else none

/-- What a report says about a manifest. -/
def listing (withSource : Bool) (v : View) : Listing where
  path := v.shownPath
  applications := v.located.flagged.map fun (e, selected) =>
    application v.document withSource e selected
  error? := v.error?

/-- The report on a list of manifests. -/
def ofViews (views : List View) (withSource : Bool) : Report := ⟨views.map (listing withSource)⟩

end Report

end Manifest
