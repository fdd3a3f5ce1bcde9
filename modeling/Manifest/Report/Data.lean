import Manifest.Json.Print
import Manifest.Report
import Manifest.Yaml.Write.Block

/-! # Reports as data

The report as a JSON value, printed as JSON or as YAML. An error or a source that is absent has no
field. -/

namespace Manifest.Report

/-- A position as a value. -/
def positionJson (p : Position) : Json := .object [("line", .nat p.line), ("column", .nat p.column)]

/-- A span as a value. -/
def spanJson (s : Span) : Json := .object [("start", .nat s.start), ("end", .nat s.stop)]

/-- An application as a value. -/
def applicationJson (a : Application) : Json :=
  .object ([("name", .string a.name), ("selected", .bool a.selected),
    ("root_level", .bool a.rootLevel), ("span", spanJson a.span),
    ("start", positionJson a.start), ("end", positionJson a.stop)]
    ++ Json.optionalField "source" a.source?)

/-- A manifest as a value. -/
def listingJson (m : Listing) : Json :=
  .object ([("path", .string m.path), ("applications", .array (m.applications.map applicationJson))]
    ++ Json.optionalField "error" m.error?)

/-- The report as a value. -/
def toJson (r : Report) : Json := .object [("manifests", .array (r.manifests.map listingJson))]

/-- The report in the JSON format. -/
def toJsonText (r : Report) : String := r.toJson.print ++ "\n"

/-- The report in the YAML format. -/
def toYamlText (r : Report) : String := Yaml.Write.document r.toJson

end Manifest.Report
