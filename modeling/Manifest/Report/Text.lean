import Manifest.Report

/-! # Reports as text

The plain format has a line for each manifest and one for each application, the selected one with a
star; the markdown format has a section for each manifest and a list of its applications. An empty
error or source counts as none. -/

namespace Manifest.Report

/-- The string, unless it is absent or empty. -/
def present? (s? : Option String) : Option String := s?.filter (!·.isEmpty)

/-! ### Indentation -/

/-- The text without a line feed at its end, and then without a carriage return at its end. -/
def dropLineEnd (cs : List Char) : List Char :=
  let drop (c : Char) (cs : List Char) := if cs.getLast? = some c then cs.dropLast else cs
  drop '\r' (drop '\n' cs)

/-- The lines of a text, each but an empty one behind four spaces. -/
def indentLines : (lineStart : Bool) → List Char → List Char
  | _, [] => []
  | lineStart, c :: rest =>
    if c == '\n' then c :: indentLines true rest
    else if lineStart then ' ' :: ' ' :: ' ' :: ' ' :: c :: indentLines false rest
    else c :: indentLines false rest

/-- A text with every line that is not empty indented, without the end of its last line. -/
def indent (s : String) : String :=
  String.ofList (dropLineEnd (indentLines true (dropLineEnd s.toList) ++ ['\n']))

/-! ### Plain -/

/-- Where an application starts and stops. -/
def extent (a : Application) : String :=
  toString a.start.line ++ ":" ++ toString a.start.column ++ "-" ++ toString a.stop.line ++ ":"
    ++ toString a.stop.column

/-- The line of an application, and the lines of its source. -/
def plainApplication (a : Application) : String :=
  (if a.selected then "* " else "  ") ++ a.name ++ (if a.rootLevel then " (root) " else " ")
    ++ extent a ++ "\n"
    ++ (match present? a.source? with
      | some source => indent source ++ "\n"
      | none => "")

/-- The lines of a manifest. -/
def plainListing (m : Listing) : String :=
  m.path ++ "\n"
    ++ (match present? m.error? with
      | some error => "  error: " ++ error ++ "\n"
      | none => "")
    ++ String.join (m.applications.map plainApplication)

/-- The report in the plain format. -/
def toPlain (r : Report) : String := String.join (r.manifests.map plainListing)

/-! ### Markdown -/

/-- The list item of an application, and a block with its source. -/
def markdownApplication (a : Application) : String :=
  "- " ++ (if a.selected then "**" ++ a.name ++ "** (selected)" else a.name) ++ ", lines "
    ++ toString a.start.line ++ "-" ++ toString a.stop.line ++ "\n"
    ++ (match present? a.source? with
      | some source => "\n```yaml\n" ++ source ++ "\n```\n\n"
      | none => "")

/-- The section of a manifest. -/
def markdownListing (m : Listing) : String :=
  "## " ++ m.path ++ "\n\n"
    ++ (match present? m.error? with
      | some error => "> " ++ error ++ "\n\n"
      | none => "")
    ++ String.join (m.applications.map markdownApplication) ++ "\n"

/-- The report in the markdown format. -/
def toMarkdown (r : Report) : String := String.join (r.manifests.map markdownListing)

end Manifest.Report
