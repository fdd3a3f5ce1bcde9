import Manifest.Format
import Manifest.Report.Data
import Manifest.Report.Text

/-! # Rendering reports -/

namespace Manifest.Report

/-- The text of the report in a format. -/
def render (r : Report) : Format → String
  | .plain => r.toPlain
  | .markdown => r.toMarkdown
  | .json => r.toJsonText
  | .yaml => r.toYamlText

end Manifest.Report
