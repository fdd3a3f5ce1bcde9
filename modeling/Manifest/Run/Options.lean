import Manifest.CommandLine
import Manifest.Config
import Manifest.Report.Render

/-! # Options and settings

What a request asks for goes before what the configuration says. -/

namespace Manifest

/-- The locator of a run: the application that is asked for is pinned, or else the configured one. -/
def Config.locator (c : Config) (app? : Option String) : Locator := ⟨app? <|> c.app?⟩

namespace ListOptions

/-- The format of a listing: the one that is asked for, or the configured one if it is a format, or
else plain text. -/
def formatIn (o : ListOptions) (c : Config) : Format :=
  o.format?.getD ((Format.ofSetting c.format).toOption.getD .plain)

/-- The listing shows the text of each application. -/
def showsSource (o : ListOptions) (c : Config) : Bool := o.source || c.includeSource

/-- The listing of manifests. -/
def listing (o : ListOptions) (c : Config) (views : List View) : String :=
  (Report.ofViews views (o.showsSource c)).render (o.formatIn c)

end ListOptions

end Manifest
