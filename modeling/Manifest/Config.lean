import Manifest.Config.Names
import Manifest.Text.Blank

/-! # Configurations

The settings of the program and how layers of them are put on top of each other. A layer has a value
for every setting; one that equals the built-in value counts as not set, so it does not hide what
lies below. Flags that are on and names to ignore add up. -/

namespace Manifest

/-- The settings of the program. -/
@[ext] structure Config where
  /-- The name of the output format. -/
  format : String
  /-- The application to keep selected. -/
  app? : Option String
  includeSource : Bool
  logLevel : String
  /-- Globs for the names of manifests. -/
  patterns : List String
  showHidden : Bool
  /-- Files and directories that a scan passes over. -/
  ignorePaths : List String
  /-- Globs for paths that a scan passes over. -/
  ignoreGlobs : List String
  /-- How long a watched file must have been quiet, in milliseconds. -/
  debounce : Nat
deriving DecidableEq, Repr

namespace Config

/-- The built-in settings. -/
def builtIn : Config where
  format := "plain"
  app? := none
  includeSource := false
  logLevel := "warn"
  patterns :=
    ["manifest.yml", "manifest.yaml", "manifest-*.yml", "manifest-*.yaml", "*.manifest.yml"]
  showHidden := false
  ignorePaths := ["target/", "node_modules/", ".git/"]
  ignoreGlobs := []
  debounce := 250

/-! ### Layers -/

/-- The upper of two values, unless it is the built-in one. -/
def prefer {α : Type} [DecidableEq α] (builtIn base upper : α) : α :=
  if upper = builtIn then base else upper

/-- One layer on top of another. -/
def merge (base upper : Config) : Config where
  format := prefer builtIn.format base.format upper.format
  app? := upper.app? <|> base.app?
  includeSource := upper.includeSource || base.includeSource
  logLevel := prefer builtIn.logLevel base.logLevel upper.logLevel
  patterns := prefer builtIn.patterns base.patterns upper.patterns
  showHidden := upper.showHidden || base.showHidden
  ignorePaths := unionNames base.ignorePaths upper.ignorePaths
  ignoreGlobs := unionNames base.ignoreGlobs upper.ignoreGlobs
  debounce := prefer builtIn.debounce base.debounce upper.debounce

/-- Layers on top of a lowest one. -/
def stack (base : Config) (layers : List Config) : Config := layers.foldl merge base

/-! ### The environment -/

/-- Settings that the environment overrides. -/
structure Overrides where
  format? : Option String
  app? : Option String
  logLevel? : Option String
deriving DecidableEq, Repr

/-- The settings as overridden. A blank name of an application overrides nothing. -/
def override (c : Config) (o : Overrides) : Config :=
  { c with
    format := o.format?.getD c.format
    app? := o.app?.filter (fun name => !Text.allBlank name) <|> c.app?
    logLevel := o.logLevel?.getD c.logLevel }

end Config

end Manifest
