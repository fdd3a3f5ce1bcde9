import Manifest.Config
import Manifest.Toml.Parse

/-! # Settings in TOML

The settings stand in the tables `defaults`, `scan`, `ignore` and `watch`. What a text leaves out has
its built-in value; only a table `ignore` that is there ignores nothing but what it lists. Other
keys are passed over. -/

namespace Manifest.Config

/-- A setting that has another value if it is left out. -/
def settingOr {α : Type} (decode : Toml → Option α) (absent : α) : Option Toml → Option α
  | none => some absent
  | some t => decode t

/-- A list of texts. -/
def texts? (t : Toml) : Option (List String) := t.asItems?.bind (·.mapM Toml.asString?)

/-- The settings with those of the table `defaults`. -/
def withDefaults? (c : Config) (t : Toml) : Option Config :=
  match t.settings? ["format", "app", "include_source", "log_level"] with
  | some [format, app, includeSource, logLevel] => do
    let format ← settingOr Toml.asString? builtIn.format format
    let app? ← settingOr (fun t => t.asString?.map some) none app
    let includeSource ← settingOr Toml.asBool? false includeSource
    let logLevel ← settingOr Toml.asString? builtIn.logLevel logLevel
    return { c with format, app?, includeSource, logLevel }
  | _ => none

/-- The settings with those of the table `scan`. -/
def withScan? (c : Config) (t : Toml) : Option Config :=
  match t.settings? ["patterns", "show_hidden"] with
  | some [patterns, showHidden] => do
    let patterns ← settingOr texts? builtIn.patterns patterns
    let showHidden ← settingOr Toml.asBool? false showHidden
    return { c with patterns, showHidden }
  | _ => none

/-- The settings with those of the table `ignore`. -/
def withIgnore? (c : Config) (t : Toml) : Option Config :=
  match t.settings? ["paths", "globs"] with
  | some [paths, globs] => do
    let ignorePaths ← settingOr texts? [] paths
    let ignoreGlobs ← settingOr texts? [] globs
    return { c with ignorePaths, ignoreGlobs }
  | _ => none

/-- The settings with those of the table `watch`. -/
def withWatch? (c : Config) (t : Toml) : Option Config :=
  match t.settings? ["debounce_ms"] with
  | some [debounce] => do
    let debounce ← settingOr Toml.asNat? builtIn.debounce debounce
    return { c with debounce }
  | _ => none

/-- The settings with those of a table that may be left out. -/
def withTable? (decode : Config → Toml → Option Config) (t? : Option Toml) (c : Config) :
    Option Config :=
  settingOr (decode c) c t?

/-- The settings that a value holds. -/
def ofToml? (t : Toml) : Option Config :=
  match t.settings? ["defaults", "scan", "ignore", "watch"] with
  | some [defaults, scan, ignore, watch] => do
    let c ← withTable? withDefaults? defaults builtIn
    let c ← withTable? withScan? scan c
    let c ← withTable? withIgnore? ignore c
    withTable? withWatch? watch c
  | _ => none

/-- The settings that a text holds. -/
def parse? (text : String) : Option Config := (Toml.parse? text).bind ofToml?

end Manifest.Config
