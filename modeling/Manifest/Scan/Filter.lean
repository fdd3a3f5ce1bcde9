import Manifest.Config
import Manifest.Disk
import Manifest.Failure
import Manifest.Glob.Depth
import Manifest.Glob.Parse

/-! # What a scan passes over and what it takes

The globs of a scan: those for paths to pass over, from the settings and from a file in the root of
the scan, and those for the names of manifests. A name to pass over stands for the file or directory
of that name at any depth and for all below it. -/

namespace Manifest.Scan

/-- Why a scan cannot start. -/
inductive Error
  | badIgnorePath
  | badIgnoreGlob
  /-- The ignore file of the root cannot be read. -/
  | ignoreFile (e : Disk.Error)
  | badIgnoreLine
  /-- A glob for paths to pass over is nested too deep. -/
  | deepIgnore
  | badPattern (pattern : String)
  /-- A glob for the names of manifests is nested too deep. -/
  | deepPattern
deriving DecidableEq, Repr

/-- The report of an error. -/
def Error.failure : Error → Failure
  | badIgnorePath => ⟨"invalid ignore path pattern", []⟩
  | badIgnoreGlob => ⟨"invalid ignore glob", []⟩
  | ignoreFile e => ⟨e.message, []⟩
  | badIgnoreLine => ⟨"invalid .appmanifestignore pattern", []⟩
  | deepIgnore => ⟨"failed to build ignore matcher", []⟩
  | badPattern pattern => ⟨"invalid manifest pattern '" ++ pattern ++ "'", []⟩
  | deepPattern => ⟨"failed to build manifest matcher", []⟩

/-- How the globs of settings are read. -/
def globStyle : Glob.Style := ⟨false, false⟩

/-- The glob of a text, or an error. -/
def glob (e : Error) (s : String) : Except Error Glob :=
  match Glob.parse? globStyle s with
  | some g => .ok g
  | none => .error e

/-- The text without blanks at its ends, and then without slashes at its ends. -/
def trimName (s : String) : String :=
  let cs := Text.trimBlank s.toList
  String.ofList (((cs.dropWhile (· == '/')).reverse.dropWhile (· == '/')).reverse)

/-- The globs that a name to pass over stands for. -/
def expand (s : String) : List String :=
  let name := trimName s
  if name.isEmpty then []
  else [name, name ++ "/**", "**/" ++ name, "**/" ++ name ++ "/**"]

/-- The globs of some names to pass over. -/
def expandAll (e : Error) (names : List String) : Except Error (List Glob) :=
  (names.flatMap expand).mapM (glob e)

/-! ### The ignore file of the root -/

/-- The name of the file in the root of a scan that lists names to pass over. -/
def ignoreFileName : Name := .ofText ".appmanifestignore"

/-- The names that a text lists, one a line. Blank lines and comments list none. -/
def listedNames (text : String) : List String :=
  let lines := text.toList.splitOnP (· == '\n')
  (lines.map Text.trimBlank).filterMap fun line =>
    if line.isEmpty ∨ line.head? = some '#' then none else some (String.ofList line)

/-- The names that the ignore file of a root lists; a root without such a file lists none. -/
def rootNames (d : Disk) (root : Path) : Except Error (List String) :=
  let file := root.child ignoreFileName
  if d.pathExists file then
    match d.read file with
    | .ok text => .ok (listedNames text)
    | .error e => .error (.ignoreFile e)
  else .ok []

/-! ### All globs -/

/-- A set of globs, or an error if it cannot hold one of them. -/
def gathered (e : Error) (globs : List Glob) : Except Error (List Glob) :=
  if globs.all (·.isShallow) then .ok globs else .error e

/-- The globs for paths to pass over. -/
def skipped (d : Disk) (root : Path) (c : Config) : Except Error (List Glob) := do
  let paths ← expandAll .badIgnorePath c.ignorePaths
  let globs ← c.ignoreGlobs.mapM (glob .badIgnoreGlob)
  let names ← rootNames d root
  let listed ← expandAll .badIgnoreLine names
  gathered .deepIgnore (paths ++ globs ++ listed)

/-- The globs for the names of manifests. -/
def wanted (c : Config) : Except Error (List Glob) := do
  let globs ← c.patterns.mapM fun pattern => glob (.badPattern pattern) pattern
  gathered .deepPattern globs

end Manifest.Scan
