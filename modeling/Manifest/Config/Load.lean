import Manifest.Config.Decode
import Manifest.Failure
import Manifest.Repository

/-! # Loading a configuration

The layers are the built-in settings, the user's file and the file of the workspace; a file that is
not there is no layer. One file can be given in place of the two. The environment overrides what the
layers say. -/

namespace Manifest

/-- The variables of the environment. -/
structure Environment where
  bindings : List (String × String)

namespace Environment

/-- The value of a variable. -/
def get? (env : Environment) (name : String) : Option String :=
  (env.bindings.find? (·.1 = name)).map (·.2)

/-- The value of a variable that is not empty, as a path. -/
def path? (env : Environment) (name : String) : Option Path :=
  ((env.get? name).filter (· ≠ "")).map Path.ofText

/-- The directory of the user. -/
def home? (env : Environment) : Option Path := env.path? "HOME"

/-- The directory of the user's settings. A path that is not absolute is passed over. -/
def settings? (env : Environment) : Option Path :=
  (env.path? "XDG_CONFIG_HOME").filter Path.isAbsolute <|> env.home?.map (·.child ".config")

/-- What the environment overrides. -/
def overrides (env : Environment) : Config.Overrides :=
  ⟨env.get? "APPMANIFEST_FORMAT", env.get? "APPMANIFEST_APP", env.get? "APPMANIFEST_LOG"⟩

end Environment

namespace Config

/-- Why a configuration cannot be loaded. -/
inductive Error
  | unreadable (path : Path) (e : Disk.Error)
  /-- A text is not TOML, or a setting has a value of the wrong kind. -/
  | malformed
deriving DecidableEq, Repr

/-- The report of an error. -/
def Error.failure : Error → Failure
  | unreadable path e => ⟨"failed to read config file: " ++ path.text, [e.message]⟩
  | malformed => ⟨"failed to parse TOML config", []⟩

/-- The settings of a file. -/
def ofFile (d : Disk) (path : Path) : Except Error Config :=
  match d.read path with
  | .error e => .error (.unreadable path e)
  | .ok text =>
    match parse? text with
    | some c => .ok c
    | none => .error .malformed

/-- The layer of a file, which may not be there. -/
def layer (d : Disk) (path : Path) : Except Error (List Config) :=
  if d.pathExists path then (ofFile d path).map ([·]) else .ok []

/-- The name of a file with settings. -/
def fileName : Name := .ofText "config.toml"

/-- The name of the directory below the user's settings that holds those of the program. -/
def userDir : Name := .ofText "appmanifest"

/-- The file of the workspace. -/
def workspaceFile (d : Disk) : Path := (d.workspace.child settingsDir).child fileName

/-- The file of the user. -/
def userFile? (env : Environment) : Option Path :=
  env.settings?.map fun dir => (dir.child userDir).child fileName

/-- The built-in settings with those of the user's and the workspace's files on top. -/
def layered (d : Disk) (env : Environment) : Except Error Config :=
  match (userFile? env).elim (.ok []) (layer d) with
  | .error e => .error e
  | .ok user =>
    match layer d (workspaceFile d) with
    | .error e => .error e
    | .ok workspace => .ok (builtIn.stack (user ++ workspace))

/-- The built-in settings with those of one file on top. -/
def onlyFrom (d : Disk) (path : Path) : Except Error Config := (ofFile d path).map builtIn.merge

/-- The configuration of a run. -/
def load (d : Disk) (env : Environment) (file? : Option Path) : Except Error Config :=
  let loaded := match file? with
    | some path => onlyFrom d path
    | none => layered d env
  loaded.map fun c => c.override env.overrides

end Config

end Manifest
