import Manifest.Run
import Manifest.Watch.Loop

/-! # The program

The outer layer: it looks up what a run can ask of the file system, lets the run take place, writes
what the run has changed, and prints. -/

namespace Manifest.Program

/-! ### The file system -/

/-- The text of a place. -/
def nameOf (place : List Name) : String := (Path.ofNames place).text

/-- A directory at a place; one that is there already stays. -/
def withDir (d : Disk) (place : List Name) : Disk :=
  match d.tree.at? place with
  | some (.dir _) => d
  | _ => d.put place .emptyDir FileTree.isDistinct_emptyDir

/-- What stands at a place, a link itself and not what it leads to. -/
def typeAt (place : List Name) : IO (Option IO.FS.FileType) :=
  try return some (← ((← IO.currentDir) / nameOf place).symlinkMetadata).type
  catch _ => return none

/-- Puts the file at a place on the disk, if it can be read. -/
def takeFile (d : Disk) (place : List Name) : IO Disk :=
  try
    let content ← IO.FS.readBinFile (nameOf place)
    return d.put place (.file content) (FileTree.isDistinct_file content)
  catch _ => return d

/-- Where the link at a place leads to. -/
def targetOf (place : List Name) : IO (Option Path) :=
  try return some (.ofText (← IO.FS.realPath (nameOf place)).toString)
  catch _ => return none

/-- The names in the directory at a place. -/
def namesIn (place : List Name) : IO (List Name) :=
  try
    let entries := (← ((← IO.currentDir) / nameOf place).readDir).toList
    return entries.filterMap fun entry => Name.ofPart? entry.fileName
  catch _ => return []

/-- Puts on the disk what the parts lead to from a place. -/
partial def take (d : Disk) (place : List Name) : List Part → IO Disk
  | [] => return d
  | part :: rest => do
    if part.isIdle then take d place rest
    else if part = .up then take d place.dropLast rest
    else
      let some name := Name.ofPart? part | return d
      let place := place ++ [name]
      match ← typeAt place with
      | some .dir => take (withDir d place) place rest
      | some .file => takeFile d place
      | some .symlink =>
        match ← targetOf place with
        | some target => take (d.put place (.link target)) [] (target.parts ++ rest)
        | none => return d
      | _ => return d

/-- Puts on the disk what a path leads to. -/
def takePath (d : Disk) (p : Path) : IO Disk := take d (Disk.origin d.here p) p.parts

/-- Puts on the disk all that stands below a place. -/
partial def takeAll (d : Disk) (place : List Name) : IO Disk := do
  (← namesIn place).foldlM (fun d name => do
    let place := place ++ [name]
    match ← typeAt place with
    | some .dir => takeAll (withDir d place) place
    | some .file => takeFile d place
    | _ => return d) d

/-- The files of a directory that say how the program works in it. -/
def rulesOf (dir : Path) : List Path :=
  let names : List Part := [Ignore.Layer.versionedFile, Ignore.Layer.generalFile, repositoryEntry]
  names.map dir.child ++ [Ignore.Layer.excludeFile (dir.child repositoryEntry),
    (dir.child settingsDir).child Config.fileName, (Store.new dir).path]

/-- The files of the user. -/
def userFiles (env : Environment) : List Path :=
  (env.home?.map (·.child ".gitconfig")).toList
    ++ ((Ignore.settingsDir? env).toList.flatMap fun dir =>
      [(dir.child "git").child "config", (dir.child "git").child "ignore"])
    ++ (Config.userFile? env).toList

/-- The paths that a command looks at. -/
def pathsOf : Command → List Path
  | .locate r => [r.file]
  | .scan r => [r.root]
  | .watch r => [Watcher.dirOf r.file, r.file]
  | .completions _ => []

/-- The directory that a command looks at with all that stands below it. -/
def rootOf? : Command → Option Path
  | .scan r => some r.root
  | _ => none

/-- Puts on the disk the files that say how the program works in a place and above it. -/
def takeRules (d : Disk) (place : List Name) : IO Disk :=
  ((Path.ofNames place).ancestors.flatMap rulesOf).foldlM takePath d

/-- A disk with the working directory and what some paths lead to as it is now. -/
def look (here : List Name) (paths : List Path) : IO Disk :=
  (Path.ofNames here :: paths).foldlM takePath ⟨.emptyDir, here, FileTree.isDistinct_emptyDir⟩

/-- The part of the file system that a run can look at. -/
def diskFor (i : Invocation) (env : Environment) : IO Disk := do
  let here := (Path.ofText (← IO.currentDir).toString).steps.filterMap Name.ofPart?
  let d ← look here (pathsOf i.command ++ userFiles env ++ i.common.config?.toList)
  let d ← takeRules d d.here
  let d ← (Ignore.globalFile? d env).toList.foldlM takePath d
  match (rootOf? i.command).map d.find with
  | some (.ok (place, _)) => takeRules (← takeAll d place) place
  | _ => return d

/-- Writes a file that a run has changed. -/
def keep (before after : Disk) (file : Path) : IO Unit := do
  match (before.readBytes file).toOption, (after.readBytes file).toOption with
  | old?, some new =>
    if old?.map (·.toList) ≠ some new.toList then
      (file.parent?).forM fun dir => IO.FS.createDirAll dir.text
      IO.FS.writeBinFile file.text new
  | _, none => return ()

/-- The variables that a run can ask for. -/
def environment : IO Environment := do
  let names := ["HOME", "XDG_CONFIG_HOME", "APPMANIFEST_FORMAT", "APPMANIFEST_APP",
    "APPMANIFEST_LOG"]
  let values ← names.mapM fun name => return (← IO.getEnv name).map (name, ·)
  return ⟨values.filterMap id⟩

/-! ### Watching -/

/-- The time between two looks at the file, in milliseconds. -/
def beat : Nat := 20

/-- Lets the loop move until it is blocked. -/
partial def move (l : Watcher.Loop) (d : Disk) : IO Watcher.Loop := do
  if l.isBlocked then return l
  let (l, done) := l.step d
  if let .attempt (.ok pass) := done then
    IO.print pass.changes.describe
    (← IO.getStdout).flush
  move l d

/-- Follows the file for as long as the program runs. -/
partial def follow (l : Watcher.Loop) (d : Disk) : IO Unit := do
  IO.sleep beat.toUInt32
  let next ← look d.here [l.watcher.path]
  let content (d : Disk) := ((d.readBytes l.watcher.path).toOption.map (·.toList))
  let l := l.tick beat
  let l := if content next = content d then l else l.arrive (.done .modified [l.watcher.path])
  follow (← move l next) next

/-! ### Texts about the use of the program -/

/-- How the program is used. -/
def usage : String :=
  "Locate application names in Cloud Foundry manifests

Usage: appmanifest [OPTIONS] <COMMAND>

Commands:
  locate [FILE]        List the applications declared in a manifest
                       [--app NAME] [--format FORMAT] [--source] [--remember] [--strict]
  scan [ROOT]          Find manifests under a directory and list their applications
                       [--app NAME] [--format FORMAT] [--source]
  watch [FILE]         Re-list applications every time the manifest changes
                       [--app NAME] [--debounce-ms MILLISECONDS]
  completions <SHELL>  Print shell completions
  help [COMMAND]       Print this message

Options:
  -v, --verbose...         Increase log verbosity (-v info, -vv debug, -vvv trace)
      --log-level <LEVEL>  Log filter directive, overrides the configured level
      --config <FILE>      Read configuration from this file instead of the user/workspace layers
  -h, --help               Print help
  -V, --version            Print version
"

/-- The words that can follow the program's name. -/
def firstWords : String := " ".intercalate CommandLine.outerGrammar.commands

/-- What makes a shell complete the first word. -/
def completion : Shell → String
  | .bash => "complete -W \"" ++ firstWords ++ "\" appmanifest\n"
  | .elvish => "set edit:completion:arg-completer[appmanifest] = \x7b|@words| put " ++ firstWords
    ++ " \x7d\n"
  | .fish => "complete -c appmanifest -f -n __fish_use_subcommand -a \"" ++ firstWords ++ "\"\n"
  | .powershell => "Register-ArgumentCompleter -Native -CommandName appmanifest -ScriptBlock "
    ++ "\x7b param($word) -split \"" ++ firstWords ++ "\" -like \"$word*\" \x7d\n"
  | .zsh => "#compdef appmanifest\n_arguments \"1:command:(" ++ firstWords ++ ")\"\n"

/-! ### Running -/

/-- Prints what a run has to say, and gives the exit code. -/
def finish (o : Outcome) : IO UInt32 := do
  IO.print o.printed
  (← IO.getStdout).flush
  match o.ending with
  | .done => return 0
  | .failed f =>
    IO.eprintln f.report
    return 1
  | .watching w debounce =>
    follow (.resume w debounce 0) (← look o.disk.here [w.path])
    return 0

/-- Does what a command line asks for. -/
def perform (i : Invocation) : IO UInt32 := do
  let env ← environment
  let d ← diskFor i env
  let o := i.run d env
  keep d o.disk (Store.new d.workspace).path
  if let .completions shell := i.command then
    if o.failure?.isNone then IO.print (completion shell)
  finish o

/-- Answers a command line that asks for no run. -/
def answer (h : CommandLine.Halt) : IO UInt32 := do
  match h with
  | .misuse => IO.eprint usage
  | .help => IO.print usage
  | .version => IO.print h.answer
  return h.exitCode.toUInt32

end Manifest.Program

/-- The program. -/
def main (words : List String) : IO UInt32 :=
  match Manifest.Invocation.ofWords words with
  | .ok i => Manifest.Program.perform i
  | .error h => Manifest.Program.answer h
