import Manifest.CommandLine.Grammar
import Manifest.Format
import Manifest.Path
import Manifest.Text.Digit

/-! # The command line

What the program can be asked to do, and how it is asked: a command word with the switches and
operands of that command behind it. The switches of `Common` may stand in front of the command word
or behind it; what stands behind it wins. -/

namespace Manifest

/-! ### Requests -/

/-- What every command can be told. -/
structure Common where
  verbose : Nat
  logLevel? : Option String
  /-- The only configuration file to read. -/
  config? : Option Path
deriving DecidableEq, Repr

namespace Common

/-- Nothing is said. -/
def unset : Common := ⟨0, none, none⟩

/-- What is said in front of a command, with what is said behind it on top. -/
def overridden (outer inner : Common) : Common where
  verbose := if inner.verbose = 0 then outer.verbose else inner.verbose
  logLevel? := inner.logLevel? <|> outer.logLevel?
  config? := inner.config? <|> outer.config?

end Common

/-- What to select and how to show it. -/
structure ListOptions where
  app? : Option String
  format? : Option Format
  source : Bool
deriving DecidableEq, Repr

/-- Nothing is asked of a listing. -/
def ListOptions.unset : ListOptions := ⟨none, none, false⟩

/-- A request to list the applications of a manifest. -/
structure LocateRequest where
  file? : Option Path
  options : ListOptions
  /-- Start from the selection of the run before, and keep the new one. -/
  remember : Bool
  /-- Fail if the manifest cannot be analysed. -/
  strict : Bool
deriving DecidableEq, Repr

/-- A request to list the applications of all manifests below a directory. -/
structure ScanRequest where
  root? : Option Path
  options : ListOptions
deriving DecidableEq, Repr

/-- A request to tell what changes in a manifest. -/
structure WatchRequest where
  file? : Option Path
  app? : Option String
  /-- In milliseconds. -/
  debounce? : Option Nat
deriving DecidableEq, Repr

/-- A shell that can complete the program's words. -/
inductive Shell
  | bash
  | elvish
  | fish
  | powershell
  | zsh
deriving DecidableEq, Repr

/-- What to do. -/
inductive Command
  | locate (r : LocateRequest)
  | scan (r : ScanRequest)
  | watch (r : WatchRequest)
  | completions (shell : Shell)
deriving DecidableEq, Repr

/-- What a command line asks for. -/
structure Invocation where
  common : Common
  command : Command
deriving DecidableEq, Repr

/-- The manifest that is meant if none is named. -/
def defaultManifest : Path := .ofText "manifest.yml"

/-- The directory that is meant if none is named. -/
def defaultRoot : Path := .ofText "."

/-- The manifest to list. -/
def LocateRequest.file (r : LocateRequest) : Path := r.file?.getD defaultManifest

/-- The directory to scan. -/
def ScanRequest.root (r : ScanRequest) : Path := r.root?.getD defaultRoot

/-- The manifest to watch. -/
def WatchRequest.file (r : WatchRequest) : Path := r.file?.getD defaultManifest

namespace CommandLine

/-! ### Values -/

/-- A path, which cannot be empty. -/
def pathOf? (s : String) : Option Path := if s = "" then none else some (.ofText s)

/-- The number that digits write, if it fits into 64 bits. -/
def numberOf? (digits : List Char) : Option Nat :=
  if digits ≠ [] ∧ digits.all Char.isDigit ∧ Text.number 10 digits < Text.wordCount then
    some (Text.number 10 digits)
  else none

/-- A number, which may have a plus sign. -/
def countOf? (s : String) : Option Nat :=
  match s.toList with
  | '+' :: digits => numberOf? digits
  | digits => numberOf? digits

/-- The shell with a name. -/
def shellOf? : String → Option Shell
  | "bash" => some .bash
  | "elvish" => some .elvish
  | "fish" => some .fish
  | "powershell" => some .powershell
  | "zsh" => some .zsh
  | _ => none

/-! ### Grammars -/

/-- What has been read of a command. -/
structure Draft (ρ : Type) where
  common : Common
  request : ρ

/-- The switches that every command has. -/
def commonSwitches : List (Switch Common) :=
  [⟨"verbose", some 'v', .change fun c => some { c with verbose := c.verbose + 1 }⟩,
    .value "log-level" none some (·.logLevel?) fun c v => { c with logLevel? := v },
    .value "config" none pathOf? (·.config?) fun c v => { c with config? := v }]

/-- The switch that pins an application. -/
def appSwitch {σ : Type} (get? : σ → Option String) (set : σ → Option String → σ) : Switch σ :=
  .value "app" none some get? set

/-- The switches of a listing. -/
def listSwitches : List (Switch ListOptions) :=
  [appSwitch (·.app?) fun o v => { o with app? := v },
    .value "format" (some 'f') Format.ofName? (·.format?) fun o v => { o with format? := v },
    .flag "source" (·.source) fun o v => { o with source := v }]

/-- An operand that can be given once. -/
def operandOnce {σ α : Type} (read? : String → Option α) (get? : σ → Option α)
    (set : σ → Option α → σ) (text : String) (s : σ) : Option σ :=
  if (get? s).isSome then none else (read? text).map fun a => set s (some a)

/-- The grammar of a command with the given switches and operand. -/
def commandGrammar {ρ : Type} (switches : List (Switch ρ)) (operand : String → ρ → Option ρ) :
    Grammar (Draft ρ) where
  switches := .help
    :: commonSwitches.map (.lift (·.common) fun d c => { d with common := c })
    ++ switches.map (.lift (·.request) fun d r => { d with request := r })
  operand? := some fun text d => (operand text d.request).map fun r => { d with request := r }
  commands := []

/-- The words behind `locate`. -/
def locateGrammar : Grammar (Draft LocateRequest) :=
  commandGrammar
    (listSwitches.map (.lift (·.options) fun r o => { r with options := o })
      ++ [.flag "remember" (·.remember) fun r v => { r with remember := v },
        .flag "strict" (·.strict) fun r v => { r with strict := v }])
    (operandOnce pathOf? (·.file?) fun r v => { r with file? := v })

/-- The words behind `scan`. -/
def scanGrammar : Grammar (Draft ScanRequest) :=
  commandGrammar (listSwitches.map (.lift (·.options) fun r o => { r with options := o }))
    (operandOnce pathOf? (·.root?) fun r v => { r with root? := v })

/-- The words behind `watch`. -/
def watchGrammar : Grammar (Draft WatchRequest) :=
  commandGrammar
    [appSwitch (·.app?) fun r v => { r with app? := v },
      .value "debounce-ms" none countOf? (·.debounce?) fun r v => { r with debounce? := v }]
    (operandOnce pathOf? (·.file?) fun r v => { r with file? := v })

/-- The words behind `completions`. -/
def completionsGrammar : Grammar (Draft (Option Shell)) :=
  commandGrammar [] (operandOnce shellOf? id fun _ v => v)

/-- The commands that do something. -/
def commandNames : List String := ["locate", "scan", "watch", "completions"]

/-- The command that asks for help on another. -/
def helpName : String := "help"

/-- The words in front of a command. -/
def outerGrammar : Grammar Common where
  switches := .help :: ⟨"version", some 'V', .halt .version⟩ :: commonSwitches
  operand? := none
  commands := commandNames ++ [helpName]

/-! ### Reading -/

/-- Reads the words behind a command word. -/
def draft {ρ : Type} (g : Grammar (Draft ρ)) (nothing : ρ) (words : List String) :
    Except Halt (Draft ρ) :=
  match g.read (.ready (some ⟨.unset, nothing⟩)) words with
  | .error h => .error h
  | .ok (some d, _) => .ok d
  | .ok (none, _) => .error .misuse

/-- Reads a command and the words behind it. -/
def invocation (name : String) (words : List String) : Except Halt Invocation :=
  match name with
  | "locate" => (draft locateGrammar ⟨none, .unset, false, false⟩ words).map fun d =>
    ⟨d.common, .locate d.request⟩
  | "scan" => (draft scanGrammar ⟨none, .unset⟩ words).map fun d =>
    ⟨d.common, .scan d.request⟩
  | "watch" => (draft watchGrammar ⟨none, none, none⟩ words).map fun d =>
    ⟨d.common, .watch d.request⟩
  | "completions" =>
    match draft completionsGrammar none words with
    | .error h => .error h
    | .ok ⟨common, some shell⟩ => .ok ⟨common, .completions shell⟩
    | .ok ⟨_, none⟩ => .error .misuse
  | _ => .error .misuse

/-- Help is there on the program and on each command, and on nothing below a command. -/
def helpOn : List String → Halt
  | [] => .help
  | [name] => if name ∈ outerGrammar.commands then .help else .misuse
  | _ => .misuse

end CommandLine

open CommandLine in
/-- What a command line asks for. -/
def Invocation.ofWords (words : List String) : Except Halt Invocation :=
  match outerGrammar.read (.ready (some .unset)) words with
  | .error h => .error h
  | .ok (_, []) => .error .misuse
  | .ok (outer?, name :: rest) =>
    if name = helpName then .error (helpOn rest)
    else
      match invocation name rest, outer? with
      | .error h, _ => .error h
      | .ok _, none => .error .misuse
      | .ok i, some outer => .ok { i with common := outer.overridden i.common }

/-! ### Answers without a run -/

/-- The program's name and version. -/
def versionText : String := "appmanifest 0.1.0\n"

/-- The exit code of a command line that asks for no run. -/
def CommandLine.Halt.exitCode : Halt → Nat
  | .misuse => 2
  | .help | .version => 0

/-- What is said in answer to a command line that asks for no run, the texts about its use apart. -/
def CommandLine.Halt.answer : Halt → String
  | .version => versionText
  | .misuse | .help => ""

end Manifest
