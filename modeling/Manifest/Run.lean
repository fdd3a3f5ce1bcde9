import Manifest.Config.Load
import Manifest.Run.Locate
import Manifest.Scan
import Manifest.Verbosity
import Manifest.Watch

/-! # Runs

What the program does when it is asked for something: the configuration is loaded, and the command
is run with it. A run that lists something is over with the listing; a run that watches goes on
behind its first pass until it is stopped. -/

namespace Manifest

/-- How a run ends. -/
inductive Ending
  | done
  | failed (f : Failure)
  /-- The run goes on watching, with a quiet time in milliseconds. -/
  | watching (w : Watcher) (debounce : Nat)

/-- What a run has done. -/
structure Outcome where
  printed : String
  disk : Disk
  ending : Ending

namespace Outcome

/-- A run that is over with what it has printed. -/
def done (d : Disk) (printed : String) : Outcome := ⟨printed, d, .done⟩

/-- A run that has failed and left a disk, with nothing printed. -/
def failed (d : Disk) (f : Failure) : Outcome := ⟨"", d, .failed f⟩

/-- Why the run has failed. -/
def failure? (o : Outcome) : Option Failure :=
  match o.ending with
  | .failed f => some f
  | _ => none

/-- The exit code of the run. -/
def exitCode (o : Outcome) : Nat := if o.failure?.isSome then 1 else 0

end Outcome

/-- Lists a manifest. -/
def LocateRequest.outcome (r : LocateRequest) (c : Config) (d : Disk) : Outcome :=
  match (r.perform c).run d with
  | .ok view d => .done d (r.options.listing c [view])
  | .error e d => .failed d e.failure

theorem LocateRequest.outcome_of_ok {r : LocateRequest} {c : Config} {d : Disk} {result : Result}
    (h : r.run c d = .ok result) :
    r.outcome c d = .done result.disk (r.options.listing c [result.view]) := by
  rw [LocateRequest.run] at h
  rw [LocateRequest.outcome]
  cases hperform : (r.perform c).run d with
  | ok view d' =>
    rw [hperform] at h
    cases h
    rfl
  | error e d' =>
    rw [hperform] at h
    cases h

theorem LocateRequest.exists_outcome_of_error {r : LocateRequest} {c : Config} {d : Disk} {e : Error}
    (h : r.run c d = .error e) : ∃ d', r.outcome c d = .failed d' e.failure := by
  rw [LocateRequest.run] at h
  rw [LocateRequest.outcome]
  cases hperform : (r.perform c).run d with
  | ok view d' =>
    rw [hperform] at h
    cases h
  | error e d' =>
    rw [hperform] at h
    cases h
    exact ⟨d', rfl⟩

/-- Finds the manifests below a directory. -/
def ScanRequest.run (r : ScanRequest) (c : Config) (d : Disk) (env : Environment) :
    Except Scan.Error (List View) :=
  (Scan.run ⟨r.root, c, Scan.defaultSizeLimit⟩ d env).map fun found =>
    Scan.views d found (c.locator r.options.app?)

/-- Lists the manifests below a directory. -/
def ScanRequest.outcome (r : ScanRequest) (c : Config) (d : Disk) (env : Environment) : Outcome :=
  match r.run c d env with
  | .ok views => .done d (r.options.listing c views)
  | .error e => .failed d e.failure

/-- The first pass of a watcher. -/
def WatchRequest.run (r : WatchRequest) (c : Config) (d : Disk) :
    Except Watcher.Error (Pass × Watcher) :=
  let w := Watcher.start r.file (c.locator r.app?)
  match w.ready d with
  | .error e => .error e
  | .ok () => w.pass d

/-- Tells what the first pass of a watcher finds, and goes on from there. -/
def WatchRequest.outcome (r : WatchRequest) (c : Config) (d : Disk) : Outcome :=
  match r.run c d with
  | .ok (pass, w) => ⟨pass.changes.describe, d, .watching w (r.debounce?.getD c.debounce)⟩
  | .error e => .failed d e.failure

namespace Invocation

/-- How much a run logs. -/
def level (i : Invocation) (c : Config) : String :=
  logLevel i.common.verbose (i.common.logLevel?.getD c.logLevel)

/-- What a run does with a configuration. The words that a shell needs are no part of it. -/
def outcome (i : Invocation) (c : Config) (d : Disk) (env : Environment) : Outcome :=
  match i.command with
  | .locate r => r.outcome c d
  | .scan r => r.outcome c d env
  | .watch r => r.outcome c d
  | .completions _ => .done d ""

/-- Runs what is asked for. -/
def run (i : Invocation) (d : Disk) (env : Environment) : Outcome :=
  match Config.load d env i.common.config? with
  | .ok c => i.outcome c d env
  | .error e => .failed d e.failure

end Invocation

end Manifest
