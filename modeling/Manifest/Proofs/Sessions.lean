import Manifest.Session

/-! # Runs of sessions

What happens to a session comes step by step: passes over versions of the document, and resets. The
trace of a run is what its steps give to the outside: for a pass what it has found and changed, for a
reset nothing. -/

namespace Manifest.Proofs.Sessions

/-- What can happen to a session. -/
inductive Step
  | initial (d : Document)
  | reconcile (d : Document) (dirty? : Option Span)
  | reset

/-- What a step gives to the outside, and the session behind it. -/
def Step.take (s : Session) : Step → Option Pass × Session
  | .initial d => ((s.initial d).1, (s.initial d).2)
  | .reconcile d dirty? => ((s.reconcile d dirty?).1, (s.reconcile d dirty?).2)
  | .reset => (none, s.reset)

/-- The session behind some steps. -/
def run (s : Session) (steps : List Step) : Session := steps.foldl (fun s step => (step.take s).2) s

/-- What some steps give to the outside. -/
def trace (s : Session) : List Step → List (Option Pass)
  | [] => []
  | step :: steps => (step.take s).1 :: trace (step.take s).2 steps

/-- A pass tells what it has found, and how that differs from what was found before. -/
theorem take_eq_pass {s : Session} {step : Step} {pass : Pass} (h : (step.take s).1 = some pass) :
    (step.take s).2.current = pass.located ∧ pass.changes = .between s.current pass.located := by
  cases step with
  | initial d => obtain rfl := Option.some.inj h; exact ⟨rfl, rfl⟩
  | reconcile d dirty? => obtain rfl := Option.some.inj h; exact ⟨rfl, rfl⟩
  | reset => cases h

/-- Only a reset gives nothing to the outside. -/
theorem take_eq_none {s : Session} {step : Step} (h : (step.take s).1 = none) :
    (step.take s).2.current = .empty := by
  cases step with
  | initial d => cases h
  | reconcile d dirty? => cases h
  | reset => rfl

end Manifest.Proofs.Sessions
