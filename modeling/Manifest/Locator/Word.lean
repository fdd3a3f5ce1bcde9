import Manifest.Document.Word
import Manifest.Locator

/-! # Selecting in 64-bit arithmetic

The search for the entry of a previous selection as a machine runs it. The distance of two offsets is
the difference that does not go below zero, and every candidate has its distance taken once. -/

namespace Manifest.Locator.Word

open Manifest.Document.Word

/-- The distance between two offsets. -/
def distance (a b : Nat) : Run Nat := if a < b then sub b a else sub a b

/-- The index of the first entry with a name whose start is nearest to an offset. -/
def nearest? (name : String) (start : Nat) (entries : List Entry) : Run (Option Nat) := do
  let candidates := entries.zipIdx.filter fun (e, _) => e.name == name
  let distances ← candidates.mapM fun (e, i) => do return (← distance e.span.start start, i)
  let nearer (best next : Nat × Nat) : Nat × Nat := if next.1 < best.1 then next else best
  match distances with
  | [] => return none
  | c :: rest => return some (rest.foldl nearer c).2

/-- The index of the entry that a previous selection stands for. -/
def reselect? (previous : Selection) (entries : List Entry) : Run (Option Nat) := do
  let nearest ← nearest? previous.name previous.start entries
  return nearest <|> entries.findIdx? (·.span.start == previous.start)

end Manifest.Locator.Word
