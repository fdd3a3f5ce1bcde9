import Manifest.Glob

/-! # How deep globs are

A set of globs is matched through regular expressions, one for each glob. An expression that is nested
too deep is refused, and with it the whole set. Sequences of more than one item, groups, alternatives,
repetitions and classes each count for one level. -/

namespace Manifest.Glob

/-- How deep an expression may be. -/
def depthLimit : Nat := 250

/-- The depth of a sequence of items with the given depths. -/
def depthOfSequence : List Nat → Nat
  | [] => 0
  | [n] => n
  | depths => 1 + depths.foldl max 0

mutual

/-- The depths of the items that a token is written as. -/
def depthsOfToken (separate : Bool) : Token → List Nat
  | .literal c => (String.utf8EncodeChar c).map fun _ => 0
  | .any => [if separate then 1 else 0]
  | .many => [if separate then 2 else 1]
  | .leading | .middle => [4]
  | .trailing => [0, 1]
  | .oneOf _ ranges => [if (ranges.flatMap byteRanges).length ≤ 1 then 1 else 2]
  | .either branches =>
    match depthsOfBranches separate branches with
    | [] => []
    | [n] => [1 + n]
    | depths => [2 + depths.foldl max 0]

/-- The depths of the items that a row of tokens is written as. -/
def depths (separate : Bool) : List Token → List Nat
  | [] => []
  | t :: ts => depthsOfToken separate t ++ depths separate ts

/-- The depths of the branches that stand for something. -/
def depthsOfBranches (separate : Bool) : List (List Token) → List Nat
  | [] => []
  | b :: branches =>
    (if isNothing b then [] else [depthOfSequence (depths separate b)])
      ++ depthsOfBranches separate branches

end

/-- The depth of the whole expression, in which the glob stands between two ends. -/
def depth (g : Glob) : Nat := 1 + (depths g.separate g.tokens).foldl max 0

/-- A set can hold the glob. -/
def isShallow (g : Glob) : Bool := g.depth ≤ depthLimit

end Manifest.Glob
