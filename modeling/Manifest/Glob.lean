import Manifest.Text.Bytes

/-! # Globs

Patterns for paths. `?` stands for one byte, `*` for any bytes and `[…]` for one byte of a class;
`{…,…}` stands for any of its branches. `**` stands for whole directories: in front of a slash for
any that lie above, behind a slash for all that lies below, and between slashes for any that lie
between. Whether `?` and `*` also stand for a slash depends on the glob.

Matching is a matter of bytes, so `?` does not stand for a character that is written in more than
one. A class holds the bytes of its characters; a range in it goes from the last byte of its first
character to the first byte of its last one. -/

namespace Manifest

/-- A part of a glob. -/
inductive Glob.Token
  | literal (c : Char)
  /-- `?`. -/
  | any
  /-- `*`. -/
  | many
  /-- `**/` at the start. -/
  | leading
  /-- `/**` at the end. -/
  | trailing
  /-- `/**/`. -/
  | middle
  | oneOf (negated : Bool) (ranges : List (Char × Char))
  | either (branches : List (List Glob.Token))
deriving Repr, Inhabited

/-- A glob. -/
structure Glob where
  tokens : List Glob.Token
  /-- `?` and `*` do not stand for a slash. -/
  separate : Bool
deriving Repr

namespace Glob

open Text (slash)

/-! ### Classes -/

/-- The ranges of bytes that a range of characters comes to. -/
def byteRanges (r : Char × Char) : List (UInt8 × UInt8) :=
  let first := String.utf8EncodeChar r.1
  let last := String.utf8EncodeChar r.2
  let single (b : UInt8) : UInt8 × UInt8 := (b, b)
  if r.1 = r.2 then first.map single
  else
    first.dropLast.map single ++ [(first.getLastD 0, last.headD 0)] ++ last.tail.map single

/-- A byte belongs to a class. -/
def inClass (ranges : List (Char × Char)) (b : UInt8) : Bool :=
  (ranges.flatMap byteRanges).any fun r => r.1 ≤ b && b ≤ r.2

/-! ### Matching -/

/-- The bytes behind each slash. -/
def afterSlashes : List UInt8 → List (List UInt8)
  | [] => []
  | b :: rest => if b = slash then rest :: afterSlashes rest else afterSlashes rest

/-- The rests of some bytes, from the whole to the empty one, as far as what is passed over may
stand for `*`. -/
def restsOfMany (separate : Bool) : List UInt8 → List (List UInt8)
  | [] => [[]]
  | b :: rest =>
    (b :: rest) :: if separate && b = slash then [] else restsOfMany separate rest

/-- The bytes behind given ones at the start. -/
def afterBytes? : List UInt8 → List UInt8 → Option (List UInt8)
  | [], bs => some bs
  | _ :: _, [] => none
  | w :: ws, b :: bs => if w = b then afterBytes? ws bs else none

/-- The tokens stand for nothing at all. -/
def isNothing : List Token → Bool
  | [] => true
  | .either branches :: rest => allNothing branches && isNothing rest
  | _ :: _ => false
where
  /-- All branches stand for nothing. -/
  allNothing : List (List Token) → Bool
    | [] => true
    | b :: rest => isNothing b && allNothing rest

mutual

/-- The rests of some bytes behind what a token stands for. -/
def restsOfToken (separate : Bool) : Token → List UInt8 → List (List UInt8)
  | .literal c, bs => (afterBytes? (String.utf8EncodeChar c) bs).toList
  | .any, b :: rest => if separate && b = slash then [] else [rest]
  | .any, [] => []
  | .many, bs => restsOfMany separate bs
  | .leading, bs => bs :: afterSlashes bs
  | .trailing, b :: rest => if b = slash then restsOfMany false rest else []
  | .trailing, [] => []
  | .middle, b :: rest => if b = slash then rest :: afterSlashes rest else []
  | .middle, [] => []
  | .oneOf negated ranges, b :: rest => if inClass ranges b != negated then [rest] else []
  | .oneOf _ _, [] => []
  | .either branches, bs =>
    if isNothing.allNothing branches then [bs] else restsOfBranches separate branches bs

/-- The rests of some bytes behind what a row of tokens stands for. -/
def rests (separate : Bool) : List Token → List UInt8 → List (List UInt8)
  | [], bs => [bs]
  | t :: ts, bs => (restsOfToken separate t bs).flatMap (rests separate ts)

/-- The rests of some bytes behind what any of some branches stands for. A branch that stands for
nothing is left out. -/
def restsOfBranches (separate : Bool) : List (List Token) → List UInt8 → List (List UInt8)
  | [], _ => []
  | b :: branches, bs =>
    (if isNothing b then [] else rests separate b bs) ++ restsOfBranches separate branches bs

end

/-- The glob is a lone `**`, which stands for every path. -/
def isEverything (g : Glob) : Bool :=
  match g.tokens with
  | [.leading] => true
  | _ => false

/-- The glob stands for a path, or for a name. -/
def isMatch (g : Glob) (path : List UInt8) : Bool :=
  g.isEverything || (rests g.separate g.tokens path).any List.isEmpty

end Glob

/-- One of some globs stands for a path. -/
def anyMatch (globs : List Glob) (path : List UInt8) : Bool := globs.any (·.isMatch path)

end Manifest
