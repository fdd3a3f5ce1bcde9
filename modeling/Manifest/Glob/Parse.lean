import Manifest.Glob

/-! # Reading globs

A backslash takes the meaning from the character behind it. In a class `!` or `^` in front negates, a
`]` in front and a `-` at either end stand for themselves. Braces nest. `**` means directories only
where it fills the space between slashes, the ends of the glob and the commas and braces of branches;
elsewhere it is two stars. -/

namespace Manifest.Glob

/-- Which globs are read. -/
structure Style where
  /-- `?` and `*` do not stand for a slash. -/
  separate : Bool
  /-- A bracket that is never closed stands for itself, and so do those behind it. -/
  looseBrackets : Bool

/-! ### Classes -/

/-- What stands behind an opening bracket. -/
inductive Class
  | closed (negated : Bool) (ranges : List (Char × Char)) (rest : List Char)
  | unclosed
  /-- A range ends below its start. -/
  | reversed

/-- The last range stretched to a character, if it does not lie below. -/
def stretch? (ranges : List (Char × Char)) (c : Char) : Option (List (Char × Char)) :=
  match ranges with
  | [] => none
  | (a, _) :: rest => if c < a then none else some ((a, c) :: rest)

/-- The items of a class. `ranges` holds those so far in reverse, `inRange` tells that a hyphen waits
for the end of its range. -/
def classItems (negated first inRange : Bool) (ranges : List (Char × Char)) : List Char → Class
  | [] => .unclosed
  | c :: rest =>
    if c = ']' ∧ !first then
      .closed negated (if inRange then ('-', '-') :: ranges else ranges).reverse rest
    else if c = '-' ∧ !first ∧ !inRange then classItems negated false true ranges rest
    else if inRange then
      match stretch? ranges c with
      | some ranges => classItems negated false false ranges rest
      | none => .reversed
    else classItems negated false false ((c, c) :: ranges) rest

/-- A class from behind its opening bracket. -/
def readClass (cs : List Char) : Class :=
  match cs with
  | '!' :: rest | '^' :: rest => classItems true true false [] rest
  | cs => classItems false true false [] cs

/-! ### Tokens -/

/-- A group whose brace is open: the tokens in front of it in reverse, and its finished branches in
reverse. -/
structure Group where
  before : List Token
  branches : List (List Token)

/-- What has been read: the open groups, the innermost first, and the tokens of the branch being
read, in reverse. -/
structure Draft where
  groups : List Group
  tokens : List Token
  /-- A bracket was never closed. -/
  sawLoose : Bool

namespace Draft

/-- Nothing has been read. -/
def empty : Draft := ⟨[], [], false⟩

/-- One more token. -/
def push (d : Draft) (t : Token) : Draft := { d with tokens := t :: d.tokens }

/-- The last token replaced because of `**` behind it. -/
def spread (d : Draft) (t : Token) : Draft :=
  match d.tokens with
  | .leading :: _ | .trailing :: _ => d
  | _ :: rest => { d with tokens := t :: rest }
  | [] => d

/-- A brace is opened. -/
def openGroup (d : Draft) : Draft := { d with groups := ⟨d.tokens, []⟩ :: d.groups, tokens := [] }

/-- A comma. -/
def comma (d : Draft) : Draft :=
  match d.groups with
  | [] => d.push (.literal ',')
  | g :: groups =>
    { d with groups := { g with branches := d.tokens.reverse :: g.branches } :: groups, tokens := [] }

/-- A brace is closed. -/
def closeGroup? (d : Draft) : Option Draft :=
  match d.groups with
  | [] => none
  | g :: groups =>
    let branches := (d.tokens.reverse :: g.branches).reverse
    some { d with groups, tokens := .either branches :: g.before }

/-- `**` can stand for directories behind the character `previous`. -/
def mayStartAfter (d : Draft) (previous : Option Char) : Bool :=
  previous == some '/' || (!d.groups.isEmpty && (previous == some ',' || previous == some '{'))

/-- Two stars, in front of `rest`: the draft with them, the last character read, and the text behind
them. -/
def stars (d : Draft) (previous : Option Char) (rest : List Char) : Draft × Char × List Char :=
  let plain := ((d.push .many).push .many, '*', rest)
  if d.tokens.isEmpty then
    match rest with
    | [] => (d.push .leading, '*', [])
    | '/' :: rest => (d.push .leading, '/', rest)
    | _ => plain
  else if d.mayStartAfter previous then
    match rest with
    | [] => (d.spread .trailing, '*', [])
    | '/' :: rest => (d.spread .middle, '/', rest)
    | c :: _ =>
      if !d.groups.isEmpty ∧ (c = ',' ∨ c = '}') then (d.spread .trailing, '*', rest) else plain
  else plain

end Draft

/-- Reads the tokens of a text, where `previous` is the character in front of it. -/
def readTokens (style : Style) :
    (fuel : Nat) → Draft → (previous : Option Char) → List Char → Option Draft
  | 0, _, _, _ => none
  | fuel + 1, d, previous, cs =>
    match cs with
    | [] => some d
    | '?' :: rest => readTokens style fuel (d.push .any) (some '?') rest
    | '*' :: '*' :: rest =>
      let (d, last, rest) := d.stars previous rest
      readTokens style fuel d (some last) rest
    | '*' :: rest => readTokens style fuel (d.push .many) (some '*') rest
    | '{' :: rest => readTokens style fuel d.openGroup (some '{') rest
    | '}' :: rest => d.closeGroup?.bind fun d => readTokens style fuel d (some '}') rest
    | ',' :: rest => readTokens style fuel d.comma (some ',') rest
    | '\\' :: c :: rest => readTokens style fuel (d.push (.literal c)) (some c) rest
    | ['\\'] => none
    | c :: rest =>
      if c = '[' ∧ !d.sawLoose then
        match readClass rest with
        | .closed negated ranges rest =>
          readTokens style fuel (d.push (.oneOf negated ranges)) (some ']') rest
        | .unclosed =>
          if style.looseBrackets then
            readTokens style fuel { d.push (.literal '[') with sawLoose := true } (some '[') rest
          else none
        | .reversed => none
      else readTokens style fuel (d.push (.literal c)) (some c) rest

/-- The glob that a text writes. -/
def parse? (style : Style) (s : String) : Option Glob :=
  let cs := s.toList
  match readTokens style (cs.length + 1) .empty none cs with
  | some ⟨[], tokens, _⟩ => some ⟨tokens.reverse, style.separate⟩
  | _ => none

end Manifest.Glob
