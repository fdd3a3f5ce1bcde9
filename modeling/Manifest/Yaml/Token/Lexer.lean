import Manifest.Yaml.Scalar.Block
import Manifest.Yaml.Scalar.Plain
import Manifest.Yaml.Scalar.Quoted
import Manifest.Yaml.Token.Tag

/-! # The lexer's state

Beside its cursor the lexer keeps the tokens read so far, the open block and flow collections, and
for each open flow collection a candidate: the last token that turns out to be a key if a colon
follows. When the colon comes, the tokens that mark the key, and with it perhaps the start of a
mapping, are inserted in front of the candidate. -/

namespace Manifest.Yaml

/-- A token that may turn out to be a key. -/
structure Candidate where
  /-- It still may. -/
  possible : Bool
  /-- It must: it stands where a block mapping expects its next key. -/
  required : Bool
  /-- The number of tokens in front of it. -/
  position : Nat
  mark : Mark
deriving DecidableEq, Repr

/-- No token. -/
def Candidate.none : Candidate := ⟨false, false, 0, ⟨0, 0, 0⟩⟩

/-- The candidate, given up. -/
def Candidate.giveUp (k : Candidate) : Candidate := { k with possible := false }

/-- An indentation that is put back when the current one ends. -/
structure Indent where
  column : Int
  /-- The current indentation is that of a block collection, which ends with it. -/
  block : Bool
deriving DecidableEq, Repr

/-- The state of the lexer. -/
structure Lexer where
  cursor : Cursor
  /-- The tokens read so far, newest first, and their number. -/
  tokens : List Token
  count : Nat
  /-- How many of them no insertion can precede any more. -/
  settled : Nat
  /-- The candidates of the open flow collections, innermost first, and last the one outside. -/
  candidates : List Candidate
  /-- A key may start here. -/
  keyAllowed : Bool
  /-- The column of the innermost block, −1 outside. -/
  indent : Int
  indents : List Indent
  /-- The number of open flow collections. -/
  flow : Nat
  /-- A mapping has been started explicitly inside the flow collections. -/
  mappingStarted : Bool
  /-- For each open flow sequence whether a mapping without braces is open in it. -/
  pairs : List Bool
  /-- The index directly behind a token after which a colon needs no blank. -/
  adjacent : Nat
deriving DecidableEq, Repr

namespace Lexer

variable (l : Lexer)

/-- The lexer at the start of a text, with the token of the stream's start. -/
def ofText (s : String) : Lexer where
  cursor := Cursor.ofText s
  tokens := [.point .streamStart .origin]
  count := 1
  settled := 0
  candidates := [.none]
  keyAllowed := true
  indent := -1
  indents := []
  flow := 0
  mappingStarted := false
  pairs := []
  adjacent := 0

/-- The mark of the cursor. -/
def mark : Mark := l.cursor.mark

/-- A fault at the cursor. -/
def fail {α : Type} (cause : Cause) : Except Fault α := l.cursor.fail cause

/-- The state is inside flow collections. -/
def inFlow : Bool := l.flow != 0

/-- Appends a token. -/
def push (t : Token) : Lexer := { l with tokens := t :: l.tokens, count := l.count + 1 }

/-- Inserts a token so that `position` tokens stand in front of it. -/
def insert (position : Nat) (t : Token) : Lexer :=
  let behind := l.count - position
  { l with
    tokens := l.tokens.take behind ++ t :: l.tokens.drop behind
    count := l.count + 1 }

/-! ### Indentation -/

/-- Ends the blocks whose column is greater than `column`, outside of flow collections. -/
def closeBlocks (column : Int) : Lexer :=
  if l.inFlow then l else go l l.indents
where
  /-- Ends blocks as long as there are any in the list and the current column is too great. -/
  go (l : Lexer) : List Indent → Lexer
    | [] => l
    | i :: rest =>
      if l.indent ≤ column then l
      else
        let closed := { l with indent := i.column, indents := rest }
        go (if i.block then closed.push (.point .blockEnd l.mark) else closed) rest

/-- Gives up the indentations at the top that belong to no block. -/
def dropLooseIndents : Lexer := go l l.indents
where
  /-- Gives up indentations as long as there are loose ones in the list. -/
  go (l : Lexer) : List Indent → Lexer
    | [] => l
    | i :: rest => if i.block then l else go { l with indent := i.column, indents := rest } rest

/-- Starts a block at `column`, unless one at that column or further right is open. Its token goes
in front of the token at `position?`, or behind all tokens. -/
def openBlock (column : Nat) (position? : Option Nat) (kind : Token.Kind) (m : Mark) : Lexer :=
  if l.inFlow then l
  else
    let l :=
      match l.indents with
      | i :: rest =>
        if l.indent ≤ (column : Int) ∧ !i.block then { l with indent := i.column, indents := rest }
        else l
      | [] => l
    if l.indent < (column : Int) then
      let l := { l with indent := column, indents := ⟨l.indent, true⟩ :: l.indents }
      match position? with
      | some position => l.insert position (.point kind m)
      | none => l.push (.point kind m)
    else l

/-- Asks what follows on further lines to be indented by one more column, inside a block. -/
def indentOne : Lexer :=
  match l.inFlow, l.indents with
  | false, i :: _ =>
    if i.block then { l with indent := l.indent + 1, indents := ⟨l.indent, false⟩ :: l.indents }
    else l
  | _, _ => l

/-! ### Candidates for keys -/

/-- Makes the next token a candidate, if a key may start here. -/
def saveCandidate : Lexer :=
  if !l.keyAllowed then l
  else
    let required :=
      !l.inFlow && l.indent == l.cursor.column && (l.indents.head?.any Indent.block)
    { l with candidates := ⟨true, required, l.count, l.mark⟩ :: l.candidates.tail }

/-- Gives up the innermost candidate. -/
def dropCandidate : Except Fault Lexer :=
  match l.candidates with
  | k :: rest =>
    if k.possible && k.required then l.fail .keyMissing
    else .ok { l with candidates := k.giveUp :: rest }
  | [] => .ok l

/-- A candidate outside of flow collections is given up after 1024 characters and at the end of its
line. -/
def isStale (k : Candidate) : Bool :=
  k.possible && !l.inFlow && (k.mark.line < l.mark.line || k.mark.index + 1024 < l.mark.index)

/-- Gives up the candidates that are too far back. -/
def dropStale : Except Fault Lexer :=
  if l.candidates.any fun k => l.isStale k && k.required then l.fail .keyRequired
  else
    .ok { l with
      candidates := l.candidates.map fun k => if l.isStale k then k.giveUp else k }

/-- Settles the tokens in front of the first candidate that may still be a key. -/
def settle : Lexer :=
  let open? := (l.candidates.filter Candidate.possible).map Candidate.position
  { l with settled := max l.settled (open?.foldl min l.count) }

/-! ### Moving on -/

/-- The indentation that tabs must not stand in for, inside a block. -/
def tabLimit? : Option Int := if l.indents.isEmpty then none else some l.indent

/-- Passes the gap in front of the next token. A key may start on a new line outside of flow
collections. -/
def skipGap : Except Fault Lexer :=
  match l.cursor.skipGap l.tabLimit? with
  | .error e => .error e
  | .ok gap =>
    .ok { l with
      cursor := gap.cursor
      keyAllowed := l.keyAllowed || (gap.crossedLine && !l.inFlow) }

/-- Moves the cursor over the indicator of a token and what is left of its line. -/
def skipIndicator (n : Nat) : Except Fault Lexer :=
  match (l.cursor.take n).skipLineRest true with
  | .error e => .error e
  | .ok line => .ok { l with cursor := line.cursor }

/-! ### Tokens -/

/-- The end of the text: all that is open ends. -/
def fetchStreamEnd : Except Fault Lexer :=
  let m := l.mark
  let l :=
    if m.column = 0 then l
    else { l with cursor := { l.cursor with mark := ⟨m.index, m.line + 1, 0⟩ } }
  if l.candidates.any fun k => k.possible && k.required then l.fail .keyMissing
  else
    let l := { l with candidates := l.candidates.map Candidate.giveUp }
    let l := l.closeBlocks (-1)
    .ok ({ l with keyAllowed := false }.push (.point .streamEnd l.mark))

/-- A directive. -/
def fetchDirective : Except Fault Lexer := do
  let l ← (l.closeBlocks (-1)).dropCandidate
  let (token, cursor) ← scanDirective l.cursor
  return { l with keyAllowed := false, cursor }.push token

/-- The marker of a document's start or end. -/
def fetchDocumentMarker (kind : Token.Kind) : Except Fault Lexer := do
  let l ← (l.closeBlocks (-1)).dropCandidate
  let cursor := l.cursor.take 3
  return { l with keyAllowed := false, cursor }.push ⟨kind, l.mark, cursor.mark⟩

/-- The marker of a document's end, with which its line ends too. -/
def fetchDocumentEnd : Except Fault Lexer := do
  let l ← l.fetchDocumentMarker .documentEnd
  let line ← l.cursor.skipLineRest true
  if atBreak line.cursor.rest then return { l with cursor := line.cursor }
  else line.cursor.fail .contentAfterDocumentEnd

/-- The start of a flow collection. They nest at most 255 deep. -/
def fetchFlowStart (kind : Token.Kind) : Except Fault Lexer :=
  let start := l.mark
  let l := l.saveCandidate.indentOne
  let l := { l with candidates := .none :: l.candidates }
  if l.flow ≥ 255 then l.fail .nestingTooDeep
  else
    let l := { l with flow := l.flow + 1, keyAllowed := true }
    let l :=
      if kind = .flowMappingStart then { l with mappingStarted := true }
      else { l with pairs := false :: l.pairs }
    match l.skipIndicator 1 with
    | .error e => .error e
    | .ok l => .ok (l.push ⟨kind, start, l.mark⟩)

/-- Ends a mapping without braces inside a flow sequence. -/
def closePair : Lexer :=
  match l.pairs with
  | true :: rest =>
    { l with mappingStarted := false, pairs := false :: rest }.push (.point .flowMappingEnd l.mark)
  | _ => l

/-- The end of a flow collection. -/
def fetchFlowEnd (kind : Token.Kind) : Except Fault Lexer := do
  let l ← l.dropCandidate
  let l :=
    if l.flow = 0 then l else { l with flow := l.flow - 1, candidates := l.candidates.tail }
  let l := { l with keyAllowed := false }
  let l :=
    if kind = .flowSequenceEnd then
      let l := l.closePair
      { l with pairs := l.pairs.tail }
    else l
  let start := l.mark
  let l ← l.skipIndicator 1
  let l := if l.inFlow then { l with adjacent := l.mark.index } else l
  return l.push ⟨kind, start, l.mark⟩

/-- The comma between the entries of a flow collection. -/
def fetchFlowEntry : Except Fault Lexer := do
  let l ← l.dropCandidate
  let l := { l with keyAllowed := true }.closePair
  let start := l.mark
  let l ← l.skipIndicator 1
  return l.push ⟨.flowEntry, start, l.mark⟩

/-- The dash in front of an entry of a block sequence. -/
def fetchBlockEntry : Except Fault Lexer := do
  if l.inFlow then l.fail .entryOutsideBlock
  else if !l.keyAllowed then l.fail .entryNotAllowed
  else
    let start := l.mark
    let l := { l with cursor := l.cursor.take 1 }
    let l := l.openBlock start.column none .blockSequenceStart start
    let line ← l.cursor.skipLineRest true
    let rest := line.cursor.rest
    if line.sawTab && nextIs (· == '-') rest && atBlank rest.tail then
      line.cursor.fail .entryNotSeparated
    else
      let l := { l with cursor := line.cursor }
      let l := if nextIs (fun c => isBreak c || isFlow c) rest then l.indentOne else l
      let l ← l.dropCandidate
      return { l with keyAllowed := true }.push (.point .blockEntry l.mark)

/-- The indicator of an explicit key. -/
def fetchKey : Except Fault Lexer := do
  let start := l.mark
  if !l.inFlow && !l.keyAllowed then l.fail .keyNotAllowed
  else
    let l :=
      if l.inFlow then { l with mappingStarted := true }
      else l.openBlock start.column none .blockMappingStart start
    let l ← l.dropCandidate
    let gap ← (l.cursor.take 1).skipKeyGap
    if nextIs (· == '\t') gap.cursor.rest then gap.cursor.fail .tabInContext
    else
      return { l with keyAllowed := !l.inFlow, cursor := gap.cursor }.push
        ⟨.key, start, gap.cursor.mark⟩

/-- The colon between a key and its value. If a candidate is open, it was the key. -/
def fetchValue : Except Fault Lexer := do
  let start := l.mark
  let k := l.candidates.head?.getD .none
  let pair := !l.pairs.isEmpty && !l.mappingStarted
  let l := if pair then { l with pairs := true :: l.pairs.tail } else l
  let colon := l.cursor.take 1
  let line ←
    if nextIs (· == '\t') colon.rest then colon.skipLineRest true
    else pure ⟨colon, false, true⟩
  if !line.sawSpace && nextIs (fun c => c == '-' || isAlpha c) line.cursor.rest then
    line.cursor.fail .valueNotSeparated
  else
    let l := { l with cursor := line.cursor }
    if k.possible then
      let l := l.insert k.position (.point .key k.mark)
      if pair && k.mark.line < start.line then .error ⟨.valueMisplaced, start⟩
      else
        let l := if pair then l.insert k.position (.point .flowMappingStart k.mark) else l
        let l := (l.openBlock k.mark.column (some k.position) .blockMappingStart k.mark).indentOne
        let l := { l with
          candidates := k.giveUp :: l.candidates.tail
          keyAllowed := false }
        return l.push (.point .value start)
    else
      let l := if pair then l.push (.point .flowMappingStart start) else l
      if !l.inFlow && !l.keyAllowed then .error ⟨.valueNotAllowed, start⟩
      else
        let l := (l.openBlock start.column none .blockMappingStart start).indentOne
        return { l with keyAllowed := !l.inFlow }.push (.point .value start)

/-- A colon inside a flow collection with no blank behind it. -/
def fetchAdjacentValue : Except Fault Lexer :=
  if l.mark.index ≠ l.adjacent ∧ nextIs (fun c => c == '[' || c == '{') l.cursor.rest.tail then
    l.fail .valueBeforeBracket
  else l.fetchValue

/-- An anchor or an alias. -/
def fetchAnchor (kind : String → Token.Kind) : Except Fault Lexer :=
  let start := l.mark
  let l := { l.saveCandidate with keyAllowed := false }
  match readAnchorName (l.cursor.take 1) with
  | .error e => .error ⟨e, start⟩
  | .ok (name, cursor) => .ok ({ l with cursor }.push ⟨kind name, start, cursor.mark⟩)

/-- A tag. -/
def fetchTag : Except Fault Lexer :=
  let start := l.mark
  let l := { l.saveCandidate with keyAllowed := false }
  match readTag l.cursor with
  | .error e => .error ⟨e, start⟩
  | .ok ((handle, suffix), cursor) =>
    if atBlank cursor.rest || (l.inFlow && nextIs isFlow cursor.rest) then
      .ok ({ l with cursor }.push ⟨.tag handle suffix, start, cursor.mark⟩)
    else .error ⟨.tagTrailing, start⟩

/-- A block scalar. -/
def fetchBlockScalar (literal : Bool) : Except Fault Lexer :=
  let l := { l.saveCandidate with keyAllowed := true }.dropLooseIndents
  match Block.scan literal l.indent l.cursor with
  | .error e => .error e
  | .ok s =>
    let style := if literal then Style.literal else .folded
    .ok ({ l with cursor := s.cursor }.push ⟨.scalar style s.text, s.start, s.cursor.mark⟩)

/-- A quoted scalar. A colon may follow it with no blank, also on a later line. -/
def fetchQuoted (single : Bool) : Except Fault Lexer := do
  let start := l.mark
  let l := { l.saveCandidate with keyAllowed := false }
  let s ← Quoted.scan single l.inFlow l.indent l.cursor
  let l ← { l with cursor := s.cursor }.skipGap
  let style := if single then Style.singleQuoted else .doubleQuoted
  return { l with adjacent := l.mark.index }.push ⟨.scalar style s.text, start, s.cursor.mark⟩

/-- A plain scalar. When it ends on a new line, a key may start there. -/
def fetchPlain : Except Fault Lexer :=
  let start := l.mark
  let l := { l.saveCandidate with keyAllowed := false }.dropLooseIndents
  match Plain.scan l.inFlow (l.indent + 1) l.cursor with
  | .error e => .error e
  | .ok s =>
    let l := { l with cursor := s.cursor, keyAllowed := l.keyAllowed || s.cursor.leading }
    .ok (l.push ⟨.scalar .plain s.text, start, s.stop⟩)

/-- The token that starts with the next character `c`, in front of `rest`. -/
def fetchFrom (c : Char) (rest : List Char) : Except Fault Lexer :=
  match c with
  | '[' => l.fetchFlowStart .flowSequenceStart
  | '{' => l.fetchFlowStart .flowMappingStart
  | ']' => l.fetchFlowEnd .flowSequenceEnd
  | '}' => l.fetchFlowEnd .flowMappingEnd
  | ',' => l.fetchFlowEntry
  | '-' => if atBlank rest then l.fetchBlockEntry else l.fetchPlain
  | '?' => if atBlank rest then l.fetchKey else l.fetchPlain
  | ':' =>
    if atBlank rest then l.fetchValue
    else if l.inFlow && (nextIs isFlow rest || l.mark.index == l.adjacent) then l.fetchAdjacentValue
    else l.fetchPlain
  | '*' => l.fetchAnchor .aliasOf
  | '&' => l.fetchAnchor .anchor
  | '!' => l.fetchTag
  | '|' => if l.inFlow then l.fetchPlain else l.fetchBlockScalar true
  | '>' => if l.inFlow then l.fetchPlain else l.fetchBlockScalar false
  | '\'' => l.fetchQuoted true
  | '"' => l.fetchQuoted false
  | '%' | '@' | '`' => l.fail (.unexpectedCharacter c)
  | _ => l.fetchPlain

/-- Reads the next token. -/
def fetch : Except Fault Lexer := do
  let l ← l.skipGap
  let l ← l.dropStale
  let l := l.closeBlocks l.cursor.column
  match l.cursor.rest with
  | [] => l.fetchStreamEnd
  | c :: rest =>
    if l.mark.column = 0 ∧ c = '%' then l.fetchDirective
    else if l.mark.column = 0 ∧ atMarker '-' (c :: rest) then l.fetchDocumentMarker .documentStart
    else if l.mark.column = 0 ∧ atMarker '.' (c :: rest) then l.fetchDocumentEnd
    else if l.cursor.column < l.indent then l.fail .invalidIndentation
    else l.fetchFrom c rest

end Lexer

/-! ### All tokens -/

/-- The tokens of a text that come in front of its first fault, and that fault. -/
structure TokenStream where
  tokens : List Token
  fault? : Option Fault
deriving DecidableEq, Repr

/-- Reads tokens until the end of the text. Of the tokens in front of a fault those count to which
no token could have been added any more. -/
def Lexer.run : (fuel : Nat) → Lexer → TokenStream
  | 0, l => ⟨(l.tokens.drop (l.count - l.settled)).reverse, none⟩
  | fuel + 1, l =>
    match l.dropStale with
    | .error e => ⟨(l.tokens.drop (l.count - l.settled)).reverse, some e⟩
    | .ok l =>
      let l := l.settle
      if l.tokens.head?.any (·.kind == .streamEnd) then ⟨l.tokens.reverse, none⟩
      else
        match l.fetch with
        | .error e => ⟨(l.tokens.drop (l.count - l.settled)).reverse, some e⟩
        | .ok l => run fuel l

/-- The tokens of a text. Each but the last passes at least one character. -/
def TokenStream.ofText (s : String) : TokenStream :=
  let l := Lexer.ofText s
  l.run (l.cursor.rest.length + 2)

end Manifest.Yaml
