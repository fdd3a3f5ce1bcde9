import Manifest.Yaml.Event
import Manifest.Yaml.Token.Lexer

/-! # Reading events

The grammar of tokens as a machine with a stack. Its state says what is expected next, the stack
what is expected once the current node is complete. Each step looks at the next tokens and gives one
event. A value that is left out is an event too; it has the place of the token that stands where the
value would have been. -/

namespace Manifest.Yaml

/-- What is expected next. -/
inductive Expect
  | streamStart
  /-- A document, whose start marker may be missing if the flag is set. -/
  | document (implicit : Bool)
  | documentContent
  | documentEnd
  | blockNode
  | blockEntry (first : Bool)
  | looseEntry
  | blockKey (first : Bool)
  | blockValue
  | flowEntry (first : Bool)
  | pairKey
  | pairValue
  | pairEnd (start stop : Mark)
  | flowKey (first : Bool)
  | flowValue
  | flowNoValue
  | nothing
deriving DecidableEq, Repr

/-- The state of the machine. -/
structure Reader where
  tokens : List Token
  /-- Why there are no more tokens than these. -/
  fault : Fault
  expect : Expect
  stack : List Expect
  /-- The number of each anchor's name, the latest first. -/
  anchors : List (String × Nat)
  nextAnchor : Nat
  /-- What the handles of the current document stand for. -/
  handles : List (String × String)

namespace Reader

/-- One step: an event and the state after it. -/
abbrev Step := Except Fault (MarkedEvent × Reader)

variable (r : Reader)

/-- The machine in front of the tokens of a text. -/
def ofTokens (s : TokenStream) : Reader where
  tokens := s.tokens
  fault := s.fault?.getD ⟨.tokensEnded, .origin⟩
  expect := .streamStart
  stack := []
  anchors := []
  nextAnchor := 1
  handles := []

/-- The next token. -/
def peek : Except Fault Token :=
  match r.tokens with
  | t :: _ => .ok t
  | [] => .error r.fault

/-- The state behind the next token. -/
def next : Reader := { r with tokens := r.tokens.tail }

/-- The state with another expectation. -/
def expecting (e : Expect) : Reader := { r with expect := e }

/-- The state in front of a node, after which `e` is expected. -/
def pushing (e : Expect) : Reader := { r with stack := e :: r.stack }

/-- The state behind a complete node. -/
def popped : Reader := { r with expect := r.stack.headD .nothing, stack := r.stack.tail }

/-- A value left out, at the place of a token. -/
def absentAt (t : Token) : Step := .ok (Event.absent.at t, r)

/-- A fault at a token. -/
def failAt (t : Token) (cause : Cause) : Step := .error ⟨cause, t.start⟩

/-! ### Documents -/

/-- Passes the markers of documents' ends. -/
def skipDocumentEnds : Reader :=
  { r with tokens := r.tokens.dropWhile (·.kind == .documentEnd) }

/-- Reads the directives in front of a document. Each directive replaces what the handles stood for,
so that only the last one counts. -/
def directives : (tokens : List Token) → (handles : List (String × String)) → (versioned : Bool) →
    Except Fault (List Token × List (String × String))
  | [], handles, _ => .ok ([], handles)
  | t :: rest, handles, versioned =>
    match t.kind with
    | .versionDirective =>
      if versioned then .error ⟨.versionDuplicate, t.start⟩ else directives rest [] true
    | .tagDirective handle expansion => directives rest [(handle, expansion)] versioned
    | _ => .ok (t :: rest, handles)

/-- The state behind the directives. -/
def readDirectives : Except Fault Reader :=
  match directives r.tokens r.handles false with
  | .error e => .error e
  | .ok (tokens, handles) => .ok { r with tokens, handles }

/-- The start of a document with its marker. -/
def readExplicitStart : Step := do
  let r ← r.readDirectives
  let t ← r.peek
  if t.kind = .documentStart then
    return ((Event.documentStart true).at t,
      (r.next.pushing .documentEnd).expecting .documentContent)
  else failAt t .documentStartExpected

/-- The start of a document, or the end of the stream. -/
def readDocument (implicit : Bool) : Step := do
  let r := r.skipDocumentEnds
  let t ← r.peek
  match t.kind, implicit with
  | .streamEnd, _ => return (Event.streamEnd.at t, r.next.expecting .nothing)
  | .versionDirective, _ => r.readExplicitStart
  | .tagDirective _ _, _ => r.readExplicitStart
  | .documentStart, _ => r.readExplicitStart
  | _, false => r.readExplicitStart
  | _, true =>
    return ((Event.documentStart false).at t, (r.pushing .documentEnd).expecting .blockNode)

/-- The end of a document. A directive may follow only behind an end marker. -/
def readDocumentEnd : Step := do
  let t ← r.peek
  let r := { r with handles := [] }
  if t.kind = .documentEnd then
    return (Event.documentEnd.at t, r.next.expecting (.document true))
  else
    match t.kind with
    | .versionDirective => failAt t .documentEndMissing
    | .tagDirective _ _ => failAt t .documentEndMissing
    | _ => return (Event.documentEnd.at t, r.expecting (.document false))

/-! ### Nodes -/

/-- Spells out a tag. A closed handle must have been declared. -/
def resolveTag (t : Token) (handle suffix : String) : Except Fault Tag :=
  if handle = "!!" then .ok ⟨(r.handles.lookup "!!").getD "tag:yaml.org,2002:", suffix⟩
  else if handle = "" ∧ suffix = "!" then .ok ⟨(r.handles.lookup "").getD "", suffix⟩
  else
    match r.handles.lookup handle with
    | some expansion => .ok ⟨expansion, suffix⟩
    | none =>
      if isNamedHandle handle then .error ⟨.handleUndeclared, t.start⟩ else .ok ⟨handle, suffix⟩

/-- What stands in front of a node. -/
structure Properties where
  anchor : Nat
  tag? : Option Tag

/-- Gives a number to an anchor's name. -/
def declare (name : String) : Nat × Reader :=
  (r.nextAnchor,
    { r with anchors := (name, r.nextAnchor) :: r.anchors, nextAnchor := r.nextAnchor + 1 })

/-- Reads an anchor and a tag in either order; both may be missing. -/
def readProperties : Except Fault (Properties × Reader) := do
  let t ← r.peek
  match t.kind with
  | .anchor name =>
    let (anchor, r) := r.next.declare name
    match (← r.peek).kind with
    | .tag handle suffix => return (⟨anchor, some (← r.resolveTag t handle suffix)⟩, r.next)
    | _ => return (⟨anchor, none⟩, r)
  | .tag handle suffix =>
    let tag ← r.resolveTag t handle suffix
    let r := r.next
    match (← r.peek).kind with
    | .anchor name =>
      let (anchor, r) := r.next.declare name
      return (⟨anchor, some tag⟩, r)
    | _ => return (⟨0, some tag⟩, r)
  | _ => return (⟨0, none⟩, r)

/-- Reads the start of a node, or all of it if it is a scalar or an alias. Block collections are
allowed if `block` is set, sequences without an indentation of their own if `loose` is. -/
def readNode (block loose : Bool) : Step := do
  let t ← r.peek
  match t.kind with
  | .aliasOf name =>
    match r.anchors.lookup name with
    | some anchor => return ((Event.aliasOf anchor).at t, r.next.popped)
    | none => failAt t .anchorUnknown
  | _ =>
    let (p, r) ← r.readProperties
    let t ← r.peek
    let opened (e : Event) (expect : Expect) : Step := .ok (e.at t, r.expecting expect)
    let otherwise : Step :=
      if p.tag?.isSome || p.anchor > 0 then
        .ok ((Event.scalar "" .plain p.anchor p.tag?).at t, r.popped)
      else failAt t .nodeExpected
    match t.kind with
    | .scalar style text =>
      return ((Event.scalar text style p.anchor p.tag?).at t, r.next.popped)
    | .flowSequenceStart => opened (.sequenceStart p.anchor p.tag?) (.flowEntry true)
    | .flowMappingStart => opened (.mappingStart p.anchor p.tag?) (.flowKey true)
    | .blockEntry =>
      if loose then opened (.sequenceStart p.anchor p.tag?) .looseEntry else otherwise
    | .blockSequenceStart =>
      if block then opened (.sequenceStart p.anchor p.tag?) (.blockEntry true) else otherwise
    | .blockMappingStart =>
      if block then opened (.mappingStart p.anchor p.tag?) (.blockKey true) else otherwise
    | _ => otherwise

/-- The content of a document with a start marker, which may be left out. -/
def readDocumentContent : Step := do
  let t ← r.peek
  match t.kind with
  | .versionDirective => r.popped.absentAt t
  | .tagDirective _ _ => r.popped.absentAt t
  | .documentStart => r.popped.absentAt t
  | .documentEnd => r.popped.absentAt t
  | .streamEnd => r.popped.absentAt t
  | _ => r.readNode true false

/-! ### Block collections -/

/-- An entry of a block sequence, or its end. -/
def readBlockEntry (first : Bool) : Step := do
  let r := if first then r.next else r
  let t ← r.peek
  match t.kind with
  | .blockEnd => return (Event.sequenceEnd.at t, r.next.popped)
  | .blockEntry =>
    let r := r.next
    let u ← r.peek
    if u.kind = .blockEntry ∨ u.kind = .blockEnd then
      (r.expecting (.blockEntry false)).absentAt t
    else (r.pushing (.blockEntry false)).readNode true false
  | _ => failAt t .blockEntryExpected

/-- An entry of a sequence without an indentation of its own, or its end. -/
def readLooseEntry : Step := do
  let t ← r.peek
  match t.kind with
  | .blockEntry =>
    let r := r.next
    let u ← r.peek
    if u.kind = .blockEntry ∨ u.kind = .key ∨ u.kind = .value ∨ u.kind = .blockEnd then
      (r.expecting .looseEntry).absentAt t
    else (r.pushing .looseEntry).readNode true false
  | _ => return (Event.sequenceEnd.at t, r.popped)

/-- The tokens that show that a key or value of a block mapping is left out. -/
def endsBlockPart (t : Token) : Bool := t.kind == .key || t.kind == .value || t.kind == .blockEnd

/-- A key of a block mapping, or its end. -/
def readBlockKey (first : Bool) : Step := do
  let r := if first then r.next else r
  let t ← r.peek
  match t.kind with
  | .key =>
    let r := r.next
    let u ← r.peek
    if endsBlockPart u then (r.expecting .blockValue).absentAt u
    else (r.pushing .blockValue).readNode true true
  | .value => (r.expecting .blockValue).absentAt t
  | .blockEnd => return (Event.mappingEnd.at t, r.next.popped)
  | _ => failAt t .blockKeyExpected

/-- A value of a block mapping. One left out behind its indicator has the place of the indicator. -/
def readBlockValue : Step := do
  let t ← r.peek
  if t.kind = .value then
    let r := r.next
    let u ← r.peek
    if endsBlockPart u then (r.expecting (.blockKey false)).absentAt t
    else (r.pushing (.blockKey false)).readNode true true
  else (r.expecting (.blockKey false)).absentAt t

/-! ### Flow collections -/

/-- An entry of a flow sequence, or its end. -/
def readFlowEntry (first : Bool) : Step := do
  let r := if first then r.next else r
  let t ← r.peek
  if t.kind = .flowSequenceEnd then return (Event.sequenceEnd.at t, r.next.popped)
  else if !first && t.kind != .flowEntry then failAt t .flowSequenceSeparator
  else
    let r := if first then r else r.next
    let t ← r.peek
    match t.kind with
    | .flowSequenceEnd => return (Event.sequenceEnd.at t, r.next.popped)
    | .key => return ((Event.mappingStart 0 none).at t, r.next.expecting .pairKey)
    | _ => (r.pushing (.flowEntry false)).readNode false false

/-- The key of a mapping without braces in a flow sequence. The token that shows that the key is
left out is passed together with it. -/
def readPairKey : Step := do
  let t ← r.peek
  if t.kind = .value ∨ t.kind = .flowEntry ∨ t.kind = .flowSequenceEnd then
    (r.next.expecting .pairValue).absentAt t
  else (r.pushing .pairValue).readNode false false

/-- The value of a mapping without braces in a flow sequence. -/
def readPairValue : Step := do
  let t ← r.peek
  if t.kind = .value then
    let r := r.next
    let u ← r.peek
    if u.kind = .flowEntry ∨ u.kind = .flowSequenceEnd then
      (r.expecting (.pairEnd u.start u.stop)).absentAt u
    else (r.pushing (.pairEnd u.start u.stop)).readNode false false
  else (r.expecting (.pairEnd t.start t.stop)).absentAt t

/-- A key of a flow mapping, or its end. -/
def readFlowKey (first : Bool) : Step := do
  let r := if first then r.next else r
  let t ← r.peek
  if t.kind = .flowMappingEnd then return (Event.mappingEnd.at t, r.next.popped)
  else if !first && t.kind != .flowEntry then failAt t .flowMappingSeparator
  else
    let r := if first then r else r.next
    let u ← r.peek
    match u.kind with
    | .key =>
      let r := r.next
      let v ← r.peek
      if v.kind = .value ∨ v.kind = .flowEntry ∨ v.kind = .flowMappingEnd then
        (r.expecting .flowValue).absentAt v
      else (r.pushing .flowValue).readNode false false
    | .value => (r.expecting .flowValue).absentAt u
    | .flowMappingEnd => return (Event.mappingEnd.at t, r.next.popped)
    | _ => (r.pushing .flowNoValue).readNode false false

/-- A value of a flow mapping. -/
def readFlowValue : Step := do
  let t ← r.peek
  if t.kind = .value then
    let r := r.next
    let u ← r.peek
    if u.kind = .flowEntry ∨ u.kind = .flowMappingEnd then (r.expecting (.flowKey false)).absentAt t
    else (r.pushing (.flowKey false)).readNode false false
  else (r.expecting (.flowKey false)).absentAt t

/-- The value of a key in a flow mapping that has no colon. -/
def readFlowNoValue : Step := do
  let t ← r.peek
  (r.expecting (.flowKey false)).absentAt t

/-! ### The machine -/

/-- The start of the stream. -/
def readStreamStart : Step := do
  let t ← r.peek
  return (Event.streamStart.at t, r.next.expecting (.document true))

/-- One step of the machine; `none` behind the end of the stream. -/
def step? : Option Step :=
  match r.expect with
  | .nothing => none
  | .streamStart => some r.readStreamStart
  | .document implicit => some (r.readDocument implicit)
  | .documentContent => some r.readDocumentContent
  | .documentEnd => some r.readDocumentEnd
  | .blockNode => some (r.readNode true false)
  | .blockEntry first => some (r.readBlockEntry first)
  | .looseEntry => some r.readLooseEntry
  | .blockKey first => some (r.readBlockKey first)
  | .blockValue => some r.readBlockValue
  | .flowEntry first => some (r.readFlowEntry first)
  | .pairKey => some r.readPairKey
  | .pairValue => some r.readPairValue
  | .pairEnd start stop => some (.ok (⟨.mappingEnd, start, stop⟩, r.expecting (.flowEntry false)))
  | .flowKey first => some (r.readFlowKey first)
  | .flowValue => some r.readFlowValue
  | .flowNoValue => some r.readFlowNoValue

/-- Runs the machine. `events` holds the events so far, newest first. -/
def run : (fuel : Nat) → Reader → (events : List MarkedEvent) → Except Fault (List MarkedEvent)
  | 0, _, events => .ok events.reverse
  | fuel + 1, r, events =>
    match r.step? with
    | none => .ok events.reverse
    | some (.error e) => .error e
    | some (.ok (event, r)) => run fuel r (event :: events)

end Reader

/-- The events of a text. A token takes part in at most four steps that do not pass it. -/
def readEvents (s : String) : Except Fault (List MarkedEvent) :=
  let tokens := TokenStream.ofText s
  Reader.run (5 * tokens.tokens.length + 5) (.ofTokens tokens) []

end Manifest.Yaml
