/-! # Words of a command line

How the words of a command line are told apart, and how they are read against a grammar. A word that
starts with two dashes names a switch, one that starts with one dash is a cluster of short switches,
and any other word, a lone dash as well, is an operand. Behind a word of two dashes only, every word
is an operand. The value of a switch is attached to it or is the word behind it, if that is no switch.

A value that is a word of its own and is not allowed is held against the command line at the next
word that is read, or at the end. So a command word is still seen behind it. -/

namespace Manifest.CommandLine

/-- Why a command line asks for no run. -/
inductive Halt
  | misuse
  | help
  | version
deriving DecidableEq, Repr

/-! ### Words -/

/-- What a word looks like. -/
inductive Word
  /-- The end of the switches. -/
  | stop
  | long (name : String) (value? : Option String)
  | short (letters : List Char)
  | plain (text : String)
deriving DecidableEq, Repr

namespace Word

/-- What stands behind the equals sign of an attached value. -/
def valueOf? : List Char → Option String
  | [] => none
  | _ :: value => some (String.ofList value)

/-- A long switch, with all that stands behind the first equals sign as its value. -/
def ofLong (cs : List Char) : Word :=
  .long (String.ofList (cs.takeWhile (· ≠ '='))) (valueOf? (cs.dropWhile (· ≠ '=')))

/-- What a text looks like as a word. -/
def ofText (s : String) : Word :=
  match s.toList with
  | ['-', '-'] => stop
  | '-' :: '-' :: cs => ofLong cs
  | '-' :: c :: cs => short (c :: cs)
  | _ => plain s

end Word

/-! ### Grammars -/

/-- What a switch does to what has been read so far. A change that is not allowed gives nothing. -/
inductive Effect (σ : Type)
  | halt (h : Halt)
  | change (f : σ → Option σ)
  | take (f : String → σ → Option σ)

/-- A switch with its names. -/
structure Switch (σ : Type) where
  long : String
  short? : Option Char
  effect : Effect σ

/-- The switches and operands of a level of the command line, and the words that end it. -/
structure Grammar (σ : Type) where
  switches : List (Switch σ)
  /-- What an operand does, if the level can have one. -/
  operand? : Option (String → σ → Option σ)
  commands : List String

variable {σ τ α : Type}

namespace Switch

/-- A switch that can be given once. -/
def flag (long : String) (get : σ → Bool) (set : σ → Bool → σ) : Switch σ :=
  ⟨long, none, .change fun s => if get s then none else some (set s true)⟩

/-- A switch whose value can be given once. -/
def value (long : String) (short? : Option Char) (read? : String → Option α) (get? : σ → Option α)
    (set : σ → Option α → σ) : Switch σ :=
  ⟨long, short?, .take fun text s => if (get? s).isSome then none else
    (read? text).map fun a => set s (some a)⟩

/-- The switch that asks for help. -/
def help : Switch σ := ⟨"help", some 'h', .halt .help⟩

/-- The switch as part of a larger state. -/
def lift (get : τ → σ) (set : τ → σ → τ) (w : Switch σ) : Switch τ :=
  { w with effect :=
      match w.effect with
      | .halt h => .halt h
      | .change f => .change fun t => (f (get t)).map (set t)
      | .take f => .take fun text t => (f text (get t)).map (set t) }

end Switch

namespace Grammar

/-- What the switch with a long name does. -/
def long? (g : Grammar σ) (name : String) : Option (Effect σ) :=
  (g.switches.find? (·.long = name)).map (·.effect)

/-- What the switch with a short name does. -/
def short? (g : Grammar σ) (c : Char) : Option (Effect σ) :=
  (g.switches.find? (·.short? = some c)).map (·.effect)

/-! ### Reading -/

/-- Where the reading of a level stands. What has been read is missing if the last word was a value
or an operand that is not allowed. -/
inductive Phase (σ : Type)
  | ready (read? : Option σ)
  /-- A switch waits for its value. -/
  | waiting (f : String → σ → Option σ) (read : σ)
  | operands (read? : Option σ)

/-- A text that stands attached to a short switch, with or without an equals sign. -/
def attached : List Char → String
  | '=' :: value => String.ofList value
  | value => String.ofList value

/-- What has been read after a change, which must be allowed. -/
def accept (read? : Option σ) : Except Halt (Phase σ) :=
  match read? with
  | some s => .ok (.ready (some s))
  | none => .error .misuse

/-- Reads a cluster of short switches. -/
def cluster (g : Grammar σ) (s : σ) : List Char → Except Halt (Phase σ)
  | [] => .ok (.ready (some s))
  | c :: rest =>
    match g.short? c with
    | none => .error .misuse
    | some (.halt h) => .error h
    | some (.change f) =>
      match f s with
      | some s => g.cluster s rest
      | none => .error .misuse
    | some (.take f) =>
      if rest.isEmpty then .ok (.waiting f s) else accept (f (attached rest) s)

/-- Reads an operand. -/
def operand (g : Grammar σ) (s : σ) (text : String) : Except Halt (Option σ) :=
  match g.operand? with
  | some f => .ok (f text s)
  | none => .error .misuse

/-- Reads a word that may be a switch. -/
def word (g : Grammar σ) (s : σ) : Word → Except Halt (Phase σ)
  | .stop => .ok (.operands (some s))
  | .plain text => (g.operand s text).map .ready
  | .short letters => g.cluster s letters
  | .long name value? =>
    match g.long? name, value? with
    | some (.halt h), none => .error h
    | some (.change f), none => accept (f s)
    | some (.take f), none => .ok (.waiting f s)
    | some (.take f), some value => accept (f value s)
    | _, _ => .error .misuse

/-- Reads a word. -/
def step (g : Grammar σ) (text : String) : Phase σ → Except Halt (Phase σ)
  | .ready none | .operands none => .error .misuse
  | .ready (some s) => g.word s (.ofText text)
  | .operands (some s) => (g.operand s text).map .operands
  | .waiting f s =>
    match Word.ofText text with
    | .plain value => .ok (.ready (f value s))
    | _ => .error .misuse

/-- The word ends the level. -/
def ends (g : Grammar σ) (text : String) : Phase σ → Bool
  | .ready _ => text ∈ g.commands
  | _ => false

/-- What has been read at the end of a level. -/
def result? : Phase σ → Option σ
  | .ready read? | .operands read? => read?
  | .waiting _ _ => none

/-- Reads the words of a level, and gives the words from the one that ends it. -/
def read (g : Grammar σ) (p : Phase σ) : List String → Except Halt (Option σ × List String)
  | [] => .ok (result? p, [])
  | text :: rest =>
    if g.ends text p then .ok (result? p, text :: rest)
    else
      match g.step text p with
      | .error h => .error h
      | .ok p => g.read p rest

end Grammar

end Manifest.CommandLine
