import Manifest.Glob.Depth
import Manifest.Glob.Parse
import Manifest.Text.Blank

/-! # Ignore rules

The lines of an ignore file. A line is a glob for paths as seen from the directory of the file. `!` in
front makes it keep what it stands for, a slash at the end restricts it to directories, and a slash
elsewhere makes it stand for whole paths only; without one it stands for a name at any depth. Of all
lines that stand for a path the last one decides. -/

namespace Manifest.Ignore

/-- What is decided about a path. -/
inductive Verdict
  | ignored
  | kept
deriving DecidableEq, Repr

/-- A line of an ignore file. -/
structure Rule where
  glob : Glob
  verdict : Verdict
  onlyDirs : Bool

/-- How the globs of ignore files are read. -/
def globStyle : Glob.Style := ⟨true, true⟩

namespace Rule

/-- The line without the blanks at its end, unless the last of them is escaped. -/
def trimLine (cs : List Char) : List Char :=
  match cs.reverse with
  | ' ' :: '\\' :: _ => cs
  | reversed => (reversed.dropWhile Text.isBlank).reverse

/-- The first characters of a line: the verdict, whether a slash ties the glob to the directory of
the file, and what is left of the line. -/
def readStart (cs : List Char) : Verdict × Bool × List Char :=
  let tied (verdict : Verdict) (cs : List Char) : Verdict × Bool × List Char :=
    match cs with
    | '/' :: rest => (verdict, true, rest)
    | cs => (verdict, false, cs)
  match cs with
  | '\\' :: '!' :: rest => (.ignored, false, '!' :: rest)
  | '\\' :: '#' :: rest => (.ignored, false, '#' :: rest)
  | '!' :: rest => tied .kept rest
  | cs => tied .ignored cs

/-- Whether a slash ends a line, and the line without it and without a backslash in front of it. -/
def readEnd (cs : List Char) : Bool × List Char :=
  match cs.reverse with
  | '/' :: '\\' :: rest => (true, rest.reverse)
  | '/' :: rest => (true, rest.reverse)
  | _ => (false, cs)

/-- The text starts with `**` as a whole part. -/
def startsWide : List Char → Bool
  | ['*', '*'] => true
  | '*' :: '*' :: '/' :: _ => true
  | _ => false

/-- A glob that is not tied and has no slash stands for a name at any depth. -/
def widen (tied : Bool) (cs : List Char) : List Char :=
  if tied || cs.contains '/' || startsWide cs then cs else '*' :: '*' :: '/' :: cs

/-- A glob for all below a directory does not stand for the directory itself. -/
def deepen (cs : List Char) : List Char :=
  match cs.reverse with
  | '*' :: '*' :: '/' :: _ => cs ++ ['/', '*']
  | _ => cs

/-- The rule of a line. Comments, blank lines and lines with a malformed glob give none. -/
def ofLine? (line : List Char) : Option Rule :=
  match trimLine line with
  | [] => none
  | cs =>
    if line.head? = some '#' then none
    else
      let (verdict, tied, cs) := readStart cs
      let (onlyDirs, cs) := readEnd cs
      (Glob.parse? globStyle (String.ofList (deepen (widen tied cs)))).map fun glob =>
        ⟨glob, verdict, onlyDirs⟩

/-- The rule stands for a path. -/
def appliesTo (r : Rule) (path : List UInt8) (isDir : Bool) : Bool :=
  (!r.onlyDirs || isDir) && r.glob.isMatch path

end Rule

/-- The lines of an ignore file, up to the first that is not UTF-8. -/
def linesOf (content : ByteArray) : List String :=
  let lines := content.toList.splitOnP (· == 0x0a)
  let texts := lines.map fun line => String.fromUTF8? ⟨line.toArray⟩
  (texts.takeWhile Option.isSome).filterMap id

/-- The rules that the lines of an ignore file write. Byte order marks in front of it are passed
over. -/
def writtenRules (content : ByteArray) : List Rule :=
  match linesOf content with
  | [] => []
  | first :: rest =>
    (first.toList.dropWhile (· == '\ufeff') :: rest.map String.toList).filterMap Rule.ofLine?

/-- The rules of an ignore file. One that is nested too deep spoils all. -/
def rulesOf (content : ByteArray) : List Rule :=
  let rules := writtenRules content
  if rules.all (·.glob.isShallow) then rules else []

/-- What some rules decide about a path. -/
def decide? (rules : List Rule) (path : List UInt8) (isDir : Bool) : Option Verdict :=
  (rules.reverse.find? (·.appliesTo path isDir)).map (·.verdict)

end Manifest.Ignore
