import Manifest.Ignore.Global

/-! # Layers of ignore rules

Each directory from the root of the tree down to the one looked at is a layer with rules of its own.
The rules for all tools come first, then those of the repository, then those that stand in the
repository's own directory, last the user's. In each of these groups the nearest layer that decides
wins. Rules of a repository reach no farther up than its root, and count only inside a repository. -/

namespace Manifest.Ignore

/-- The rules of one directory. -/
structure Layer where
  /-- The names that lead from the directory down to the one looked at. -/
  trail : List Name
  isRepository : Bool
  /-- The rules for all tools. -/
  general : List Rule
  /-- The rules of the repository. -/
  versioned : List Rule
  /-- The rules that stand in the repository's own directory. -/
  excluded : List Rule

namespace Layer

/-- The layer as seen from one directory farther down. -/
def below (l : Layer) (name : Name) : Layer := { l with trail := l.trail ++ [name] }

/-- The path of a name in the directory looked at, as the layer sees it. -/
def pathOf (l : Layer) (name : Name) : List UInt8 := Path.joinNames (l.trail ++ [name])

/-- The file with the rules of a directory for all tools. -/
def generalFile : Name := .ofText ".ignore"

/-- The file with the rules of a directory for the repository. -/
def versionedFile : Name := .ofText ".gitignore"

/-- The text behind a word, if it starts with the word. -/
def afterWord? (word s : String) : Option String :=
  if word.toList.isPrefixOf s.toList then some (String.ofList (s.toList.drop word.length)) else none

/-- The first line of a file that has one, without the carriage return at its end. -/
def firstLine? (content : ByteArray) : Option String :=
  if content.isEmpty then none
  else
    (linesOf content).head?.map fun line =>
      match line.toList.reverse with
      | '\r' :: rest => String.ofList rest.reverse
      | _ => line

/-- The directory that a repository shares with others, from the content of the file that stands in
place of its own directory. -/
def sharedDir? (d : Disk) (content : ByteArray) : Option Path := do
  let target ← afterWord? "gitdir: " (← firstLine? content)
  let dir := Path.ofText target
  let line ← firstLine? (← (d.readBytes (dir.child "commondir")).toOption)
  let shared := Path.ofText line
  return if line.toList.head? = some '.' then dir.join shared else shared

/-- The file with the rules that stand in the own directory of a repository. -/
def excludeFile (dir : Path) : Path := (dir.child "info").child "exclude"

/-- The rules that stand in the own directory of the repository with its root at a path. -/
def excludedRules (d : Disk) (dir : Path) : List Rule :=
  let entry := dir.child repositoryEntry
  match d.find entry with
  | .ok (_, .file content) => (sharedDir? d content).elim [] fun dir => rulesIn d (excludeFile dir)
  | _ => rulesIn d (excludeFile entry)

/-- The layer of a directory. -/
def ofDir (d : Disk) (dir : Path) (trail : List Name) : Layer where
  trail
  isRepository := d.isRepository dir
  general := rulesIn d (dir.child generalFile)
  versioned := rulesIn d (dir.child versionedFile)
  excluded := excludedRules d dir

/-- The layers of the directories above a place, the nearest first. -/
def abovePlace (d : Disk) (place : List Name) : List Layer :=
  (List.range place.length).reverse.map fun n => ofDir d (.ofNames (place.take n)) (place.drop n)

/-- The layers of the directories above a path. There are none if it has no canonical path. -/
def above (d : Disk) (root : Path) (place : List Name) : List Layer :=
  match d.canonical root with
  | .ok _ => abovePlace d place
  | .error _ => []

end Layer

/-- The layers that belong to the innermost repository. -/
def upToRepository : List Layer → List Layer
  | [] => []
  | l :: rest => l :: if l.isRepository then [] else upToRepository rest

/-- What a group of rules decides about a name in the directory looked at. -/
def decideBy? (rules : Layer → List Rule) (layers : List Layer) (name : Name) (isDir : Bool) :
    Option Verdict :=
  layers.findSome? fun l => decide? (rules l) (l.pathOf name) isDir

/-- What all rules decide about a name in the directory looked at. The user's rules see it under its
path from the working directory. -/
def verdict? (layers : List Layer) (global : List Rule) (path : List UInt8) (name : Name)
    (isDir : Bool) : Option Verdict :=
  decideBy? Layer.general layers name isDir <|>
    if layers.any (·.isRepository) then
      decideBy? Layer.versioned (upToRepository layers) name isDir
        <|> decideBy? Layer.excluded (upToRepository layers) name isDir
        <|> decide? global path isDir
    else none

end Manifest.Ignore
