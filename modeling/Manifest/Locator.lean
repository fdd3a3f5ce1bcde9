import Manifest.Document
import Manifest.Entry
import Manifest.Yaml.Parse

/-! # Locating applications

The named applications of a manifest are the items of its root's `applications` sequence that are
mappings with a scalar `name`. A root without such a sequence is itself an application if it has a
scalar `name`.

One entry is selected. A locator with a pinned name selects the first entry of that name and no
other. Without a pin the previous selection is looked for: first by its name, where among several
entries the one that starts nearest to the old start wins, then by its start; else the first entry
is selected. -/

namespace Manifest

/-- The key of the list of applications. -/
def applicationsKey : String := "applications"

/-- The key of an application's name. -/
def nameKey : String := "name"

/-- How to choose among the entries of a document. -/
structure Locator where
  /-- The name of the only application that may be selected. -/
  pinned? : Option String
deriving DecidableEq, Repr

namespace Locator

/-! ### Entries -/

/-- The name that a node has under `nameKey`. -/
def nameOf? (n : Yaml.Node) : Option String := (n.get? nameKey).bind Yaml.Node.scalar?

/-- The entry of an item of the list of applications. -/
def entryOfItem? (d : Document) (item : Yaml.Node) : Option Entry :=
  (nameOf? item).map fun name => ⟨name, false, d.nodeSpan item.start item.stop⟩

/-- The entry of a root that has a name of its own. -/
def entryOfRoot? (d : Document) (root : Yaml.Node) : Option Entry :=
  (nameOf? root).map fun name => ⟨name, true, d.nodeSpan root.start root.stop⟩

/-- The named applications under a root, in order. -/
def entriesOf (d : Document) (root : Yaml.Node) : List Entry :=
  match (root.get? applicationsKey).bind Yaml.Node.sequence? with
  | some items => items.filterMap (entryOfItem? d)
  | none => (entryOfRoot? d root).toList

/-! ### Selecting -/

/-- The distance between two offsets. -/
def distance (a b : Nat) : Nat := (a - b) + (b - a)

/-- The index of the first entry with a name whose start is nearest to an offset. -/
def nearest? (name : String) (start : Nat) (entries : List Entry) : Option Nat :=
  let candidates := entries.zipIdx.filter fun (e, _) => e.name == name
  let nearer (best next : Entry × Nat) : Entry × Nat :=
    if distance next.1.span.start start < distance best.1.span.start start then next else best
  match candidates with
  | [] => none
  | c :: rest => some (rest.foldl nearer c).2

/-- The index of the entry that a previous selection stands for. -/
def reselect? (previous : Selection) (entries : List Entry) : Option Nat :=
  nearest? previous.name previous.start entries
    <|> entries.findIdx? (·.span.start == previous.start)

/-- The index of the selected entry. -/
def select? (l : Locator) (previous? : Option Selection) (entries : List Entry) : Option Nat :=
  if entries.isEmpty then none
  else
    match l.pinned? with
    | some name => entries.findIdx? (·.name == name)
    | none => some ((previous?.bind (reselect? · entries)).getD 0)

/-! ### Locating -/

/-- Locates the applications of a document in a list of trees, of which there must be one. -/
def locateIn (l : Locator) (d : Document) (stream : List Yaml.Node) (previous? : Option Selection) :
    Except Yaml.Error Located :=
  match Yaml.singleRoot stream with
  | .error e => .error e
  | .ok root =>
    let entries := entriesOf d root
    .ok (.ofEntries entries (l.select? previous? entries))

/-- Locates the applications of a document. -/
def locate? (l : Locator) (d : Document) (previous? : Option Selection) :
    Except Yaml.Error Located :=
  match Yaml.parse d.text with
  | .error e => .error e
  | .ok stream => l.locateIn d stream previous?

/-- Locates the applications of a document; one that cannot be read has none. -/
def locate (l : Locator) (d : Document) (previous? : Option Selection) : Located :=
  match l.locate? d previous? with
  | .ok located => located
  | .error _ => .empty

end Locator

end Manifest
