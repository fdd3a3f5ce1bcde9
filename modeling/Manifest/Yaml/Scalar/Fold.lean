import Manifest.Yaml.Cursor

/-! # Line folding

Between two words of a flow scalar stand blanks and line breaks. On one line the blanks are kept as
they are. Over several lines the blanks go, a single line break becomes a space, and further line
breaks are kept. -/

namespace Manifest.Yaml

/-- The blanks in front of the first line break, newest first, and the number of line breaks. -/
structure Fold where
  blanks : List Char
  breaks : Nat
deriving DecidableEq, Repr

namespace Fold

/-- Nothing passed yet. -/
def none : Fold := ⟨[], 0⟩

/-- What a gap between two words stands for, in reverse. -/
def text (f : Fold) : List Char :=
  match f.breaks with
  | 0 => f.blanks
  | 1 => [' ']
  | n + 2 => List.replicate (n + 1) '\n'

/-- What a gap behind an escaped line break stands for: only the line breaks after it count. -/
def textEscaped (f : Fold) : List Char := List.replicate f.breaks '\n'

end Fold

end Manifest.Yaml
