/-! # Marks

A mark is a place in a YAML text: the number of characters in front of it, its line counted from
one and its column counted from zero. -/

namespace Manifest.Yaml

/-- A place in a text. -/
structure Mark where
  index : Nat
  line : Nat
  column : Nat
deriving DecidableEq, Repr, Inhabited

namespace Mark

/-- The place in front of the first character. -/
def origin : Mark := ⟨0, 1, 0⟩

/-- The place `n` characters further on the same line. -/
def right (m : Mark) (n : Nat) : Mark := ⟨m.index + n, m.line, m.column + n⟩

/-- The start of the next line, behind a line break of `n` characters. -/
def nextLine (m : Mark) (n : Nat) : Mark := ⟨m.index + n, m.line + 1, 0⟩

/-- The wording of a place in an error message. -/
def describe (m : Mark) : String :=
  "byte " ++ toString m.index ++ " line " ++ toString m.line
    ++ " column " ++ toString (m.column + 1)

@[simp] theorem right_zero (m : Mark) : m.right 0 = m := rfl

end Mark

end Manifest.Yaml
