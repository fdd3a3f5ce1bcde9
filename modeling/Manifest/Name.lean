import Manifest.Text.Bytes

/-! # Names

What stands between the slashes of a path is a row of bytes, which need not be UTF-8. It names
something in a directory unless it is empty, a lone dot or two dots, which have meanings of their own,
or cannot be given to anything: a name has no slash and no NUL in it and is not too long. -/

namespace Manifest

/-- The bytes between two slashes of a path. -/
structure Part where
  bytes : List UInt8
deriving DecidableEq, Repr

namespace Part

/-- The part that a text writes. -/
def ofText (s : String) : Part := ⟨Text.bytes s⟩

instance : Coe String Part := ⟨ofText⟩

/-- Nothing between two slashes. -/
def empty : Part := ⟨[]⟩

/-- A lone dot. -/
def here : Part := ⟨[Text.dot]⟩

/-- Two dots, which lead to the directory above. -/
def up : Part := ⟨[Text.dot, Text.dot]⟩

/-- The part leads nowhere else: it is empty or a lone dot. -/
def isIdle (part : Part) : Bool := part = empty || part = here

/-- The longest name, in bytes. -/
def nameLimit : Nat := 255

/-- The part can be the name of something. -/
def isName (part : Part) : Bool :=
  !part.isIdle && part ≠ up && part.bytes.length ≤ nameLimit
    && !part.bytes.contains Text.slash && !part.bytes.contains 0

end Part

/-- The name of something in a directory. -/
structure Name where
  part : Part
  valid : part.isName = true
deriving DecidableEq

namespace Name

/-- The name that a part is, if it can be one. -/
def ofPart? (part : Part) : Option Name :=
  if h : part.isName = true then some ⟨part, h⟩ else none

/-- The name that a text writes. -/
def ofText (s : String) (h : (Part.ofText s).isName = true := by decide) : Name := ⟨s, h⟩

instance : CoeOut Name Part := ⟨Name.part⟩

/-- The bytes of a name. -/
def bytes (n : Name) : List UInt8 := n.part.bytes

theorem ext_part {n m : Name} (h : n.part = m.part) : n = m := by
  cases n
  cases m
  cases h
  rfl

@[simp] theorem ofPart?_part (n : Name) : ofPart? n.part = some n := by
  rw [ofPart?, dif_pos n.valid]

theorem part_of_ofPart? {part : Part} {n : Name} (h : ofPart? part = some n) : n.part = part := by
  unfold ofPart? at h
  split at h
  · cases h
    rfl
  · cases h

/-- What makes a part a name. -/
theorem isName_part (n : Name) : n.part.isIdle = false ∧ n.part ≠ Part.up ∧
    n.part.bytes.length ≤ Part.nameLimit ∧ Text.slash ∉ n.part.bytes ∧ 0 ∉ n.part.bytes := by
  have h := n.valid
  simp only [Part.isName, Bool.and_eq_true, Bool.not_eq_true', decide_eq_true_eq,
    List.contains_eq_mem, decide_eq_false_iff_not] at h
  exact ⟨h.1.1.1.1, h.1.1.1.2, h.1.1.2, h.1.2, h.2⟩

@[simp] theorem isIdle_part (n : Name) : n.part.isIdle = false := n.isName_part.1

theorem part_ne_up (n : Name) : n.part ≠ Part.up := n.isName_part.2.1

theorem length_part_le (n : Name) : n.part.bytes.length ≤ Part.nameLimit := n.isName_part.2.2.1

theorem slash_notMem (n : Name) : Text.slash ∉ n.part.bytes := n.isName_part.2.2.2.1

theorem nul_notMem (n : Name) : 0 ∉ n.part.bytes := n.isName_part.2.2.2.2

example : (ofText "manifest.yml").bytes.length = 12 := by decide

end Name

end Manifest
