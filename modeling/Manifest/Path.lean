import Manifest.Name

/-! # Paths

Paths as they are written: parts between slashes, with all that stands between them. A path is kept
exactly as it was given, so repeated slashes and dots stay; only the parent and the last name of a
path look past them. What is shown for a path are its bytes, with replacement characters where these
are not UTF-8.

A path is absolute, or starts with a lone dot, or does neither. Its parts are the bytes between the
slashes behind that. A part that is empty or a dot says nothing (`Part.isIdle`). -/

namespace Manifest

/-- How a path starts. -/
inductive Anchor
  /-- With a slash. -/
  | root
  /-- With a dot that is a part of its own. -/
  | here
  /-- With its first part. -/
  | bare
deriving DecidableEq, Repr

/-- A path as it is written. -/
structure Path where
  anchor : Anchor
  /-- What stands between the slashes behind the start. -/
  parts : List Part
deriving DecidableEq, Repr

namespace Path

open Text (slash dot)

/-! ### Reading and writing -/

/-- The parts of some bytes. -/
def splitSlash : List UInt8 → List Part
  | [] => [.empty]
  | b :: bs =>
    if b = slash then .empty :: splitSlash bs
    else
      match splitSlash bs with
      | [] => [⟨[b]⟩]
      | part :: parts => ⟨b :: part.bytes⟩ :: parts

/-- The path of some parts. A dot in front stands for itself, and nothing in front of a slash for the
root. -/
def ofSplit : List Part → Path
  | [] => ⟨.bare, []⟩
  | part :: parts =>
    if part = .here then ⟨.here, parts⟩
    else if part = .empty ∧ parts ≠ [] then ⟨.root, parts⟩
    else ⟨.bare, part :: parts⟩

/-- The path that bytes write. -/
def ofBytes (bs : List UInt8) : Path := ofSplit (splitSlash bs)

/-- The path that a text writes. -/
def ofText (s : String) : Path := ofBytes (Text.bytes s)

/-- Parts with slashes between them. -/
def joinSlash : List Part → List UInt8
  | [] => []
  | [part] => part.bytes
  | part :: parts => part.bytes ++ slash :: joinSlash parts

/-- Names with slashes between them. -/
def joinNames (names : List Name) : List UInt8 := joinSlash (names.map Name.part)

/-- The bytes of a path. -/
def bytes (p : Path) : List UInt8 :=
  match p.anchor with
  | .root => slash :: joinSlash p.parts
  | .here => if p.parts.isEmpty then [dot] else dot :: slash :: joinSlash p.parts
  | .bare => joinSlash p.parts

/-- The text that is shown for a path. -/
def text (p : Path) : String := Text.shown p.bytes

/-- The absolute path of a row of names. -/
def ofNames (names : List Name) : Path :=
  ⟨.root, if names.isEmpty then [.empty] else names.map Name.part⟩

theorem splitSlash_ne_nil (bs : List UInt8) : splitSlash bs ≠ [] := by
  cases bs with
  | nil => simp [splitSlash]
  | cons b bs =>
    rw [splitSlash]
    split
    · simp
    · split <;> simp

theorem joinSlash_cons (part : Part) {parts : List Part} (h : parts ≠ []) :
    joinSlash (part :: parts) = part.bytes ++ slash :: joinSlash parts := by
  cases parts with
  | nil => exact absurd rfl h
  | cons next rest => rfl

theorem joinSlash_splitSlash (bs : List UInt8) : joinSlash (splitSlash bs) = bs := by
  induction bs with
  | nil => rfl
  | cons b bs ih =>
    rw [splitSlash]
    split
    next hslash =>
      rw [joinSlash_cons _ (splitSlash_ne_nil bs), ih, hslash]
      rfl
    next hslash =>
      split
      next hnil => exact absurd hnil (splitSlash_ne_nil bs)
      next part parts hparts =>
        rw [hparts] at ih
        by_cases hnil : parts = []
        · subst hnil
          exact congrArg (b :: ·) ih
        · rw [joinSlash_cons _ hnil] at ih ⊢
          exact congrArg (b :: ·) ih

/-- **A path keeps the bytes that it was read from.** -/
theorem bytes_ofBytes (bs : List UInt8) : (ofBytes bs).bytes = bs := by
  have hjoin := joinSlash_splitSlash bs
  rw [ofBytes]
  cases hsplit : splitSlash bs with
  | nil => exact absurd hsplit (splitSlash_ne_nil bs)
  | cons part parts =>
    rw [hsplit] at hjoin
    rw [ofSplit]
    split
    next hdot =>
      by_cases hnil : parts = []
      · subst hnil
        rw [← hjoin, hdot]
        rfl
      · rw [joinSlash_cons _ hnil, hdot] at hjoin
        rw [bytes, ← hjoin]
        simp [hnil, Part.here]
    next hdot =>
      split
      next hroot =>
        rw [joinSlash_cons _ hroot.2, hroot.1] at hjoin
        exact hjoin
      next hroot => exact hjoin

/-- **A path is shown as it is written.** -/
theorem text_ofText (s : String) : (ofText s).text = s := by
  rw [text, ofText, bytes_ofBytes, Text.shown_bytes]

/-! ### Parts that say something -/

/-- The path without the idle parts at its end. -/
def trimParts (parts : List Part) : List Part := (parts.reverse.dropWhile Part.isIdle).reverse

/-- The parts that are not idle. -/
def steps (p : Path) : List Part := p.parts.filter fun part => !part.isIdle

/-- The empty path. -/
def empty : Path := ⟨.bare, [.empty]⟩

/-- A path whose parts may be none at all. -/
def ofParts (anchor : Anchor) (parts : List Part) : Path :=
  ⟨anchor, if parts.isEmpty ∧ anchor ≠ .here then [.empty] else parts⟩

/-- The path without its last step. The root and the empty path have no parent, and the parent of a
lone dot is the empty path. -/
def parent? (p : Path) : Option Path :=
  match trimParts p.parts with
  | [] => if p.anchor = .here then some empty else none
  | part :: parts => some (ofParts p.anchor (trimParts (part :: parts).dropLast))

/-- The last step of a path, if it is a name. -/
def fileName? (p : Path) : Option Part := (trimParts p.parts).getLast?.filter (· ≠ Part.up)

/-- The path starts at the root. -/
def isAbsolute (p : Path) : Bool := p.anchor = .root

/-! ### Joining -/

/-- All that stands between the slashes of a path that is not absolute. -/
def relativeParts (p : Path) : List Part :=
  if p.anchor = .here then .here :: p.parts else p.parts

/-- A path as seen from another one. An absolute path stays as it is. -/
def join (base p : Path) : Path :=
  if p.isAbsolute ∨ base = empty then p
  else
    let front := if base.parts.getLast? = some .empty then base.parts.dropLast else base.parts
    ⟨base.anchor, front ++ p.relativeParts⟩

/-- The path of a part below a directory. -/
def child (base : Path) (part : Part) : Path := base.join ⟨.bare, [part]⟩

/-- The path of some names below a directory, each in the one in front of it. -/
def below (base : Path) (names : List Name) : Path :=
  names.foldl (fun p name => p.child name.part) base

/-! ### Ancestors -/

theorem filter_dropWhile_isIdle (l : List Part) :
    (l.dropWhile Part.isIdle).filter (!·.isIdle) = l.filter (!·.isIdle) := by
  induction l with
  | nil => rfl
  | cons a l ih => by_cases ha : Part.isIdle a <;> simp [ha, ih]

/-- Trimming takes only idle parts away. -/
theorem filter_trimParts (parts : List Part) :
    (trimParts parts).filter (!·.isIdle) = parts.filter (!·.isIdle) := by
  rw [trimParts, List.filter_reverse, filter_dropWhile_isIdle, List.filter_reverse,
    List.reverse_reverse]

/-- What is left by trimming ends with a part that is not idle. -/
theorem trimParts_eq_concat {parts : List Part} (h : trimParts parts ≠ []) :
    ∃ last, Part.isIdle last = false ∧ trimParts parts = (trimParts parts).dropLast ++ [last] := by
  unfold trimParts at h ⊢
  cases hd : parts.reverse.dropWhile Part.isIdle with
  | nil => rw [hd] at h; exact absurd rfl h
  | cons last rest =>
    refine ⟨last, ?_, by simp⟩
    have := List.head?_dropWhile_not Part.isIdle parts.reverse
    rw [hd] at this
    simpa using this

theorem steps_ofParts (a : Anchor) (parts : List Part) :
    (ofParts a parts).steps = parts.filter (!·.isIdle) := by
  unfold ofParts steps
  split <;> rename_i h
  · have : parts = [] := by simpa using h.1
    subst this; simp [Part.isIdle]
  · rfl

/-- A parent has one step less; above a lone dot there is no step to take away. -/
theorem steps_of_parent? {p q : Path} (h : p.parent? = some q) :
    q.steps = p.steps.dropLast ∧
      (p.anchor = .here ∧ q.anchor ≠ .here ∨ q.steps.length < p.steps.length) := by
  unfold parent? at h
  split at h <;> rename_i ht
  · split at h <;> rename_i ha
    · cases h
      have : p.steps = [] := by rw [steps, ← filter_trimParts, ht]; rfl
      exact ⟨by rw [this]; rfl, Or.inl ⟨ha, by decide⟩⟩
    · cases h
  · cases h
    rename_i part parts
    obtain ⟨last, hl, hc⟩ := @trimParts_eq_concat p.parts (by rw [ht]; simp)
    have hs : p.steps = (trimParts p.parts).dropLast.filter (!·.isIdle) ++ [last] := by
      rw [steps, ← filter_trimParts]
      conv => lhs; rw [hc]
      simp [hl]
    rw [steps_ofParts, filter_trimParts, hs, ← ht]
    simp

/-- How many parents a path has above it, or more. -/
def depth (p : Path) : Nat := 2 * p.steps.length + if p.anchor = .here then 1 else 0

theorem depth_lt_of_parent? {p q : Path} (h : p.parent? = some q) : q.depth < p.depth := by
  have ha : q.anchor = .here → p.anchor = .here := by
    intro hq
    unfold parent? at h
    split at h
    · split at h
      · assumption
      · cases h
    · cases h; exact hq
  rcases (steps_of_parent? h).2 with ⟨h1, h2⟩ | h1
  · have hle : q.steps.length ≤ p.steps.length := by rw [(steps_of_parent? h).1]; simp
    simp only [depth, if_pos h1, if_neg h2]; omega
  · unfold depth
    split <;> split <;> omega

/-- The path and the paths above it, up to one that has no parent. -/
def ancestors (p : Path) : List Path :=
  match _h : p.parent? with
  | none => [p]
  | some q => p :: ancestors q
termination_by p.depth
decreasing_by exact depth_lt_of_parent? _h

end Path

end Manifest
