import Manifest.Yaml.Token.Lexer
import Mathlib.Tactic.SplitIfs

/-! # Cursors move forward

What stands behind a cursor is a suffix of the text. Every function that moves a cursor over a gap, an
anchor, a tag or a directive leaves it in front of a suffix of what it stood in front of. -/

namespace Manifest.Proofs.Absent

open Manifest.Yaml

/-! ### Cursors move forward -/

theorem suffix_skip (c : Cursor) (n : Nat) : (c.skip n).rest <:+ c.rest := List.drop_suffix n c.rest

theorem suffix_take (c : Cursor) (n : Nat) : (c.take n).rest <:+ c.rest := List.drop_suffix n c.rest

theorem suffix_skipWhile (c : Cursor) (p : Char → Bool) : (c.skipWhile p).rest <:+ c.rest :=
  suffix_skip c _

theorem suffix_skipBreak (c : Cursor) : c.skipBreak.rest <:+ c.rest := by
  unfold Cursor.skipBreak
  split
  next rest h => rw [h]; exact ⟨['\r', '\n'], rfl⟩
  next rest h => rw [h]; exact List.suffix_cons _ _
  next rest _ h => rw [h]; exact List.suffix_cons _ _
  next => exact List.suffix_rfl

theorem suffix_skipLineRest {c : Cursor} {tabs : Bool} {line : Cursor.LineRest}
    (h : c.skipLineRest tabs = .ok line) : line.cursor.rest <:+ c.rest := by
  unfold Cursor.skipLineRest at h
  dsimp only at h
  split_ifs at h
  · cases h
  · cases h
    exact (suffix_skipWhile _ _).trans (suffix_skip c _)
  · cases h
    exact suffix_skip c _

theorem suffix_passGap {indent : Option Int} {gap : Cursor.Gap} {rest : List Char} {mark : Mark}
    {leading comment crossed : Bool}
    (h : Cursor.passGap indent rest mark leading comment crossed = .ok gap) :
    gap.cursor.rest <:+ rest := by
  fun_induction Cursor.passGap indent rest mark leading comment crossed with
  | case1 | case9 =>
    cases h
    exact List.suffix_rfl
  | case2 rest mark _ _ _ ih => exact (ih h).trans ⟨['\r', '\n'], rfl⟩
  | case3 | case4 | case5 | case6 | case8 =>
    rename_i ih
    exact (ih h).trans (List.suffix_cons _ _)
  | case7 => cases h

theorem suffix_passKeyGap (rest : List Char) (mark : Mark) (leading comment crossed seen : Bool) :
    (Cursor.passKeyGap rest mark leading comment crossed seen).1.cursor.rest <:+ rest := by
  fun_induction Cursor.passKeyGap rest mark leading comment crossed seen with
  | case1 | case7 => exact List.suffix_rfl
  | case2 rest mark _ _ _ _ ih => exact ih.trans ⟨['\r', '\n'], rfl⟩
  | case3 | case4 | case5 | case6 =>
    rename_i ih
    exact ih.trans (List.suffix_cons _ _)

theorem suffix_skipKeyGap {c : Cursor} {gap : Cursor.Gap} (h : c.skipKeyGap = .ok gap) :
    gap.cursor.rest <:+ c.rest := by
  have hpass := suffix_passKeyGap c.rest c.mark c.leading false false false
  unfold Cursor.skipKeyGap at h
  split at h
  next heq => cases h; rw [heq] at hpass; exact hpass
  next => cases h

/-! ### Anchors, tags and directives -/

theorem suffix_readAnchorName {c c' : Cursor} {name : String}
    (h : readAnchorName c = .ok (name, c')) : c'.rest <:+ c.rest := by
  unfold readAnchorName at h
  dsimp only at h
  split_ifs at h
  cases h
  exact suffix_take c _

theorem suffix_readTrailing : ∀ (n : Nat) {c c' : Cursor} {code code' : Nat},
    readTrailing n c code = .ok (code', c') → c'.rest <:+ c.rest
  | 0, c, c', code, code', h => by
    cases h
    exact List.suffix_rfl
  | n + 1, c, c', code, code', h => by
    rw [readTrailing] at h
    split at h
    · cases h
    · split_ifs at h
      exact (suffix_readTrailing n h).trans (suffix_take c 3)

theorem suffix_readUriEscape {c c' : Cursor} {x : Char} (h : readUriEscape c = .ok (x, c')) :
    c'.rest <:+ c.rest := by
  unfold readUriEscape at h
  split at h
  · cases h
  split at h
  · cases h
  split at h
  · cases h
  next hread =>
    split_ifs at h
    cases h
    exact (suffix_readTrailing _ hread).trans (suffix_take c 3)

theorem suffix_readUri (p : Char → Bool) : ∀ (fuel : Nat) {c c' : Cursor}
    {text text' : List Char},
    readUri p fuel c text = .ok (text', c') → c'.rest <:+ c.rest
  | 0, c, c', text, text', h => by
    cases h
    exact List.suffix_rfl
  | fuel + 1, c, c', text, text', h => by
    rw [readUri] at h
    split at h
    · cases h
      exact List.suffix_rfl
    split_ifs at h
    · cases h
      exact List.suffix_rfl
    · split at h
      · cases h
      next hread => exact (suffix_readUri p fuel h).trans (suffix_readUriEscape hread)
    · exact (suffix_readUri p fuel h).trans (suffix_take c 1)

theorem suffix_readUriWhile {p : Char → Bool} {c c' : Cursor} {text : List Char} {uri : String}
    (h : readUriWhile p c text = .ok (uri, c')) : c'.rest <:+ c.rest := by
  unfold readUriWhile at h
  split at h
  · cases h
  next hread =>
    cases h
    exact suffix_readUri p _ hread

theorem suffix_readHandle {directive : Bool} {c c' : Cursor} {handle : String}
    (h : readHandle directive c = .ok (handle, c')) : c'.rest <:+ c.rest := by
  unfold readHandle at h
  dsimp only at h
  split_ifs at h
  · cases h
    exact (suffix_take _ 1).trans (suffix_take c _)
  · cases h
    exact suffix_take c _

theorem suffix_readTag {c c' : Cursor} {parts : String × String} (h : readTag c = .ok (parts, c')) :
    c'.rest <:+ c.rest := by
  unfold readTag at h
  split_ifs at h
  · -- the verbatim form
    split at h
    · cases h
    next hread =>
      cases h
      unfold readVerbatim at hread
      split at hread
      · cases hread
      next huri =>
        split_ifs at hread
        cases hread
        exact ((suffix_take _ 1).trans (suffix_readUriWhile huri)).trans (suffix_take c 2)
  · split at h
    · cases h
    next hhandle =>
      split_ifs at h
      all_goals
        split at h
        · cases h
      · next hread =>
        split_ifs at h
        cases h
        exact (suffix_readUriWhile hread).trans (suffix_readHandle hhandle)
      · next hread =>
        cases h
        exact (suffix_readUriWhile hread).trans (suffix_readHandle hhandle)

theorem suffix_readVersionNumber {c c' : Cursor} {u : Unit}
    (h : readVersionNumber c = .ok (u, c')) : c'.rest <:+ c.rest := by
  unfold readVersionNumber at h
  dsimp only at h
  split_ifs at h
  cases h
  exact suffix_take c _

theorem suffix_readVersion {c c' : Cursor} {kind : Token.Kind} (h : readVersion c = .ok (kind, c')) :
    c'.rest <:+ c.rest := by
  unfold readVersion at h
  split at h
  · cases h
  next hmajor =>
    split_ifs at h
    split at h
    · cases h
    next hminor =>
      cases h
      exact (suffix_readVersionNumber hminor).trans ((suffix_take _ 1).trans
        ((suffix_readVersionNumber hmajor).trans (suffix_skipWhile c _)))

theorem suffix_readExpansion {c c' : Cursor} {expansion : String}
    (h : readExpansion c = .ok (expansion, c')) : c'.rest <:+ c.rest := by
  unfold readExpansion at h
  split at h
  · cases h
  split_ifs at h
  · exact (suffix_readUriWhile h).trans (suffix_take c 1)
  · exact suffix_readUriWhile h

theorem suffix_readTagDirective {c c' : Cursor} {kind : Token.Kind}
    (h : readTagDirective c = .ok (kind, c')) : c'.rest <:+ c.rest := by
  unfold readTagDirective at h
  split at h
  · cases h
  next hhandle =>
    split at h
    · cases h
    next hexpansion =>
      split_ifs at h
      cases h
      exact (suffix_readExpansion hexpansion).trans ((suffix_skipWhile _ _).trans
        ((suffix_readHandle hhandle).trans (suffix_skipWhile c _)))

/-- The token of a directive. -/
def IsDirective : Token.Kind → Prop
  | .versionDirective => True
  | .tagDirective _ _ => True
  | _ => False

theorem isDirective_of_readVersion {c c' : Cursor} {kind : Token.Kind}
    (h : readVersion c = .ok (kind, c')) : IsDirective kind := by
  unfold readVersion at h
  split at h
  · cases h
  split_ifs at h
  split at h
  · cases h
  cases h
  trivial

theorem isDirective_of_readTagDirective {c c' : Cursor} {kind : Token.Kind}
    (h : readTagDirective c = .ok (kind, c')) : IsDirective kind := by
  unfold readTagDirective at h
  split at h
  · cases h
  split at h
  · cases h
  split_ifs at h
  cases h
  trivial

theorem suffix_scanDirective {c c' : Cursor} {t : Token} (h : scanDirective c = .ok (t, c')) :
    c'.rest <:+ c.rest ∧ IsDirective t.kind := by
  unfold scanDirective at h
  extract_lets start inner name body parts at h
  have hbody : body.rest <:+ c.rest := (suffix_skip inner _).trans (suffix_take c 1)
  have hparts : ∀ kind stop, parts = .ok (kind, stop) →
      stop.rest <:+ body.rest ∧ IsDirective kind := by
    intro kind stop hread
    unfold parts at hread
    split_ifs at hread
    · exact ⟨suffix_readVersion hread, isDirective_of_readVersion hread⟩
    · exact ⟨suffix_readTagDirective hread, isDirective_of_readTagDirective hread⟩
    · cases hread
      exact ⟨suffix_skipWhile body _, trivial⟩
  clear_value parts
  split at h
  · cases h
  split at h
  · cases h
  split at h
  · cases h
  next kind stop =>
    obtain ⟨hstop, hkind⟩ := hparts kind stop rfl
    split at h
    · cases h
    next line hline =>
      split at h
      · cases h
        exact ⟨(suffix_skipBreak _).trans
          ((suffix_skipLineRest hline).trans (hstop.trans hbody)), hkind⟩
      · cases h

end Manifest.Proofs.Absent
