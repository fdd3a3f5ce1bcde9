import Mathlib.Data.List.Basic
import Manifest.FileTree

/-! # Names and the paths they make

A row of names can be read off its joined bytes (`joinNames_inj`). What is shown for it, or for its
absolute path, tells it apart, too, if the names are texts (`eq_of_shown`, `eq_of_text_ofNames`). In
these paths the parent is one name less (`parent?_ofNames_concat`). -/

namespace Manifest.Proofs.Disks.Names

open Manifest.Path Manifest.FileTree
open Manifest.Text (slash bytesOf bytesOf_append shown shown_bytes)

/-- All names in the tree have a property. -/
def Everywhere (P : Name → Prop) (t : FileTree) : Prop :=
  ∀ place, (t.at? place).isSome → ∀ name ∈ place, P name

theorem everywhere_file {P : Name → Prop} (content : ByteArray) :
    Everywhere P (.file content) := by
  intro place h name hname
  cases place with
  | nil => cases hname
  | cons first rest => cases h

theorem everywhere_link {P : Name → Prop} (target : Path) : Everywhere P (.link target) := by
  intro place h name hname
  cases place with
  | nil => cases hname
  | cons first rest => cases h

theorem everywhere_dir {P : Name → Prop} {children : List (Name × FileTree)}
    (h : ∀ c ∈ children, P c.1 ∧ Everywhere P c.2) : Everywhere P (.dir children) := by
  intro place hplace name hname
  cases place with
  | nil => cases hname
  | cons first rest =>
    rw [FileTree.at?, Option.isSome_bind] at hplace
    cases hchild : FileTree.child? children first with
    | none => rw [hchild] at hplace; cases hplace
    | some t =>
      rw [hchild] at hplace
      obtain ⟨hfirst, ht⟩ := h _ (mem_of_child? hchild)
      rcases List.mem_cons.mp hname with rfl | hrest
      · exact hfirst
      · exact ht rest hplace name hrest

/-! ### Joining and splitting -/

theorem splitSlash_of_noSlash {bs : List UInt8} (h : slash ∉ bs) : splitSlash bs = [⟨bs⟩] := by
  induction bs with
  | nil => rfl
  | cons b bs ih =>
    obtain ⟨hb, hbs⟩ : slash ≠ b ∧ slash ∉ bs := by simpa using h
    rw [splitSlash, if_neg hb.symm, ih hbs]

theorem splitSlash_append_slash {bs : List UInt8} (h : slash ∉ bs) (rest : List UInt8) :
    splitSlash (bs ++ slash :: rest) = ⟨bs⟩ :: splitSlash rest := by
  induction bs with
  | nil => rw [List.nil_append, splitSlash, if_pos rfl, Part.empty]
  | cons b bs ih =>
    obtain ⟨hb, hbs⟩ : slash ≠ b ∧ slash ∉ bs := by simpa using h
    rw [List.cons_append, splitSlash, if_neg hb.symm, ih hbs]

/-- Parts without slashes can be read off their joined bytes. -/
theorem splitSlash_joinSlash {parts : List Part} (hne : parts ≠ [])
    (h : ∀ part ∈ parts, slash ∉ part.bytes) : splitSlash (joinSlash parts) = parts := by
  induction parts with
  | nil => exact absurd rfl hne
  | cons part parts ih =>
    have hpart : slash ∉ part.bytes := h part List.mem_cons_self
    by_cases hnil : parts = []
    · subst hnil
      exact splitSlash_of_noSlash hpart
    · have hrest := ih hnil fun q hq => h q (List.mem_cons_of_mem _ hq)
      rw [joinSlash_cons _ hnil, splitSlash_append_slash hpart, hrest]

theorem map_part_injective : Function.Injective (List.map Name.part) :=
  List.map_injective_iff.mpr fun _ _ h => Name.ext_part h

theorem splitSlash_joinNames {names : List Name} (hne : names ≠ []) :
    splitSlash (joinNames names) = names.map Name.part := by
  refine splitSlash_joinSlash (by simpa using hne) fun part hpart => ?_
  obtain ⟨name, -, rfl⟩ := List.mem_map.mp hpart
  exact name.slash_notMem

/-- What the names of a row are joined to is empty only if the row is. -/
theorem joinNames_eq_nil {names : List Name} (h : joinNames names = []) : names = [] := by
  by_contra hne
  have hsplit := splitSlash_joinNames hne
  rw [h] at hsplit
  obtain ⟨name, rest, rfl⟩ := List.exists_cons_of_ne_nil hne
  have hempty : Part.empty = name.part := (List.cons.inj hsplit).1
  have hidle := name.isIdle_part
  rw [← hempty] at hidle
  exact absurd hidle (by decide)

/-- **Rows of names with the same joined bytes are the same.** -/
theorem joinNames_inj {p q : List Name} (h : joinNames p = joinNames q) : p = q := by
  by_cases hnil : p = []
  · subst hnil
    exact (joinNames_eq_nil h.symm).symm
  · have hnil' : q ≠ [] := by
      rintro rfl
      exact hnil (joinNames_eq_nil h)
    exact map_part_injective (by rw [← splitSlash_joinNames hnil, h, splitSlash_joinNames hnil'])

/-! ### Names that are texts -/

/-- The name is UTF-8. -/
def IsText (n : Name) : Prop := ∃ s : String, n.part = Part.ofText s

theorem isText_ofText (s : String) (h : (Part.ofText s).isName = true) : IsText (.ofText s h) :=
  ⟨s, rfl⟩

theorem exists_joinNames_eq_bytes {names : List Name} (h : ∀ n ∈ names, IsText n) :
    ∃ s, joinNames names = Text.bytes s := by
  induction names with
  | nil => exact ⟨"", rfl⟩
  | cons name rest ih =>
    obtain ⟨first, hfirst⟩ := h name List.mem_cons_self
    by_cases hnil : rest = []
    · subst hnil
      exact ⟨first, congrArg Part.bytes hfirst⟩
    · obtain ⟨s, hs⟩ := ih fun n hn => h n (List.mem_cons_of_mem _ hn)
      refine ⟨first ++ "/" ++ s, ?_⟩
      have hslash : bytesOf ['/'] = [slash] := by decide
      rw [joinNames, List.map_cons, joinSlash_cons _ (by simpa using hnil), ← joinNames, hs, hfirst]
      simp only [Part.ofText, Text.bytes, String.toList_append, bytesOf_append, List.append_assoc]
      exact congrArg (bytesOf first.toList ++ ·) (congrArg (· ++ bytesOf s.toList) hslash.symm)

/-- **Rows of UTF-8 names for which the same is shown are the same.** -/
theorem eq_of_shown {p q : List Name} (hp : ∀ n ∈ p, IsText n) (hq : ∀ n ∈ q, IsText n)
    (h : shown (joinNames p) = shown (joinNames q)) : p = q := by
  obtain ⟨s, hs⟩ := exists_joinNames_eq_bytes hp
  obtain ⟨t, ht⟩ := exists_joinNames_eq_bytes hq
  rw [hs, ht, shown_bytes, shown_bytes] at h
  exact joinNames_inj (by rw [hs, ht, h])

/-! ### Children -/

theorem parts_child_ne_nil (base : Path) (part : Part) : (base.child part).parts ≠ [] := by
  rw [child, join]
  split_ifs <;> simp [relativeParts]

/-! ### Absolute paths -/

theorem bytes_ofNames (names : List Name) : (ofNames names).bytes = slash :: joinNames names := by
  cases names <;> rfl

/-- Absolute paths of UTF-8 names for which the same is shown are the same. -/
theorem eq_of_text_ofNames {p q : List Name} (hp : ∀ n ∈ p, IsText n) (hq : ∀ n ∈ q, IsText n)
    (h : (ofNames p).text = (ofNames q).text) : p = q := by
  have hchars := String.ofList_injective h
  rw [bytes_ofNames, bytes_ofNames, Text.shownChars_slash, Text.shownChars_slash] at hchars
  exact eq_of_shown hp hq (congrArg String.ofList (List.cons.inj hchars).2)

theorem trimParts_of_names (names : List Name) :
    trimParts (names.map Name.part) = names.map Name.part := by
  rcases List.eq_nil_or_concat names with rfl | ⟨init, last, rfl⟩
  · rfl
  · simp [trimParts]

theorem parent?_ofNames_concat (names : List Name) (name : Name) :
    (ofNames (names ++ [name])).parent? = some (ofNames names) := by
  have hparts : (ofNames (names ++ [name])).parts = (names ++ [name]).map Name.part := by
    simp [ofNames]
  have hdrop : trimParts ((names ++ [name]).map Name.part).dropLast = names.map Name.part := by
    rw [List.map_append, List.map_singleton, List.dropLast_concat, trimParts_of_names]
  rw [parent?, hparts, trimParts_of_names]
  split
  next hnil => exact absurd hnil (by simp)
  next part parts hcons =>
    rw [← hcons, hdrop]
    simp [ofParts, ofNames]

end Manifest.Proofs.Disks.Names
