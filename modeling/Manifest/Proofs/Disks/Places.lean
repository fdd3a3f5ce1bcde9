import Mathlib.Data.List.Basic
import Manifest.FileTree

/-! # What stands at the places of a tree

A row of names is followed from name to name (`at?_append`), so whatever lies above something is a
directory (`at?_of_above`). Putting something at a place is seen there (`at?_put_self`); elsewhere, but
for what lies below that place, files and links stay as they are and directories stay directories
(`at?_put`). -/

namespace Manifest.Proofs.Disks.Places

open Manifest.FileTree

/-! ### Looking up -/

@[simp] theorem at?_dir_cons (children : List (Name × FileTree)) (name : Name)
    (rest : List Name) :
    (dir children).at? (name :: rest) = (child? children name).bind (·.at? rest) := rfl

theorem at?_cons_of_not_isDir {t : FileTree} (ht : t.isDir = false) (name : Name)
    (rest : List Name) : t.at? (name :: rest) = none := by
  cases t with
  | dir children => cases ht
  | file content => rfl
  | link target => rfl

/-- What stands at a place is looked up name by name. -/
theorem at?_append (t : FileTree) (p q : List Name) :
    t.at? (p ++ q) = (t.at? p).bind (·.at? q) := by
  induction p generalizing t with
  | nil => simp
  | cons name p ih =>
    cases t with
    | dir children =>
      rw [List.cons_append, at?_dir_cons, at?_dir_cons, Option.bind_assoc]
      congr
      funext t
      exact ih t
    | file content => rfl
    | link target => rfl

theorem at?_concat {t : FileTree} {place : List Name} {children : List (Name × FileTree)}
    (h : t.at? place = some (dir children)) (name : Name) :
    t.at? (place ++ [name]) = child? children name := by
  rw [at?_append, h, Option.bind_some, at?_dir_cons]
  cases child? children name <;> simp

/-- Whatever has something below it is a directory. -/
theorem isDir_of_below {t u : FileTree} {p q : List Name} (hu : t.at? p = some u)
    (hq : (t.at? (p ++ q)).isSome) (hne : q ≠ []) : u.isDir = true := by
  obtain ⟨name, rest, rfl⟩ := List.exists_cons_of_ne_nil hne
  by_contra hdir
  rw [at?_append, hu, Option.bind_some, at?_cons_of_not_isDir (by simpa using hdir)] at hq
  cases hq

/-- Something stands wherever something stands below. -/
theorem isSome_of_below {t : FileTree} {p q : List Name} (hq : (t.at? (p ++ q)).isSome) :
    (t.at? p).isSome := by
  rw [at?_append] at hq
  cases hp : t.at? p with
  | none => rw [hp] at hq; cases hq
  | some u => rfl

/-- Above something there are directories only. -/
theorem dir_of_above {t : FileTree} {p q : List Name} (hq : (t.at? (p ++ q)).isSome)
    (hne : q ≠ []) : ∃ children, t.at? p = some (dir children) := by
  obtain ⟨u, hu⟩ := Option.isSome_iff_exists.mp (isSome_of_below hq)
  cases u with
  | dir children => exact ⟨children, hu⟩
  | file content => cases isDir_of_below hu hq hne
  | link target => cases isDir_of_below hu hq hne

/-! ### Putting -/

/-- Two trees that are one and the same, or both directories. -/
def SameShape (t u : Option FileTree) : Prop :=
  t = u ∨ ∃ old new, t = some (dir old) ∧ u = some (dir new)

/-- What is no directory is the same in both. -/
theorem SameShape.eq_of_not_dir {t u : Option FileTree} (h : SameShape t u)
    (hdir : ∀ children, t ≠ some (dir children)) : u = t := by
  rcases h with heq | ⟨children, -, hdir', -⟩
  · exact heq.symm
  · exact absurd hdir' (hdir children)

theorem SameShape.kind_eq {t u : Option FileTree} (h : SameShape t u) : u.map isDir = t.map isDir := by
  rcases h with rfl | ⟨old, new, rfl, rfl⟩ <;> rfl

theorem SameShape.symm {t u : Option FileTree} (h : SameShape t u) : SameShape u t := by
  rcases h with heq | ⟨old, new, hold, hnew⟩
  · exact .inl heq.symm
  · exact .inr ⟨new, old, hnew, hold⟩

theorem SameShape.trans {t u v : Option FileTree} (h : SameShape t u) (h' : SameShape u v) :
    SameShape t v := by
  rcases h with rfl | ⟨old, mid, rfl, rfl⟩
  · exact h'
  · rcases h' with rfl | ⟨-, new, -, rfl⟩
    · exact .inr ⟨old, mid, rfl, rfl⟩
    · exact .inr ⟨old, new, rfl, rfl⟩

/-- What is put at a place stands there, if that place is in a directory. -/
theorem at?_put_self {t : FileTree} {place : List Name} {children : List (Name × FileTree)}
    (h : t.at? place = some (dir children)) (name : Name) (new : FileTree) :
    (t.put (place ++ [name]) new).at? (place ++ [name]) = some new := by
  induction place generalizing t with
  | nil =>
    obtain rfl : t = dir children := by simpa using h
    rw [List.nil_append]
    cases hc : child? children name with
    | some u => simp [put_of_some hc, child?_putChild_self, put]
    | none => simp [put_of_none hc, child?_putChild_self]
  | cons first place ih =>
    cases t with
    | dir top =>
      rw [at?_dir_cons] at h
      obtain ⟨u, hu, h⟩ := Option.bind_eq_some_iff.mp h
      rw [List.cons_append, put_of_some hu, at?_dir_cons, child?_putChild_self, Option.bind_some]
      exact ih h
    | file content => cases h
    | link target => cases h

/-- Putting something changes no file, no link and no directory into anything else, unless it stands
at that place or below it. -/
theorem sameShape_at?_put {t new : FileTree} {place q : List Name} (h : ¬ place <+: q) :
    SameShape (t.at? q) ((t.put place new).at? q) := by
  induction place generalizing t q with
  | nil => exact absurd List.nil_prefix h
  | cons name rest ih =>
    cases t with
    | file content => exact .inl rfl
    | link target => exact .inl rfl
    | dir children =>
      cases hc : child? children name with
      | some u =>
        rw [put_of_some hc]
        cases q with
        | nil => exact .inr ⟨children, _, at?_nil _, at?_nil _⟩
        | cons first q =>
          by_cases hname : first = name
          · subst hname
            have hrest : ¬ rest <+: q := fun hp => h (by simpa using hp)
            rw [at?_dir_cons, at?_dir_cons, child?_putChild_self, hc]
            exact ih hrest
          · rw [at?_dir_cons, at?_dir_cons, child?_putChild_of_ne hname]
            exact .inl rfl
      | none =>
        rw [put_of_none hc]
        split_ifs with hrest
        · cases q with
          | nil => exact .inr ⟨children, _, at?_nil _, at?_nil _⟩
          | cons first q =>
            have hname : first ≠ name := by
              rintro rfl
              exact h (by simp [hrest])
            rw [at?_dir_cons, at?_dir_cons, child?_putChild_of_ne hname]
            exact .inl rfl
        · exact .inl rfl

end Manifest.Proofs.Disks.Places
