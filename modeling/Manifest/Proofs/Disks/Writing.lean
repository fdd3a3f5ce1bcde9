import Manifest.Proofs.Disks.Following

/-! # Reading what was written

A path that has been written is followed to the same place afterwards, through the same directories
and links, and what it leads to is the file just written (`leads_put`). So a file that is read right
after it was written has the content it was given (`readBytes_of_write`), and a text that was written
can be read again (`decode_toUTF8`). -/

namespace Manifest.Proofs.Disks.Writing

open Manifest.FileTree Manifest.Disk Manifest.Proofs.Disks.Places Manifest.Proofs.Disks.Following

/-! ### A file at a place -/

/-- A place for a file: nothing stands there, or a file. -/
def Free (t : FileTree) (target : List Name) : Prop :=
  t.at? target = none ∨ ∃ content, t.at? target = some (file content)

variable {tree : FileTree} {target place : List Name} {content : ByteArray}

/-- Nothing stands below a place for a file. -/
theorem Free.eq_of_below {u : FileTree} (hfree : Free tree target) (h : tree.at? place = some u)
    (hbelow : target <+: place) : place = target := by
  obtain ⟨more, rfl⟩ := hbelow
  by_cases hmore : more = []
  · rw [hmore, List.append_nil]
  · rcases hfree with hnone | ⟨old, hold⟩
    · rw [at?_append, hnone] at h
      cases h
    · cases isDir_of_below hold (by rw [h]; rfl) hmore

theorem Free.not_below {u : FileTree} (hfree : Free tree target) (h : tree.at? place = some u)
    (hfile : ∀ content, u ≠ file content) : ¬ target <+: place := by
  intro hbelow
  rw [hfree.eq_of_below h hbelow] at h
  rcases hfree with hnone | ⟨old, hold⟩
  · rw [hnone] at h
    cases h
  · rw [hold] at h
    exact hfile old (Option.some.inj h).symm

theorem Free.of_sameShape {t : FileTree} (hfree : Free tree target)
    (h : SameShape (t.at? target) (tree.at? target)) : Free t target := by
  rcases h with heq | ⟨-, children, -, hdir⟩
  · rw [Free, heq]
    exact hfree
  · exact absurd List.prefix_rfl (hfree.not_below hdir fun content => by simp)

/-- Directories stay directories when a file is put somewhere. -/
theorem dirAt_put (h : DirAt tree place) (hfree : Free tree target) :
    DirAt (tree.put target (file content)) place := by
  obtain ⟨children, h⟩ := h
  have hplace : ¬ target <+: place := hfree.not_below h fun content => by simp
  rcases sameShape_at?_put hplace with heq | ⟨old, new, -, hnew⟩
  · exact ⟨children, heq ▸ h⟩
  · exact ⟨new, hnew⟩

/-- Links stay as they are when a file is put somewhere. -/
theorem link_at?_put {p : Path} (h : tree.at? place = some (link p)) (hfree : Free tree target) :
    (tree.put target (file content)).at? place = some (link p) := by
  have hplace : ¬ target <+: place := hfree.not_below h fun content => by simp
  rcases sameShape_at?_put hplace with heq | ⟨old, new, hold, -⟩
  · exact heq ▸ h
  · rw [h] at hold
    cases hold

/-- What is no link does not become one when a file is put somewhere. -/
theorem solid_put (h : Solid tree place) (hfree : Free tree target)
    (hself : (tree.put target (file content)).at? target = some (file content)) :
    Solid (tree.put target (file content)) place := by
  obtain ⟨u, hu, hlink⟩ := h
  by_cases hbelow : target <+: place
  · rw [hfree.eq_of_below hu hbelow]
    exact ⟨_, hself, fun p => by simp⟩
  · rcases sameShape_at?_put hbelow with heq | ⟨old, new, -, hnew⟩
    · exact ⟨u, heq ▸ hu, hlink⟩
    · exact ⟨_, hnew, fun p => by simp⟩

/-- A file that is put somewhere changes nothing at any other place, but for what a directory holds. -/
theorem sameShape_of_free (hfree : Free tree target)
    (hself : (tree.put target (file content)).at? target = some (file content))
    (hplace : place ≠ target) :
    SameShape (tree.at? place) ((tree.put target (file content)).at? place) := by
  by_cases hbelow : target <+: place
  · refine .inl ?_
    have hold : tree.at? place = none := by
      by_contra hsome
      obtain ⟨u, hu⟩ := Option.ne_none_iff_exists'.mp hsome
      exact hplace (hfree.eq_of_below hu hbelow)
    obtain ⟨more, rfl⟩ := hbelow
    obtain ⟨name, rest, rfl⟩ : ∃ name rest, more = name :: rest :=
      List.exists_cons_of_ne_nil fun hnil => hplace (by rw [hnil, List.append_nil])
    rw [hold, at?_append, hself]
    rfl
  · exact sameShape_at?_put hbelow

/-! ### Following after writing -/

/-- What parts lead to is the file put at the spot they lead to. -/
theorem leads_put {links : Nat} {todo : List Part} {s : Spot} (h : Leads tree links place todo s)
    (hfree : Free tree s.place)
    (hself : (tree.put s.place (file content)).at? s.place = some (file content)) :
    Leads (tree.put s.place (file content)) links place todo ⟨s.place, some (file content)⟩ := by
  induction h with
  | done h => exact hself ▸ .done (solid_put h hfree hself)
  | idle hdir hidle next ih => exact .idle (dirAt_put hdir hfree) hidle (ih hfree hself)
  | above hdir next ih => exact .above (dirAt_put hdir hfree) (ih hfree hself)
  | missing name hdir h =>
    have hsolid : Solid _ _ := ⟨_, hself, fun p => by simp⟩
    exact .into name (dirAt_put hdir hfree) hsolid (hself ▸ .done hsolid)
  | through name hdir h next ih =>
    exact .through name (dirAt_put hdir hfree) (link_at?_put h hfree) (ih hfree hself)
  | into name hdir h next ih =>
    exact .into name (dirAt_put hdir hfree) (solid_put h hfree hself) (ih hfree hself)

/-- What is put at the end of a path stands there. -/
theorem at?_put_of_leads {links : Nat} {todo : List Part} {s : Spot}
    (h : Leads tree links place todo s) (new : FileTree) :
    (tree.put s.place new).at? s.place = some new := by
  rcases h.spot.2 with ⟨u, hu, -⟩ | ⟨-, place, name, hplace, children, hdir⟩
  · rcases List.eq_nil_or_concat s.place with hnil | ⟨init, last, hconcat⟩
    · rw [hnil]
      cases tree <;> exact at?_nil new
    · rw [List.concat_eq_append] at hconcat
      rw [hconcat] at hu ⊢
      obtain ⟨children, hdir⟩ := dir_of_above (by rw [hu]; rfl) (List.cons_ne_nil last [])
      exact at?_put_self hdir last new
  · rw [hplace]
    exact at?_put_self hdir name new

/-- A file is written at a place for a file, and its path leads there afterwards. -/
theorem exists_place_of_write {d d' : Disk} {p : Path} (hne : p.parts ≠ [])
    (h : d.write p content = .ok d') :
    ∃ target, Free d.tree target ∧ d' = d.put target (file content) ∧
      d'.find p = .ok (target, file content) := by
  obtain ⟨s, hs, hdir, rfl⟩ : ∃ s, d.resolve p .whole = .ok s ∧
      (∀ children, s.found? ≠ some (dir children)) ∧ d.put s.place (file content) = d' := by
    rw [write] at h
    split at h
    next e he => cases h
    next place children hs => cases h
    next place found? hdir hs => exact ⟨_, hs, fun children => hdir children, Except.ok.inj h⟩
  rw [resolve] at hs
  split_ifs at hs with hnul hempty hlong
  have hstart : Solid d.tree (origin d.here p) := (dirAt_of_follow hne hs).solid
  have hleads := leads_of_follow rfl hstart hs
  have hself : (d.tree.put s.place (file content)).at? s.place = some (file content) :=
    at?_put_of_leads hleads _
  have hfree : Free d.tree s.place := by
    obtain ⟨hfound, hspot⟩ := hleads.spot
    rw [Free, ← hfound]
    rcases hspot with ⟨u, hu, hlink⟩ | ⟨hnone, -⟩
    · rw [hfound, hu] at hdir ⊢
      cases u with
      | file old => exact .inr ⟨old, rfl⟩
      | link p => exact absurd rfl (hlink p)
      | dir children => exact absurd rfl (hdir children)
    · exact .inl hnone
  have hfollow := follow_of_leads (leads_put hleads hfree hself)
  have hresolve : (d.put s.place (file content)).resolve p .whole =
      .ok ⟨s.place, some (file content)⟩ := by
    rw [resolve, if_neg hnul, if_neg hempty, if_neg hlong]
    exact hfollow
  exact ⟨s.place, hfree, rfl, by rw [find, hresolve, spotted]⟩

/-- **A file that has been written has the content it was given.** -/
theorem readBytes_of_write {d d' : Disk} {p : Path} (hne : p.parts ≠ [])
    (h : d.write p content = .ok d') : d'.readBytes p = .ok content := by
  obtain ⟨target, -, -, hfind⟩ := exists_place_of_write hne h
  rw [readBytes, hfind]

/-- A text comes back from the bytes that it is written in. -/
theorem decode_toUTF8 (text : String) : Disk.decode text.toUTF8 = .ok text := by
  have hvalid : String.fromUTF8? text.toUTF8 = some text := dif_pos text.isValidUTF8
  rw [Disk.decode, hvalid]

end Manifest.Proofs.Disks.Writing
