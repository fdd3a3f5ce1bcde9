import Manifest.Proofs.Disks.Following

/-! # Disks that differ in the content of a file

Two disks on which everything is the same but the content of the file at one place (`Edited`). Every
path leads to the same place on both (`resolve_edited`), or to nothing on both for the same reason. So
what is read is the same, unless the path leads to that file (`readBytes_edited`). -/

namespace Manifest.Proofs.Disks.Editing

open Manifest.FileTree Manifest.Disk Manifest.Proofs.Disks.Following Manifest.Proofs.Disks.Places

/-- Two disks that differ in the content of the file at a place, and in nothing else. -/
structure Edited (d d' : Disk) (target : List Name) (old new : ByteArray) : Prop where
  here : d'.here = d.here
  old : d.tree.at? target = some (file old)
  new : d'.tree.at? target = some (file new)
  others : ∀ place, place ≠ target → SameShape (d.tree.at? place) (d'.tree.at? place)

variable {d d' : Disk} {target place : List Name} {old new : ByteArray}

theorem at?_below_file {t : FileTree} {content : ByteArray} {more : List Name}
    (hat : t.at? place = some (file content)) (hmore : more ≠ []) : t.at? (place ++ more) = none := by
  obtain ⟨name, rest, rfl⟩ := List.exists_cons_of_ne_nil hmore
  rw [at?_append, hat]
  rfl

/-- What is put in the place of a file stands there. -/
theorem at?_put_of_file {t : FileTree} (hat : t.at? place = some (file old)) (u : FileTree) :
    (t.put place u).at? place = some u := by
  rcases List.eq_nil_or_concat place with rfl | ⟨init, last, rfl⟩
  · cases t <;> exact at?_nil _
  · rw [List.concat_eq_append] at hat ⊢
    obtain ⟨children, hdir⟩ := dir_of_above (by rw [hat]; rfl) (List.cons_ne_nil last [])
    exact at?_put_self hdir last _

/-- Putting a file with another content in the place of a file is such an edit. -/
theorem edited_put (hat : d.tree.at? target = some (file old)) (new : ByteArray) :
    Edited d (d.put target (file new)) target old new where
  here := rfl
  old := hat
  new := at?_put_of_file hat _
  others place hplace := by
    by_cases hbelow : target <+: place
    · obtain ⟨more, rfl⟩ := hbelow
      have hmore : more ≠ [] := by
        rintro rfl
        exact hplace (List.append_nil target)
      have hnew : (d.put target (file new)).tree.at? target = some (file new) :=
        at?_put_of_file hat _
      exact .inl ((at?_below_file hat hmore).trans (at?_below_file hnew hmore).symm)
    · exact sameShape_at?_put hbelow

namespace Edited

theorem symm (h : Edited d d' target old new) : Edited d' d target new old where
  here := h.here.symm
  old := h.new
  new := h.old
  others place hplace := (h.others place hplace).symm

/-! ### What stands at a place -/

/-- Only a file can have another content. -/
theorem shape (h : Edited d d' target old new)
    (hfile : ∀ content, d.tree.at? place ≠ some (file content)) :
    SameShape (d.tree.at? place) (d'.tree.at? place) := by
  refine h.others place ?_
  rintro rfl
  exact hfile old h.old

theorem at?_none (h : Edited d d' target old new) (hat : d.tree.at? place = none) :
    d'.tree.at? place = none :=
  ((h.shape (by simp [hat])).eq_of_not_dir (by simp [hat])).trans hat

theorem at?_link (h : Edited d d' target old new) {p : Path} (hat : d.tree.at? place = some (link p)) :
    d'.tree.at? place = some (link p) :=
  ((h.shape (by simp [hat])).eq_of_not_dir (by simp [hat])).trans hat

theorem at?_dir (h : Edited d d' target old new) {children : List (Name × FileTree)}
    (hat : d.tree.at? place = some (dir children)) :
    ∃ children', d'.tree.at? place = some (dir children') := by
  have hfile : ∀ content, d.tree.at? place ≠ some (file content) := by simp [hat]
  exact DirAt.of_sameShape ⟨children, hat⟩ (h.shape hfile)

theorem at?_file (h : Edited d d' target old new) {content : ByteArray}
    (hat : d.tree.at? place = some (file content)) (hplace : place ≠ target) :
    d'.tree.at? place = some (file content) :=
  ((h.others place hplace).eq_of_not_dir (by simp [hat])).trans hat

theorem at?_isFile (h : Edited d d' target old new) {content : ByteArray}
    (hat : d.tree.at? place = some (file content)) :
    ∃ content', d'.tree.at? place = some (file content') := by
  by_cases hplace : place = target
  · exact hplace ▸ ⟨new, h.new⟩
  · exact ⟨content, h.at?_file hat hplace⟩

theorem solid (h : Edited d d' target old new) (hat : Solid d.tree place) :
    Solid d'.tree place := by
  by_cases hplace : place = target
  · exact hplace ▸ ⟨_, h.new, fun p => by simp⟩
  · exact hat.of_sameShape (h.others place hplace)

/-- Something stands at the same places of both disks. -/
theorem at?_some (h : Edited d d' target old new) {t : FileTree} (hat : d.tree.at? place = some t) :
    ∃ t', d'.tree.at? place = some t' := by
  cases t with
  | file content => exact (h.at?_isFile hat).imp' _ fun _ => id
  | link p => exact ⟨_, h.at?_link hat⟩
  | dir children => exact (h.at?_dir hat).imp' _ fun _ => id

/-- What stands at a place is of the same kind on both disks. -/
theorem kind_eq (h : Edited d d' target old new) (place : List Name) :
    (d'.tree.at? place).map FileTree.isDir = (d.tree.at? place).map FileTree.isDir := by
  by_cases hplace : place = target
  · rw [hplace, h.old, h.new]
    rfl
  · exact (h.others place hplace).kind_eq

variable {children children' : List (Name × FileTree)} {name : Name}

theorem child?_none (h : Edited d d' target old new) (hat : d.tree.at? place = some (dir children))
    (hat' : d'.tree.at? place = some (dir children')) (hchild : child? children name = none) :
    child? children' name = none :=
  (at?_concat hat' name).symm.trans (h.at?_none ((at?_concat hat name).trans hchild))

theorem child?_link (h : Edited d d' target old new) (hat : d.tree.at? place = some (dir children))
    (hat' : d'.tree.at? place = some (dir children')) {p : Path}
    (hchild : child? children name = some (link p)) : child? children' name = some (link p) :=
  (at?_concat hat' name).symm.trans (h.at?_link ((at?_concat hat name).trans hchild))

end Edited

/-! ### Following -/

/-- The place of a spot with what stands there in a tree. -/
def spotIn (tree : FileTree) (s : Spot) : Spot := ⟨s.place, tree.at? s.place⟩

/-- Parts are followed to the same place on both disks. -/
theorem follow_edited (h : Edited d d' target old new) (m : Manner) (links : Nat)
    (place : List Name) (todo : List Part) : follow d'.tree m links place todo =
      (follow d.tree m links place todo).map (spotIn d'.tree) := by
  induction links, place, todo using follow.induct d.tree m with
  | case1 links place => rw [follow, follow]; rfl
  | case2 links place part rest hat => rw [follow, follow, hat, h.at?_none hat]; rfl
  | case3 links place part rest content hat =>
    obtain ⟨content', hat'⟩ := h.at?_isFile hat
    rw [follow, follow, hat, hat']
    rfl
  | case4 links place part rest p hat => rw [follow, follow, hat, h.at?_link hat]; rfl
  | case5 links place part rest children hat e hstep =>
    obtain ⟨children', hat'⟩ := h.at?_dir hat
    rw [follow, follow, hat, hat']
    simp [hstep, Except.map]
  | case6 links place part rest children hat hstep ih =>
    obtain ⟨children', hat'⟩ := h.at?_dir hat
    rw [follow, follow, hat, hat']
    simpa [hstep] using ih
  | case7 links place part rest children hat hstep ih =>
    obtain ⟨children', hat'⟩ := h.at?_dir hat
    rw [follow, follow, hat, hat']
    simpa [hstep] using ih
  | case8 links place part rest children hat name hstep hlong =>
    obtain ⟨children', hat'⟩ := h.at?_dir hat
    rw [follow, follow, hat, hat']
    simp [hstep, hlong, Except.map]
  | case9 links place part rest children hat name hstep hshort hchild hrest =>
    obtain ⟨children', hat'⟩ := h.at?_dir hat
    have hchild' := h.child?_none hat hat' hchild
    have hnone := (at?_concat hat' name).trans hchild'
    rw [follow, follow, hat, hat']
    simp [hstep, hshort, hchild, hchild', hrest, Except.map, spotIn, hnone]
  | case10 links place part rest children hat name hstep hshort hchild hrest =>
    obtain ⟨children', hat'⟩ := h.at?_dir hat
    have hchild' := h.child?_none hat hat' hchild
    rw [follow, follow, hat, hat']
    simp [hstep, hshort, hchild, hchild', hrest, Except.map]
  | case11 links place part rest children hat name hstep hshort p hchild hlast =>
    obtain ⟨children', hat'⟩ := h.at?_dir hat
    have hchild' := h.child?_link hat hat' hchild
    have hlink := (at?_concat hat' name).trans hchild'
    rw [follow, follow, hat, hat']
    simp [hstep, hshort, hchild, hchild', hlast, Except.map, spotIn, hlink]
  | case12 place part rest children hat name hstep hshort p hchild hlast =>
    obtain ⟨children', hat'⟩ := h.at?_dir hat
    have hchild' := h.child?_link hat hat' hchild
    have hthrough : ¬ (rest = [] ∧ m.through = false) := by simpa using hlast
    rw [follow, follow, hat, hat']
    simp [hstep, hshort, hchild, hchild', hthrough, Except.map]
  | case13 place part rest children hat name hstep hshort p hchild hlast links ih =>
    obtain ⟨children', hat'⟩ := h.at?_dir hat
    have hchild' := h.child?_link hat hat' hchild
    have hthrough : ¬ (rest = [] ∧ m.through = false) := by simpa using hlast
    rw [follow, follow, hat, hat']
    simpa [hstep, hshort, hchild, hchild', hthrough] using ih
  | case14 links place part rest children hat name hstep hshort u hlink hchild ih =>
    obtain rfl : part = name.part := of_stepOf hstep
    have hdir : DirAt d.tree place := ⟨children, hat⟩
    have hallows : m.allows (place ++ [name]) = true := by simpa using hshort
    have hu : Solid d.tree (place ++ [name]) := ⟨u, (at?_concat hat name).trans hchild, hlink⟩
    rw [follow_of_solid hdir hallows hu, follow_of_solid (h.at?_dir hat) hallows (h.solid hu), ih]

/-- A path is followed to the same place on both disks. -/
theorem resolve_edited (h : Edited d d' target old new) (p : Path) (m : Manner) :
    d'.resolve p m = (d.resolve p m).map (spotIn d'.tree) := by
  rw [resolve, resolve, h.here]
  split_ifs
  · rfl
  · rfl
  · rfl
  · exact follow_edited h m linkLimit (origin d.here p) p.parts

/-- A link that a path leads to is there on both disks. -/
theorem resolve_link_edited (h : Edited d d' target old new) {p q : Path} {m : Manner}
    (hresolve : d.resolve p m = .ok ⟨place, some (link q)⟩) :
    d'.resolve p m = .ok ⟨place, some (link q)⟩ := by
  -- on the first disk alone: what is found is what stands there
  have hself : Edited d d target old old := ⟨rfl, h.old, h.old, fun _ _ => .inl rfl⟩
  have hspot := resolve_edited hself p m
  rw [hresolve] at hspot
  have hat : d.tree.at? place = some (link q) := by
    simpa [Except.map, spotIn, eq_comm] using hspot
  rw [resolve_edited h, hresolve]
  simp [Except.map, spotIn, h.at?_link hat]

/-! ### Finding and reading -/

/-- A path leads to a place. -/
def LeadsTo (d : Disk) (p : Path) (place : List Name) : Prop := ∃ t, d.find p = .ok (place, t)

/-- A path that leads to something on one disk leads to what stands at the same place of the other. -/
theorem find_edited (h : Edited d d' target old new) {p : Path} {t : FileTree}
    (hfind : d.find p = .ok (place, t)) :
    ∃ t', d'.find p = .ok (place, t') ∧ d'.tree.at? place = some t' := by
  obtain ⟨t', hat'⟩ := h.at?_some (at?_of_find hfind)
  refine ⟨t', spotted_eq_ok_iff.mpr ?_, hat'⟩
  rw [resolve_edited h, spotted_eq_ok_iff.mp hfind]
  simp [Except.map, spotIn, hat']

/-- What a path leads to is the same on both disks or a directory on both, unless it is the file that
makes the difference. -/
theorem find_edited_of_ne (h : Edited d d' target old new) {p : Path} {t : FileTree}
    (hfind : d.find p = .ok (place, t)) (hplace : place ≠ target) :
    ∃ t', d'.find p = .ok (place, t') ∧ SameShape (some t) (some t') := by
  obtain ⟨t', hfind', hat'⟩ := find_edited h hfind
  have hshape := h.others place hplace
  rw [at?_of_find hfind, hat'] at hshape
  exact ⟨t', hfind', hshape⟩

/-- A path that leads to nothing on one disk leads to nothing on the other, for the same reason. -/
theorem spotted_error_edited (h : Edited d d' target old new) {p : Path} {m : Manner}
    (hthrough : m.through = true) {e : Error} (hfind : spotted (d.resolve p m) = .error e) :
    spotted (d'.resolve p m) = .error e := by
  rw [resolve_edited h]
  cases hresolve : d.resolve p m with
  | error e' =>
    rw [hresolve] at hfind
    exact hfind
  | ok s =>
    obtain ⟨place, _ | t⟩ := s
    · have hnone := found?_of_follow hthrough (follow_of_resolve hresolve)
      rw [hresolve] at hfind
      simpa [Except.map, spotIn, h.at?_none hnone.symm, spotted] using hfind
    · rw [hresolve] at hfind
      cases hfind

theorem find_error_edited (h : Edited d d' target old new) {p : Path} {e : Error}
    (hfind : d.find p = .error e) : d'.find p = .error e :=
  spotted_error_edited h rfl hfind

/-- The canonical paths are the same. -/
theorem canonical_edited (h : Edited d d' target old new) (p : Path) :
    d'.canonical p = d.canonical p := by
  rw [canonical, canonical]
  cases hspotted : spotted (d.resolve p .spelledOut) with
  | error e => rw [spotted_error_edited h rfl hspotted]
  | ok found =>
    obtain ⟨place, t⟩ := found
    have hresolve := spotted_eq_ok_iff.mp hspotted
    have hat : some t = d.tree.at? place := found?_of_follow rfl (follow_of_resolve hresolve)
    obtain ⟨t', hat'⟩ := h.at?_some hat.symm
    rw [resolve_edited h, hresolve]
    simp [Except.map, spotIn, hat', spotted]

theorem pathExists_edited (h : Edited d d' target old new) (p : Path) :
    d'.pathExists p = d.pathExists p := by
  rw [pathExists, pathExists]
  cases hfind : d.find p with
  | error e => rw [find_error_edited h hfind]
  | ok found =>
    obtain ⟨t', hfind', -⟩ := find_edited h hfind
    rw [hfind']

/-- **A file that a path does not lead to makes no difference** to what is read from the path. -/
theorem readBytes_edited (h : Edited d d' target old new) {p : Path} (hp : ¬ LeadsTo d p target) :
    d'.readBytes p = d.readBytes p := by
  rw [readBytes, readBytes]
  cases hfind : d.find p with
  | error e => rw [find_error_edited h hfind]
  | ok found =>
    obtain ⟨place, t⟩ := found
    have hplace : place ≠ target := by
      rintro rfl
      exact hp ⟨t, hfind⟩
    obtain ⟨t', hfind', hshape⟩ := find_edited_of_ne h hfind hplace
    rw [hfind']
    rcases hshape with heq | ⟨children, children', hdir, hdir'⟩
    · cases heq
      rfl
    · cases hdir
      cases hdir'
      rfl

theorem read_edited (h : Edited d d' target old new) {p : Path} (hp : ¬ LeadsTo d p target) :
    d'.read p = d.read p := by
  rw [Disk.read, Disk.read, readBytes_edited h hp]

end Manifest.Proofs.Disks.Editing
