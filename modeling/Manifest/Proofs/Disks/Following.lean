import Manifest.Disk
import Manifest.Proofs.Disks.Places

/-! # Following paths

How a path is followed to its end, as a relation with one rule for each kind of part
(`leads_of_follow`, `follow_of_leads`). What it ends at is what stands there, and never a link. -/

namespace Manifest.Proofs.Disks.Following

open Manifest.FileTree Manifest.Disk Manifest.Proofs.Disks.Places

/-- There is a directory at a place. -/
def DirAt (tree : FileTree) (place : List Name) : Prop :=
  ∃ children, tree.at? place = some (dir children)

/-- There is a file or a directory at a place. -/
def Solid (tree : FileTree) (place : List Name) : Prop :=
  ∃ u, tree.at? place = some u ∧ ∀ p, u ≠ link p

/-- From a place the parts lead to a spot, through no more than the given number of links. -/
inductive Leads (tree : FileTree) : Nat → List Name → List Part → Spot → Prop
  | done {links : Nat} {place : List Name} (h : Solid tree place) :
      Leads tree links place [] ⟨place, tree.at? place⟩
  | idle {links : Nat} {place : List Name} {part : Part} {rest : List Part} {s : Spot}
      (hdir : DirAt tree place) (hidle : part.isIdle = true)
      (next : Leads tree links place rest s) : Leads tree links place (part :: rest) s
  | above {links : Nat} {place : List Name} {rest : List Part} {s : Spot}
      (hdir : DirAt tree place) (next : Leads tree links place.dropLast rest s) :
      Leads tree links place (.up :: rest) s
  | missing {links : Nat} {place : List Name} (name : Name)
      (hdir : DirAt tree place) (h : tree.at? (place ++ [name]) = none) :
      Leads tree links place [name.part] ⟨place ++ [name], none⟩
  | through {links : Nat} {place : List Name} (name : Name) {rest : List Part} {s : Spot}
      {p : Path} (hdir : DirAt tree place) (h : tree.at? (place ++ [name]) = some (link p))
      (next : Leads tree links (origin place p) (p.parts ++ rest) s) :
      Leads tree (links + 1) place (name.part :: rest) s
  | into {links : Nat} {place : List Name} (name : Name) {rest : List Part} {s : Spot}
      (hdir : DirAt tree place) (h : Solid tree (place ++ [name]))
      (next : Leads tree links (place ++ [name]) rest s) :
      Leads tree links place (name.part :: rest) s

variable {tree : FileTree} {links : Nat} {place : List Name} {todo : List Part} {s : Spot}

/-! ### Directories -/

theorem DirAt.solid (h : DirAt tree place) : Solid tree place := by
  obtain ⟨children, h⟩ := h
  exact ⟨dir children, h, fun p => by simp⟩

theorem DirAt.below {p q : List Name} (h : DirAt tree (p ++ q)) : DirAt tree p := by
  by_cases hq : q = []
  · rwa [hq, List.append_nil] at h
  · obtain ⟨children, h⟩ := h
    exact dir_of_above (by rw [h]; rfl) hq

theorem DirAt.dropLast (h : DirAt tree place) : DirAt tree place.dropLast := by
  rcases List.eq_nil_or_concat place with rfl | ⟨init, last, rfl⟩
  · exact h
  · rw [List.concat_eq_append] at h ⊢
    rw [List.dropLast_concat]
    exact h.below

/-- A link in a directory is followed from that directory or from the root, which are both
directories. -/
theorem DirAt.origin (h : DirAt tree place) (p : Path) : DirAt tree (origin place p) := by
  rw [Disk.origin]
  split_ifs
  · exact h.below (p := [])
  · exact h

section

variable {tree' : FileTree}

theorem DirAt.of_sameShape (hdir : DirAt tree place)
    (h : SameShape (tree.at? place) (tree'.at? place)) : DirAt tree' place := by
  obtain ⟨children, hat⟩ := hdir
  rcases h with heq | ⟨-, new, -, hnew⟩
  · exact ⟨children, heq ▸ hat⟩
  · exact ⟨new, hnew⟩

theorem Solid.of_sameShape (hsolid : Solid tree place)
    (h : SameShape (tree.at? place) (tree'.at? place)) : Solid tree' place := by
  obtain ⟨u, hat, hlink⟩ := hsolid
  rcases h with heq | ⟨-, new, -, hnew⟩
  · exact ⟨u, heq ▸ hat, hlink⟩
  · exact DirAt.solid ⟨new, hnew⟩

end

/-! ### Parts -/

@[simp] theorem stepOf_part (name : Name) : stepOf name.part = .ok (.into name) := by
  rw [stepOf, if_neg (by simp), if_neg name.part_ne_up, if_neg (Nat.not_lt.mpr name.length_part_le),
    Name.ofPart?_part]

@[simp] theorem stepOf_up : stepOf .up = .ok .above := rfl

theorem stepOf_idle {part : Part} (h : part.isIdle = true) : stepOf part = .ok .stay := by
  rw [stepOf, if_pos h]

/-- What a part is, from where it leads. -/
theorem of_stepOf {part : Part} {step : Step} (h : stepOf part = .ok step) :
    match step with
    | .stay => part.isIdle = true
    | .above => part = .up
    | .into name => part = name.part := by
  unfold stepOf at h
  split_ifs at h with hidle hup
  · cases h
    exact hidle
  · cases h
    exact hup
  · split at h
    next name hname =>
      cases h
      exact (Name.part_of_ofPart? hname).symm
    next => cases h

/-! ### The relation and the function -/

/-- Where a path leads in any manner that follows it to its end, it leads by the rules. -/
theorem leads_of_follow {m : Manner} (hthrough : m.through = true) (hplace : Solid tree place)
    (h : follow tree m links place todo = .ok s) : Leads tree links place todo s := by
  induction links, place, todo using follow.induct tree m with
  | case1 links place =>
    rw [follow] at h
    cases h
    exact .done hplace
  | case2 links place part rest hat => rw [follow, hat] at h; cases h
  | case3 links place part rest content hat => rw [follow, hat] at h; cases h
  | case4 links place part rest target hat => rw [follow, hat] at h; cases h
  | case5 links place part rest children hat e hstep => rw [follow, hat] at h; simp [hstep] at h
  | case6 links place part rest children hat hstep ih =>
    rw [follow, hat] at h
    exact .idle ⟨children, hat⟩ (of_stepOf hstep) (ih hplace (by simpa [hstep] using h))
  | case7 links place part rest children hat hstep ih =>
    rw [follow, hat] at h
    obtain rfl : part = .up := of_stepOf hstep
    have hdir : DirAt tree place := ⟨children, hat⟩
    exact .above hdir (ih hdir.dropLast.solid (by simpa using h))
  | case8 links place part rest children hat name hstep hlong =>
    rw [follow, hat] at h
    simp [hstep, hlong] at h
  | case9 links place part rest children hat name hstep hshort hchild hrest =>
    rw [follow, hat] at h
    obtain rfl : part = name.part := of_stepOf hstep
    obtain rfl : rest = [] := List.isEmpty_iff.mp hrest
    obtain rfl : ⟨place ++ [name], none⟩ = s := by simpa [hshort, hchild] using h
    exact .missing name ⟨children, hat⟩ (by rw [at?_concat hat, hchild])
  | case10 links place part rest children hat name hstep hshort hchild hrest =>
    rw [follow, hat] at h
    simp [hstep, hshort, hchild, hrest] at h
  | case11 links place part rest children hat name hstep hshort target hchild hlast =>
    rw [hthrough] at hlast
    cases hlast.2
  | case12 place part rest children hat name hstep hshort target hchild hlast =>
    rw [follow, hat] at h
    simp [hstep, hshort, hchild, hthrough] at h
  | case13 place part rest children hat name hstep hshort target hchild hlast links ih =>
    rw [follow, hat] at h
    obtain rfl : part = name.part := of_stepOf hstep
    have hdir : DirAt tree place := ⟨children, hat⟩
    exact .through name hdir (by rw [at?_concat hat, hchild])
      (ih (hdir.origin target).solid (by simpa [hshort, hchild, hthrough] using h))
  | case14 links place part rest children hat name hstep hshort u hlink hchild ih =>
    rw [follow, hat] at h
    obtain rfl : part = name.part := of_stepOf hstep
    have hu : Solid tree (place ++ [name]) := ⟨u, by rw [at?_concat hat, hchild], hlink⟩
    refine .into name ⟨children, hat⟩ hu (ih hu ?_)
    cases u with
    | link p => exact absurd rfl (hlink p)
    | file content => simpa [hshort, hchild] using h
    | dir inner => simpa [hshort, hchild] using h

/-! ### Steps -/

section

variable {m : Manner} {part : Part} {rest : List Part} {name : Name}

theorem follow_of_idle (hdir : DirAt tree place) (hidle : part.isIdle = true) :
    follow tree m links place (part :: rest) = follow tree m links place rest := by
  obtain ⟨children, hat⟩ := hdir
  rw [follow, hat]
  simp [stepOf_idle hidle]

theorem follow_of_up (hdir : DirAt tree place) :
    follow tree m links place (.up :: rest) = follow tree m links place.dropLast rest := by
  obtain ⟨children, hat⟩ := hdir
  rw [follow, hat]
  simp

/-- What cannot be come to ends the way. -/
theorem follow_of_not_allows (hdir : DirAt tree place) (h : m.allows (place ++ [name]) = false) :
    follow tree m links place (name.part :: rest) = .error .nameTooLong := by
  obtain ⟨children, hat⟩ := hdir
  rw [follow, hat]
  simp [h]

theorem follow_of_missing (hdir : DirAt tree place) (hallows : m.allows (place ++ [name]) = true)
    (h : tree.at? (place ++ [name]) = none) :
    follow tree m links place [name.part] = .ok ⟨place ++ [name], none⟩ := by
  obtain ⟨children, hat⟩ := hdir
  rw [at?_concat hat] at h
  rw [follow, hat]
  simp [hallows, h]

theorem follow_of_link (hthrough : m.through = true) (hdir : DirAt tree place)
    (hallows : m.allows (place ++ [name]) = true) {p : Path}
    (h : tree.at? (place ++ [name]) = some (link p)) :
    follow tree m (links + 1) place (name.part :: rest) =
      follow tree m links (origin place p) (p.parts ++ rest) := by
  obtain ⟨children, hat⟩ := hdir
  rw [at?_concat hat] at h
  rw [follow, hat]
  simp [hallows, hthrough, h]

/-- A file or a directory is entered, if it can be come to. -/
theorem follow_of_solid (hdir : DirAt tree place) (hallows : m.allows (place ++ [name]) = true)
    (h : Solid tree (place ++ [name])) :
    follow tree m links place (name.part :: rest) = follow tree m links (place ++ [name]) rest := by
  obtain ⟨children, hat⟩ := hdir
  obtain ⟨u, hu, hlink⟩ := h
  rw [at?_concat hat] at hu
  rw [follow, hat]
  cases u with
  | link p => exact absurd rfl (hlink p)
  | file content => simp [hallows, hu]
  | dir inner => simp [hallows, hu]

end

theorem follow_of_leads (h : Leads tree links place todo s) :
    follow tree .whole links place todo = .ok s := by
  have hallows : ∀ place, Manner.whole.allows place = true := fun place => rfl
  induction h with
  | done h => rw [follow]
  | idle hdir hidle next ih => rw [follow_of_idle hdir hidle, ih]
  | above hdir next ih => rw [follow_of_up hdir, ih]
  | missing name hdir h => exact follow_of_missing hdir (hallows _) h
  | through name hdir h next ih => rw [follow_of_link rfl hdir (hallows _) h, ih]
  | into name hdir h next ih => rw [follow_of_solid hdir (hallows _) h, ih]

theorem Leads.solid (h : Leads tree links place todo s) : Solid tree place := by
  cases h with
  | done h => exact h
  | idle hdir hidle next => exact hdir.solid
  | above hdir next => exact hdir.solid
  | missing name hdir h => exact hdir.solid
  | through name hdir h next => exact hdir.solid
  | into name hdir h next => exact hdir.solid

/-- Parts lead to what stands at the spot they end in, a file or a directory, or to a free name in a
directory. -/
theorem Leads.spot (h : Leads tree links place todo s) :
    s.found? = tree.at? s.place ∧
      (Solid tree s.place ∨
        s.found? = none ∧ ∃ place name, s.place = place ++ [name] ∧ DirAt tree place) := by
  induction h with
  | done h => exact ⟨rfl, .inl h⟩
  | idle hdir hidle next ih => exact ih
  | above hdir next ih => exact ih
  | missing name hdir h => exact ⟨h.symm, .inr ⟨rfl, _, _, rfl, hdir⟩⟩
  | through name hdir h next ih => exact ih
  | into name hdir h next ih => exact ih

/-! ### Finding -/

theorem dirAt_of_follow {m : Manner} (hne : todo ≠ [])
    (h : follow tree m links place todo = .ok s) : DirAt tree place := by
  obtain ⟨part, rest, rfl⟩ := List.exists_cons_of_ne_nil hne
  rw [follow] at h
  split at h
  next => cases h
  next => cases h
  next => cases h
  next children hat => exact ⟨children, hat⟩

/-- What following finds is what stands at the place it gives. -/
theorem found?_of_follow {m : Manner} (hthrough : m.through = true)
    (h : follow tree m links place todo = .ok s) : s.found? = tree.at? s.place := by
  by_cases hne : todo = []
  · rw [hne, follow] at h
    cases h
    rfl
  · exact (leads_of_follow hthrough (dirAt_of_follow hne h).solid h).spot.1

theorem spotted_eq_ok_iff {r : Except Error Spot} {t : FileTree} :
    spotted r = .ok (place, t) ↔ r = .ok ⟨place, some t⟩ := by
  rcases r with e | ⟨place, _ | t⟩ <;> simp [spotted]

theorem follow_of_resolve {d : Disk} {p : Path} {m : Manner} (h : d.resolve p m = .ok s) :
    follow d.tree m linkLimit (origin d.here p) p.parts = .ok s := by
  rw [resolve] at h
  split_ifs at h
  exact h

theorem follow_of_find {d : Disk} {p : Path} {t : FileTree} (h : d.find p = .ok (place, t)) :
    follow d.tree .whole linkLimit (origin d.here p) p.parts = .ok ⟨place, some t⟩ :=
  follow_of_resolve (spotted_eq_ok_iff.mp h)

/-- A path that leads to something on one disk leads on another to where its parts lead there. -/
theorem find_of_follow {d d' : Disk} {p : Path} {found : List Name × FileTree} {t : FileTree}
    (h : d'.find p = .ok found)
    (hfollow : follow d.tree .whole linkLimit (origin d.here p) p.parts = .ok ⟨place, some t⟩) :
    d.find p = .ok (place, t) := by
  have hresolve := spotted_eq_ok_iff.mp h
  refine spotted_eq_ok_iff.mpr ?_
  rw [resolve] at hresolve ⊢
  split_ifs at hresolve ⊢
  exact hfollow

/-- What a path leads to stands at the place that is found for it. -/
theorem at?_of_find {d : Disk} {p : Path} {t : FileTree} (h : d.find p = .ok (place, t)) :
    d.tree.at? place = some t := (found?_of_follow rfl (follow_of_find h)).symm

theorem find_of_readBytes {d : Disk} {p : Path} {content : ByteArray}
    (h : d.readBytes p = .ok content) : ∃ place, d.find p = .ok (place, file content) := by
  rw [readBytes] at h
  split at h
  next place found hfind => exact ⟨place, by rw [hfind, Except.ok.inj h]⟩
  next => cases h
  next => cases h

theorem readBytes_of_read {d : Disk} {p : Path} {text : String} (h : d.read p = .ok text) :
    ∃ content, d.readBytes p = .ok content := by
  rw [Disk.read] at h
  cases hbytes : d.readBytes p with
  | error e => rw [hbytes] at h; cases h
  | ok content => exact ⟨content, rfl⟩

theorem resolve_of_follow {d : Disk} {p : Path} {m : Manner} (hnul : p.bytes.contains 0 = false)
    (hempty : p ≠ .empty) (hshort : fits p = true)
    (h : follow d.tree m linkLimit (origin d.here p) p.parts = .ok s) : d.resolve p m = .ok s := by
  rw [resolve, if_neg (by rw [hnul]; decide), if_neg hempty, if_neg (by simp [hshort])]
  exact h

theorem resolve_of_leads {d : Disk} {p : Path} (hnul : p.bytes.contains 0 = false)
    (hempty : p ≠ .empty) (hshort : fits p = true)
    (h : Leads d.tree linkLimit (origin d.here p) p.parts s) : d.resolve p .whole = .ok s :=
  resolve_of_follow hnul hempty hshort (follow_of_leads h)

theorem find_of_leads {d : Disk} {p : Path} {t : FileTree} (hnul : p.bytes.contains 0 = false)
    (hempty : p ≠ .empty) (hshort : fits p = true)
    (h : Leads d.tree linkLimit (origin d.here p) p.parts ⟨place, some t⟩) :
    d.find p = .ok (place, t) :=
  spotted_eq_ok_iff.mpr (resolve_of_leads hnul hempty hshort h)

/-- There is nothing at a path that leads to a free name. -/
theorem pathExists_of_leads {d : Disk} {p : Path}
    (h : Leads d.tree linkLimit (origin d.here p) p.parts ⟨place, none⟩) :
    d.pathExists p = false := by
  rw [pathExists]
  split
  next found t hfind =>
    have hfollow := follow_of_find hfind
    rw [follow_of_leads h] at hfollow
    cases hfollow
  next => rfl

end Manifest.Proofs.Disks.Following
