import Mathlib.Data.List.Induction
import Manifest.Proofs.Disks.Editing
import Manifest.Proofs.Disks.Making
import Manifest.Proofs.Disks.Ways

/-! # Paths below a directory

The path of some names below a directory has the parts of the directory's own path in front of the
names (`below_cons`). So it leads to what stands there in the tree, as long as it is short enough
(`find_below`), and where nothing stands it leads nowhere (`pathExists_below_of_none`). The farther
below, the longer a path is (`fits_of_below`). -/

namespace Manifest.Proofs.Disks.Below

open Manifest.FileTree Manifest.Disk Manifest.Path
open Manifest.Proofs.Disks.Editing Manifest.Proofs.Disks.Following Manifest.Proofs.Disks.Making
open Manifest.Proofs.Disks.Places Manifest.Proofs.Disks.Ways
open Manifest.Text (slash dot)

/-! ### Parts -/

/-- The parts of a path without an empty one at the end. -/
def openParts (p : Path) : List Part :=
  if p.parts.getLast? = some .empty then p.parts.dropLast else p.parts

theorem child_eq (p : Path) (part : Part) : p.child part = ⟨p.anchor, openParts p ++ [part]⟩ := by
  have hrelative : (⟨.bare, [part]⟩ : Path).isAbsolute = false := rfl
  rw [Path.child, Path.join]
  by_cases hempty : p = .empty
  · rw [if_pos (.inr hempty), hempty]
    rfl
  · rw [if_neg (by simp [hempty, hrelative])]
    rfl

theorem below_concat (p : Path) (names : List Name) (name : Name) :
    p.below (names ++ [name]) = (p.below names).child name := by
  rw [below, List.foldl_append]
  rfl

theorem openParts_child (p : Path) (name : Name) :
    openParts (p.child name) = openParts p ++ [name.part] := by
  rw [child_eq, openParts]
  simp [part_ne_empty]

/-- The path of some names below a directory has the parts of the directory in front of them. -/
theorem below_cons (p : Path) (name : Name) (rest : List Name) :
    p.below (name :: rest) = ⟨p.anchor, openParts p ++ (name :: rest).map Name.part⟩ := by
  induction rest generalizing p name with
  | nil => exact child_eq p name
  | cons next rest ih =>
    have hnext := ih (p.child name) next
    have hanchor : (p.child name).anchor = p.anchor := by rw [child_eq]
    rw [openParts_child, hanchor, List.append_assoc] at hnext
    exact hnext

theorem below_of_ne_nil (p : Path) {names : List Name} (hne : names ≠ []) :
    p.below names = ⟨p.anchor, openParts p ++ names.map Name.part⟩ := by
  obtain ⟨name, rest, rfl⟩ := List.exists_cons_of_ne_nil hne
  exact below_cons p name rest

theorem anchor_below (p : Path) (names : List Name) : (p.below names).anchor = p.anchor := by
  cases names with
  | nil => rfl
  | cons name rest => rw [below_cons]

theorem parts_eq_openParts (p : Path) :
    ∃ idle, p.parts = openParts p ++ idle ∧ ∀ part ∈ idle, part.isIdle = true := by
  rw [openParts]
  split_ifs with hlast
  · refine ⟨[.empty], (List.dropLast_append_getLast? _ hlast).symm, ?_⟩
    simp [Part.isIdle]
  · exact ⟨[], (List.append_nil _).symm, by simp⟩

theorem ofNames_eq_below (names : List Name) : ofNames names = (ofNames []).below names := by
  cases names with
  | nil => rfl
  | cons name rest => rw [below_cons]; rfl

/-! ### Bytes -/

theorem joinSlash_concat (parts : List Part) (part : Part) : joinSlash (parts ++ [part]) =
    if parts = [] then part.bytes else joinSlash parts ++ slash :: part.bytes := by
  induction parts with
  | nil => rfl
  | cons first rest ih =>
    rw [List.cons_append, joinSlash_cons _ (by simp), ih, if_neg (List.cons_ne_nil _ _)]
    split_ifs with hrest
    · rw [hrest]
      rfl
    · rw [joinSlash_cons _ hrest, List.append_assoc]
      rfl

/-- The bytes in front of the parts of a path. -/
def startOf : Anchor → List UInt8
  | .root => [slash]
  | .here => [dot, slash]
  | .bare => []

theorem bytes_of_ne_nil (a : Anchor) {parts : List Part} (h : parts ≠ []) :
    (⟨a, parts⟩ : Path).bytes = startOf a ++ joinSlash parts := by
  cases a <;> simp [Path.bytes, startOf, h]

/-- Behind the bytes of a directory's path come those of the part, with a slash between them or
none. -/
theorem bytes_child (p : Path) (part : Part) : ∃ between, (∀ b ∈ between, b = slash) ∧
    (p.child part).bytes = p.bytes ++ between ++ part.bytes := by
  obtain ⟨a, parts⟩ := p
  rw [child_eq, bytes_of_ne_nil a (by simp), joinSlash_concat]
  rcases List.eq_nil_or_concat parts with rfl | ⟨front, last, rfl⟩
  · refine ⟨if a = .here then [slash] else [], by split_ifs <;> simp, ?_⟩
    cases a <;> rfl
  · rw [List.concat_eq_append, bytes_of_ne_nil a (by simp), joinSlash_concat]
    by_cases hlast : last = .empty
    · have hopen : openParts ⟨a, front ++ [last]⟩ = front := by simp [openParts, hlast]
      refine ⟨[], by simp, ?_⟩
      rw [hopen, hlast]
      split_ifs <;> simp [Part.empty]
    · have hopen : openParts ⟨a, front ++ [last]⟩ = front ++ [last] := by simp [openParts, hlast]
      refine ⟨[slash], by simp, ?_⟩
      rw [hopen, if_neg (by simp), joinSlash_concat]
      simp

theorem bytes_below_le (p : Path) (names more : List Name) :
    (p.below names).bytes.length ≤ (p.below (names ++ more)).bytes.length := by
  induction more using List.reverseRecOn with
  | nil => simp
  | append_singleton init last ih =>
    obtain ⟨between, -, hbytes⟩ := bytes_child (p.below (names ++ init)) last.part
    rw [← List.append_assoc, below_concat, hbytes]
    simp only [List.length_append]
    omega

/-- Where the path of what stands farther below is short enough, that of the directory is. -/
theorem fits_of_below {p : Path} {names more : List Name}
    (h : fits (p.below (names ++ more)) = true) : fits (p.below names) = true :=
  decide_eq_true (Nat.lt_of_le_of_lt (bytes_below_le p names more) (of_decide_eq_true h))

theorem nul_notMem_below {p : Path} (h : 0 ∉ p.bytes) (names : List Name) :
    0 ∉ (p.below names).bytes := by
  induction names using List.reverseRecOn with
  | nil => exact h
  | append_singleton init last ih =>
    obtain ⟨between, hslash, hbytes⟩ := bytes_child (p.below init) last.part
    rw [below_concat, hbytes]
    simp only [List.mem_append, not_or]
    refine ⟨⟨ih, fun hmem => ?_⟩, last.nul_notMem⟩
    exact absurd (hslash 0 hmem) (by decide)

/-! ### Where paths lead -/

section

variable {d : Disk} {root : Path} {place names : List Name}

/-- The parts of a root lead to its place, whose contents the tree has below it. -/
theorem leads_root (hroot : LeadsTo d root place) (hdir : DirAt d.tree place) :
    ∃ t, Leads d.tree linkLimit (origin d.here root) root.parts ⟨place, some t⟩ := by
  obtain ⟨t, hfind⟩ := hroot
  have hfollow := follow_of_find hfind
  refine ⟨t, leads_of_follow rfl ?_ hfollow⟩
  by_cases hparts : root.parts = []
  · rw [hparts, follow] at hfollow
    have hplace : origin d.here root = place := congrArg Spot.place (Except.ok.inj hfollow)
    exact hplace ▸ hdir.solid
  · exact (dirAt_of_follow hparts hfollow).solid

theorem nul_notMem_of_leadsTo (hroot : LeadsTo d root place) : 0 ∉ root.bytes := by
  obtain ⟨t, hfind⟩ := hroot
  intro hnul
  rw [find, resolve, if_pos (by simpa using hnul)] at hfind
  cases hfind

theorem leadsTo_top (hdir : DirAt d.tree []) : LeadsTo d (ofNames []) [] := by
  obtain ⟨children, hat⟩ := hdir
  have htop : DirAt d.tree [] := ⟨children, hat⟩
  refine ⟨dir children, find_of_leads (by decide) (by decide) (by decide) ?_⟩
  exact .idle htop (by decide) (hat ▸ .done htop.solid)

/-- Where the names below a root lead in the tree, its path on from there leads. -/
theorem leads_below (hroot : LeadsTo d root place) (hdir : DirAt d.tree place) {name : Name}
    {rest : List Name} {s : Spot}
    (h : ∀ links, Leads d.tree links place ((name :: rest).map Name.part) s) :
    Leads d.tree linkLimit (origin d.here (root.below (name :: rest)))
      (root.below (name :: rest)).parts s := by
  obtain ⟨t, hleads⟩ := leads_root hroot hdir
  obtain ⟨idle, hparts, hidle⟩ := parts_eq_openParts root
  have horigin : origin d.here (root.below (name :: rest)) = origin d.here root := by
    rw [origin, origin, Path.isAbsolute, Path.isAbsolute, anchor_below]
  rw [horigin, below_cons]
  exact leads_on hleads hparts hidle (by simp) h

theorem below_ne_empty (p : Path) (name : Name) (rest : List Name) :
    p.below (name :: rest) ≠ .empty := by
  rw [below_cons]
  intro hpath
  have hmem : name.part ∈ Path.empty.parts := by
    rw [← hpath]
    simp
  exact part_ne_empty name (List.mem_singleton.mp hmem)

/-- **The path of what stands below a root leads there**, as long as it is short enough. -/
theorem find_below {t : FileTree} (hroot : LeadsTo d root place)
    (hat : d.tree.at? (place ++ names) = some t) (hlink : ∀ p, t ≠ link p)
    (hshort : fits (root.below names) = true) :
    d.find (root.below names) = .ok (place ++ names, t) := by
  cases names with
  | nil =>
    obtain ⟨u, hfind⟩ := hroot
    rw [List.append_nil, at?_of_find hfind, Option.some.injEq] at hat
    rw [List.append_nil, ← hat]
    exact hfind
  | cons name rest =>
    have hdir : DirAt d.tree place := dir_of_above (by rw [hat]; rfl) (List.cons_ne_nil name rest)
    have hnul : (root.below (name :: rest)).bytes.contains 0 = false := by
      simpa using nul_notMem_below (nul_notMem_of_leadsTo hroot) (name :: rest)
    refine find_of_leads hnul (below_ne_empty root name rest) hshort ?_
    exact leads_below hroot hdir fun links => hat ▸ leads_down ⟨t, hat, hlink⟩ links

/-- No way goes over a name that nothing has. -/
theorem found?_of_leads_missing {tree : FileTree} {links : Nat} {name : Name} {rest : List Part}
    {s : Spot} (hnone : tree.at? (place ++ [name]) = none)
    (h : Leads tree links place (name.part :: rest) s) : s.found? = none := by
  generalize htodo : name.part :: rest = todo at h
  cases h with
  | done h => cases htodo
  | idle hdir hidle next =>
    obtain ⟨rfl, -⟩ := List.cons.inj htodo
    exact absurd hidle (by simp)
  | above hdir next => exact absurd (List.cons.inj htodo).1 name.part_ne_up
  | missing name' hdir h => rfl
  | through name' hdir h next =>
    obtain rfl := Name.ext_part (List.cons.inj htodo).1
    cases hnone.symm.trans h
  | into name' hdir h next =>
    obtain rfl := Name.ext_part (List.cons.inj htodo).1
    obtain ⟨u, hat, -⟩ := h
    cases hnone.symm.trans hat

/-- **A path over a name that nothing has in a directory below a root leads nowhere.** -/
theorem pathExists_below_of_none {name : Name} (hroot : LeadsTo d root place)
    (hdir : DirAt d.tree (place ++ names)) (hnone : d.tree.at? (place ++ names ++ [name]) = none)
    (more : List Name) : d.pathExists (root.below (names ++ name :: more)) = false := by
  rw [pathExists]
  split
  next found hfind =>
    exfalso
    obtain ⟨target, t⟩ := found
    obtain ⟨t', hleads⟩ := leads_root hroot hdir.below
    obtain ⟨idle, hparts, hidle⟩ := parts_eq_openParts root
    have hfront := leads_on hleads hparts hidle (by simp) fun links => leads_down hdir.solid links
    have hbelow : root.below (names ++ name :: more) =
        ⟨root.anchor, (openParts root ++ names.map Name.part) ++ (name :: more).map Name.part⟩ := by
      rw [below_of_ne_nil root (by simp), List.map_append, List.append_assoc]
    have hfollow := follow_of_find hfind
    rw [hbelow] at hfollow
    have hstart : Solid d.tree (origin d.here root) := hleads.solid
    obtain ⟨links, mid, hmid, hback⟩ := leads_split (leads_of_follow rfl hstart hfollow) (by simp)
    obtain rfl := leads_unique hfront hmid
    cases found?_of_leads_missing hnone hback
  next => rfl

theorem pathExists_child_below {name : Name} (hroot : LeadsTo d root place)
    (hdir : DirAt d.tree (place ++ names)) (hnone : d.tree.at? (place ++ names ++ [name]) = none) :
    d.pathExists ((root.below names).child name) = false := by
  rw [← below_concat]
  exact pathExists_below_of_none hroot hdir hnone []

end

end Manifest.Proofs.Disks.Below
