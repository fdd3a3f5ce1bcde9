import Manifest.Proofs.Disks.Below

/-! # Disks on which something is missing

Two disks that are the same but for what stands at one place and below it, which is missing on the
second (`Erased`). A path that leads to something on the second disk leads there on the first, too
(`find_of_erased`), and to the same or to a directory on both. The other way round a way may have gone
through what is missing. If that was a file, or a link to one, then at least no way to a directory has
(`find_dir_erased`). -/

namespace Manifest.Proofs.Disks.Erasing

open Manifest.FileTree Manifest.Disk Manifest.Proofs.Disks.Below Manifest.Proofs.Disks.Editing
open Manifest.Proofs.Disks.Following Manifest.Proofs.Disks.Places Manifest.Proofs.Disks.Ways

/-! ### Taking away -/

theorem child?_filter_ne (children : List (Name × FileTree)) (name other : Name) :
    child? (children.filter (·.1 ≠ name)) other =
      if other = name then none else child? children other := by
  induction children with
  | nil => simp [child?]
  | cons c rest ih =>
    obtain ⟨n, t⟩ := c
    by_cases hn : n = name <;> by_cases ho : n = other <;> grind [child?]

theorem erase_of_not_isDir {t : FileTree} (ht : t.isDir = false) (name : Name) (rest : List Name) :
    t.erase (name :: rest) = t := by
  cases t with
  | dir children => cases ht
  | file content => cases rest <;> rfl
  | link target => cases rest <;> rfl

theorem erase_single (children : List (Name × FileTree)) (name : Name) :
    (dir children).erase [name] = dir (children.filter (·.1 ≠ name)) := by
  rw [FileTree.erase]

theorem erase_of_some {children : List (Name × FileTree)} {name next : Name} {rest : List Name}
    {t : FileTree} (h : child? children name = some t) :
    (dir children).erase (name :: next :: rest) =
      dir (putChild children name (t.erase (next :: rest))) := by
  rw [FileTree.erase, h]
  simp

theorem erase_of_none {children : List (Name × FileTree)} {name next : Name} {rest : List Name}
    (h : child? children name = none) :
    (dir children).erase (name :: next :: rest) = dir children := by
  rw [FileTree.erase, h]
  simp

/-- Nothing is left at a place that is taken away. -/
theorem at?_erase_self {t : FileTree} {place : List Name} (hne : place ≠ []) :
    (t.erase place).at? place = none := by
  induction place generalizing t with
  | nil => exact absurd rfl hne
  | cons name rest ih =>
    cases t with
    | file content => rw [erase_of_not_isDir rfl, at?_cons_of_not_isDir rfl]
    | link target => rw [erase_of_not_isDir rfl, at?_cons_of_not_isDir rfl]
    | dir children =>
      cases rest with
      | nil => rw [erase_single, at?_dir_cons, child?_filter_ne, if_pos rfl, Option.bind_none]
      | cons next rest =>
        cases hchild : child? children name with
        | none => simp [erase_of_none hchild, hchild]
        | some u =>
          rw [erase_of_some hchild, at?_dir_cons, child?_putChild_self, Option.bind_some]
          exact ih (List.cons_ne_nil _ _)

/-- Elsewhere files and links stay as they are, and directories stay directories. -/
theorem sameShape_at?_erase {t : FileTree} {place q : List Name} (h : ¬ place <+: q) :
    SameShape (t.at? q) ((t.erase place).at? q) := by
  induction place generalizing t q with
  | nil => exact absurd List.nil_prefix h
  | cons name rest ih =>
    cases t with
    | file content => exact .inl (by rw [erase_of_not_isDir rfl])
    | link target => exact .inl (by rw [erase_of_not_isDir rfl])
    | dir children =>
      cases q with
      | nil =>
        cases rest with
        | nil => exact .inr ⟨_, _, at?_nil _, by rw [erase_single, at?_nil]⟩
        | cons next rest =>
          cases hchild : child? children name with
          | none => exact .inl (by rw [erase_of_none hchild])
          | some u => exact .inr ⟨_, _, at?_nil _, by rw [erase_of_some hchild, at?_nil]⟩
      | cons first q =>
        cases rest with
        | nil =>
          have hname : first ≠ name := by
            rintro rfl
            exact h (by simp)
          rw [erase_single, at?_dir_cons, at?_dir_cons, child?_filter_ne, if_neg hname]
          exact .inl rfl
        | cons next rest =>
          cases hchild : child? children name with
          | none => exact .inl (by rw [erase_of_none hchild])
          | some u =>
            rw [erase_of_some hchild, at?_dir_cons, at?_dir_cons]
            by_cases hname : first = name
            · subst hname
              rw [child?_putChild_self, hchild]
              exact ih fun hp => h (by simpa using hp)
            · rw [child?_putChild_of_ne hname]
              exact .inl rfl

/-! ### The two disks -/

/-- On the second disk nothing stands at a place and below it, and this is all that is different. -/
structure Erased (d d' : Disk) (target : List Name) : Prop where
  here : d'.here = d.here
  gone : ∀ place, target <+: place → d'.tree.at? place = none
  others : ∀ place, ¬ target <+: place → SameShape (d.tree.at? place) (d'.tree.at? place)

theorem erased_erase (d : Disk) {target : List Name} (hne : target ≠ []) :
    Erased d (d.erase target) target where
  here := rfl
  gone place hplace := by
    obtain ⟨more, rfl⟩ := hplace
    rw [at?_append]
    exact congrArg (Option.bind · _) (at?_erase_self hne)
  others place hplace := sameShape_at?_erase hplace

variable {d d' : Disk} {target place : List Name} {todo : List Part} {links : Nat} {s : Spot}
variable {p : Path}

namespace Erased

/-- What is on the second disk is on the first. -/
theorem shape (h : Erased d d' target) {t : FileTree} (hat : d'.tree.at? place = some t) :
    SameShape (d'.tree.at? place) (d.tree.at? place) := by
  refine (h.others place fun hbelow => ?_).symm
  cases (h.gone place hbelow).symm.trans hat

theorem dirAt (h : Erased d d' target) (hdir : DirAt d'.tree place) : DirAt d.tree place := by
  obtain ⟨children, hat⟩ := hdir
  exact DirAt.of_sameShape ⟨children, hat⟩ (h.shape hat)

theorem solid (h : Erased d d' target) (hsolid : Solid d'.tree place) : Solid d.tree place := by
  obtain ⟨u, hat, hlink⟩ := hsolid
  exact Solid.of_sameShape ⟨u, hat, hlink⟩ (h.shape hat)

theorem link (h : Erased d d' target) (hat : d'.tree.at? place = some (link p)) :
    d.tree.at? place = some (link p) :=
  ((h.shape hat).eq_of_not_dir (by simp [hat])).trans hat

end Erased

/-! ### From the second disk to the first -/

/-- Parts that lead to something on the second disk lead to the same place on the first. -/
theorem leads_of_erased (h : Erased d d' target) (hleads : Leads d'.tree links place todo s)
    (hfound : s.found? ≠ none) : Leads d.tree links place todo ⟨s.place, d.tree.at? s.place⟩ := by
  induction hleads with
  | done hsolid => exact .done (h.solid hsolid)
  | idle hdir hidle next ih => exact .idle (h.dirAt hdir) hidle (ih hfound)
  | above hdir next ih => exact .above (h.dirAt hdir) (ih hfound)
  | missing name hdir hat => exact absurd rfl hfound
  | through name hdir hat next ih => exact .through name (h.dirAt hdir) (h.link hat) (ih hfound)
  | into name hdir hat next ih => exact .into name (h.dirAt hdir) (h.solid hat) (ih hfound)

/-- **A path that leads to something on the second disk** leads to the same on the first, or to a
directory on both. -/
theorem find_of_erased (h : Erased d d' target) {t' : FileTree} (hfind : d'.find p = .ok (place, t')) :
    ∃ t, d.find p = .ok (place, t) ∧ SameShape (some t) (some t') := by
  have hat' := at?_of_find hfind
  have hshape := h.shape hat'
  obtain ⟨t, hat⟩ : ∃ t, d.tree.at? place = some t := by
    rcases hshape with heq | ⟨-, old, -, hold⟩
    · exact ⟨t', heq ▸ hat'⟩
    · exact ⟨_, hold⟩
  refine ⟨t, find_of_follow hfind ?_, hat ▸ hat' ▸ hshape.symm⟩
  have hfollow := follow_of_find hfind
  rw [h.here] at hfollow
  by_cases hparts : p.parts = []
  · rw [hparts, follow] at hfollow ⊢
    have hplace : origin d.here p = place := congrArg Spot.place (Except.ok.inj hfollow)
    rw [hplace, hat]
  · have hstart := (dirAt_of_follow hparts hfollow).solid
    have hleads := leads_of_erased h (leads_of_follow rfl hstart hfollow) (by simp)
    exact hat ▸ follow_of_leads hleads

/-! ### From the first disk to the second -/

section

variable {init : List Name} {more : List Part} {name : Name} {content : ByteArray} {links' : Nat}
variable {end' : List Name}

/-- Parts that lead to a file begin no way to a directory. -/
theorem not_dirAt_past_file (hfile : Leads d.tree links' place todo ⟨end', some (file content)⟩)
    (hleads : Leads d.tree links place (todo ++ more) s) : ¬ DirAt d.tree s.place := by
  have hend : ¬ DirAt d.tree end' := by
    rintro ⟨children, hat⟩
    cases hfile.spot.1.trans hat
  by_cases hmore : more = []
  · rw [hmore, List.append_nil] at hleads
    obtain rfl := leads_unique hfile hleads
    exact hend
  · obtain ⟨links, mid, hfront, hback⟩ := leads_split hleads hmore
    obtain rfl := leads_unique hfile hfront
    exact absurd (dirAt_of_leads hback hmore) hend

/-- A directory stays a directory, if what is missing is none. -/
theorem dirAt_erased (h : Erased d d' target) (htarget : ¬ DirAt d.tree target)
    (hdir : DirAt d.tree place) : DirAt d'.tree place := by
  have hout : ¬ target <+: place := by
    rintro ⟨more, rfl⟩
    exact htarget hdir.below
  exact hdir.of_sameShape (h.others place hout)

/-- What stands in a directory stays as it is or stays a directory, if it has another name. -/
theorem sameShape_erased (h : Erased d d' (init ++ [name])) (htarget : ¬ DirAt d.tree (init ++ [name]))
    {other : Name} (hdir : DirAt d.tree place) (hne : place ++ [other] ≠ init ++ [name]) :
    SameShape (d.tree.at? (place ++ [other])) (d'.tree.at? (place ++ [other])) := by
  refine h.others _ fun hbelow => ?_
  rcases List.prefix_concat_iff.mp hbelow with heq | ⟨more, rfl⟩
  · exact hne heq.symm
  · exact htarget hdir.below

theorem not_dirAt_of_leads
    (hfile : Leads d.tree links' init [name.part] ⟨end', some (file content)⟩) :
    ¬ DirAt d.tree (init ++ [name]) := fun htarget => by
  have hinto : Leads d.tree 0 init ([name.part] ++ [])
      ⟨init ++ [name], d.tree.at? (init ++ [name])⟩ :=
    .into name (dirAt_of_leads hfile (List.cons_ne_nil _ _)) htarget.solid (.done htarget.solid)
  exact not_dirAt_past_file hfile hinto htarget

/-- **The name of a file, or of a link to a file, is on no way to a directory**: the way is followed on
the second disk as on the first. -/
theorem follow_dir_erased (h : Erased d d' (init ++ [name]))
    (hfile : Leads d.tree links' init [name.part] ⟨end', some (file content)⟩) {m : Manner}
    (hthrough : m.through = true) (hleads : Leads d.tree links place todo s)
    (hdir : DirAt d.tree s.place) :
    follow d'.tree m links place todo = (follow d.tree m links place todo).map (spotIn d'.tree) := by
  have htarget := not_dirAt_of_leads hfile
  have hother : ∀ {links place} {other : Name} {rest s},
      Leads d.tree links place (other.part :: rest) s → DirAt d.tree s.place →
        place ++ [other] ≠ init ++ [name] := by
    intro links place other rest s hleads hdir heq
    obtain ⟨rfl, hname⟩ := List.append_inj' heq rfl
    obtain rfl := List.singleton_inj.mp hname
    exact not_dirAt_past_file hfile hleads hdir
  induction hleads with
  | done hsolid => rw [follow, follow]; rfl
  | idle hhere hidle next ih =>
    rw [follow_of_idle (dirAt_erased h htarget hhere) hidle, follow_of_idle hhere hidle, ih hdir]
  | above hhere next ih =>
    rw [follow_of_up (dirAt_erased h htarget hhere), follow_of_up hhere, ih hdir]
  | missing other hhere hat =>
    obtain ⟨children, hsome⟩ := hdir
    cases hat.symm.trans hsome
  | @through links place other rest s p hhere hat next ih =>
    have hhere' := dirAt_erased h htarget hhere
    have hshape := sameShape_erased h htarget hhere (hother (.through other hhere hat next) hdir)
    have hat' := (hshape.eq_of_not_dir (by simp [hat])).trans hat
    cases hallows : m.allows (place ++ [other]) with
    | false => rw [follow_of_not_allows hhere' hallows, follow_of_not_allows hhere hallows]; rfl
    | true =>
      rw [follow_of_link hthrough hhere' hallows hat', follow_of_link hthrough hhere hallows hat,
        ih hdir]
  | @into links place other rest s hhere hat next ih =>
    have hhere' := dirAt_erased h htarget hhere
    have hshape := sameShape_erased h htarget hhere (hother (.into other hhere hat next) hdir)
    have hat' := hat.of_sameShape hshape
    cases hallows : m.allows (place ++ [other]) with
    | false => rw [follow_of_not_allows hhere' hallows, follow_of_not_allows hhere hallows]; rfl
    | true =>
      rw [follow_of_solid hhere' hallows hat', follow_of_solid hhere hallows hat, ih hdir]

theorem resolve_dir_erased (h : Erased d d' (init ++ [name]))
    (hfile : Leads d.tree links' init [name.part] ⟨end', some (file content)⟩) {m : Manner}
    (hthrough : m.through = true) (hroot : LeadsTo d p place) (hdir : DirAt d.tree place) :
    d'.resolve p m = (d.resolve p m).map (spotIn d'.tree) := by
  obtain ⟨t, hleads⟩ := leads_root hroot hdir
  rw [resolve, resolve, h.here]
  split_ifs
  · rfl
  · rfl
  · rfl
  · exact follow_dir_erased h hfile hthrough hleads hdir

/-- A path that leads to a directory leads to one on the second disk. -/
theorem find_dir_erased (h : Erased d d' (init ++ [name]))
    (hfile : Leads d.tree links' init [name.part] ⟨end', some (file content)⟩)
    (hroot : LeadsTo d p place) (hdir : DirAt d.tree place) :
    ∃ children, d'.find p = .ok (place, dir children) := by
  obtain ⟨children, hat'⟩ := dirAt_erased h (not_dirAt_of_leads hfile) hdir
  have hresolve := resolve_dir_erased (m := .whole) h hfile rfl hroot hdir
  obtain ⟨t, hfind⟩ := hroot
  rw [spotted_eq_ok_iff.mp hfind] at hresolve
  refine ⟨children, spotted_eq_ok_iff.mpr (hresolve.trans ?_)⟩
  simp [Except.map, spotIn, hat']

/-- The canonical path of a directory is the same on both disks. -/
theorem canonical_erased (h : Erased d d' (init ++ [name]))
    (hfile : Leads d.tree links' init [name.part] ⟨end', some (file content)⟩)
    (hroot : LeadsTo d p place) (hdir : DirAt d.tree place) : d'.canonical p = d.canonical p := by
  obtain ⟨children', hat'⟩ := dirAt_erased h (not_dirAt_of_leads hfile) hdir
  obtain ⟨t, hleads⟩ := leads_root hroot hdir
  rw [canonical, canonical, resolve_dir_erased h hfile rfl hroot hdir]
  cases hresolve : d.resolve p .spelledOut with
  | error e => rfl
  | ok s =>
    have hleads' := leads_of_follow rfl hleads.solid (follow_of_resolve hresolve)
    obtain rfl := leads_unique hleads hleads'
    simp [Except.map, spotIn, hat', spotted]

end

end Manifest.Proofs.Disks.Erasing
