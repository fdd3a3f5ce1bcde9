import Manifest.Proofs.Disks.Following

/-! # Ways

Where parts lead to does not depend on how many links may still be followed (`Leads.unique`). Ways can
be put together (`leads_on`) and taken apart (`leads_split`), and names lead down to what stands below
them (`leads_down`). -/

namespace Manifest.Proofs.Disks.Ways

open Manifest.FileTree Manifest.Disk Manifest.Proofs.Disks.Following Manifest.Proofs.Disks.Places

variable {tree : FileTree} {links links' : Nat} {place : List Name}
variable {todo front idle more : List Part} {names : List Name}
variable {s s' : Spot} {content : ByteArray}

/-! ### One end -/

theorem leads_mono (h : Leads tree links place todo s) (hle : links ≤ links') :
    Leads tree links' place todo s := by
  induction h generalizing links' with
  | done h => exact .done h
  | idle hdir hidle next ih => exact .idle hdir hidle (ih hle)
  | above hdir next ih => exact .above hdir (ih hle)
  | missing name hdir h => exact .missing name hdir h
  | through name hdir h next ih =>
    cases links' with
    | zero => cases hle
    | succ links' => exact .through name hdir h (ih (Nat.le_of_succ_le_succ hle))
  | into name hdir h next ih => exact .into name hdir h (ih hle)

/-- Parts lead to one spot only. -/
theorem leads_unique (h : Leads tree links place todo s) (h' : Leads tree links' place todo s') :
    s = s' := by
  have hfollow := follow_of_leads (leads_mono h (Nat.le_max_left links links'))
  rw [follow_of_leads (leads_mono h' (Nat.le_max_right links links'))] at hfollow
  exact (Except.ok.inj hfollow).symm

/-- From a file no parts lead on. -/
theorem dirAt_of_leads (h : Leads tree links place todo s) (hne : todo ≠ []) : DirAt tree place :=
  dirAt_of_follow hne (follow_of_leads h)

/-! ### Longer ways -/

/-- A way over some parts goes over the first of them, and on from where they lead to. -/
theorem leads_split (h : Leads tree links place (front ++ more) s) (hmore : more ≠ []) :
    ∃ links' mid, Leads tree links place front mid ∧ Leads tree links' mid.place more s := by
  have hstart : ∀ {links place todo s}, [] ++ more = todo → Leads tree links place todo s →
      ∃ links' mid, Leads tree links place [] mid ∧ Leads tree links' mid.place more s := by
    rintro links place _ s rfl h
    exact ⟨links, _, .done h.solid, h⟩
  generalize htodo : front ++ more = todo at h
  induction h generalizing front with
  | done h => exact absurd (List.append_eq_nil_iff.mp htodo).2 hmore
  | idle hdir hidle next ih =>
    cases front with
    | nil => exact hstart htodo (.idle hdir hidle next)
    | cons part front =>
      obtain ⟨rfl, hrest⟩ := List.cons.inj htodo
      obtain ⟨links', mid, hfront, hback⟩ := ih hrest
      exact ⟨links', mid, .idle hdir hidle hfront, hback⟩
  | above hdir next ih =>
    cases front with
    | nil => exact hstart htodo (.above hdir next)
    | cons part front =>
      obtain ⟨rfl, hrest⟩ := List.cons.inj htodo
      obtain ⟨links', mid, hfront, hback⟩ := ih hrest
      exact ⟨links', mid, .above hdir hfront, hback⟩
  | missing name hdir h =>
    cases front with
    | nil => exact hstart htodo (.missing name hdir h)
    | cons part front => exact absurd (List.append_eq_nil_iff.mp (List.cons.inj htodo).2).2 hmore
  | @through links place name rest s p hdir h next ih =>
    cases front with
    | nil => exact hstart htodo (.through name hdir h next)
    | cons first front =>
      obtain ⟨rfl, hrest⟩ := List.cons.inj htodo
      have hthrough : (p.parts ++ front) ++ more = p.parts ++ rest := by
        rw [List.append_assoc]
        exact congrArg _ hrest
      obtain ⟨links', mid, hfront, hback⟩ := ih hthrough
      exact ⟨links', mid, .through name hdir h hfront, hback⟩
  | into name hdir h next ih =>
    cases front with
    | nil => exact hstart htodo (.into name hdir h next)
    | cons part front =>
      obtain ⟨rfl, hrest⟩ := List.cons.inj htodo
      obtain ⟨links', mid, hfront, hback⟩ := ih hrest
      exact ⟨links', mid, .into name hdir h hfront, hback⟩

/-- Where parts have led, more parts lead on, and idle parts at the end can be left out. -/
theorem leads_on (h : Leads tree links place todo s) (htodo : todo = front ++ idle)
    (hidle : ∀ part ∈ idle, part.isIdle = true) (hfound : s.found? ≠ none)
    (hmore : ∀ links, Leads tree links s.place more s') :
    Leads tree links place (front ++ more) s' := by
  induction h generalizing front idle with
  | done h =>
    obtain ⟨rfl, -⟩ := List.append_eq_nil_iff.mp htodo.symm
    exact hmore _
  | idle hdir hpart next ih =>
    cases front with
    | nil =>
      obtain rfl : _ = idle := htodo
      exact ih rfl (fun part hmem => hidle part (List.mem_cons_of_mem _ hmem)) hfound hmore
    | cons first front =>
      obtain ⟨rfl, hrest⟩ := List.cons.inj htodo
      exact .idle hdir hpart (ih hrest hidle hfound hmore)
  | above hdir next ih =>
    cases front with
    | nil =>
      obtain rfl : _ = idle := htodo
      exact absurd (hidle _ List.mem_cons_self) (by decide)
    | cons first front =>
      obtain ⟨rfl, hrest⟩ := List.cons.inj htodo
      exact .above hdir (ih hrest hidle hfound hmore)
  | missing name hdir h => exact absurd rfl hfound
  | @through links place name rest s p hdir h next ih =>
    cases front with
    | nil =>
      obtain rfl : _ = idle := htodo
      exact absurd (hidle _ List.mem_cons_self) (by simp)
    | cons first front =>
      obtain ⟨rfl, hrest⟩ := List.cons.inj htodo
      refine .through name hdir h ?_
      change Leads tree links (origin place p) (p.parts ++ (front ++ more)) s'
      rw [← List.append_assoc]
      exact ih (by rw [hrest, List.append_assoc]; rfl) hidle hfound hmore
  | @into links place name rest s hdir h next ih =>
    cases front with
    | nil =>
      obtain rfl : _ = idle := htodo
      exact absurd (hidle _ List.mem_cons_self) (by simp)
    | cons first front =>
      obtain ⟨rfl, hrest⟩ := List.cons.inj htodo
      exact .into name hdir h (ih hrest hidle hfound hmore)

theorem leads_idle (h : Leads tree links place idle s)
    (hidle : ∀ part ∈ idle, part.isIdle = true) : s.place = place := by
  induction h with
  | done h => rfl
  | idle hdir hpart next ih => exact ih fun part hmem => hidle part (List.mem_cons_of_mem _ hmem)
  | above hdir next ih => exact absurd (hidle _ List.mem_cons_self) (by decide)
  | missing name hdir h => exact absurd (hidle _ List.mem_cons_self) (by simp)
  | through name hdir h next ih => exact absurd (hidle _ List.mem_cons_self) (by simp)
  | into name hdir h next ih => exact absurd (hidle _ List.mem_cons_self) (by simp)

/-- Idle parts at the end make no difference to the place that parts lead to. -/
theorem place_of_leads_idle (h : Leads tree links place (front ++ idle) s)
    (hidle : ∀ part ∈ idle, part.isIdle = true) (hfront : Leads tree links' place front s') :
    s'.place = s.place := by
  by_cases hnil : idle = []
  · rw [hnil, List.append_nil] at h
    rw [leads_unique h hfront]
  · obtain ⟨links, mid, hmid, hback⟩ := leads_split h hnil
    rw [leads_unique hfront hmid, leads_idle hback hidle]

/-- Names lead down to what stands below them. -/
theorem leads_down (hsolid : Solid tree (place ++ names)) (links : Nat) :
    Leads tree links place (names.map Name.part) ⟨place ++ names, tree.at? (place ++ names)⟩ := by
  induction names generalizing place with
  | nil =>
    rw [List.append_nil] at hsolid ⊢
    exact .done hsolid
  | cons name rest ih =>
    obtain ⟨u, hat, hlink⟩ := hsolid
    have hdir : DirAt tree place := dir_of_above (by rw [hat]; rfl) (List.cons_ne_nil name rest)
    rw [List.append_cons] at hat ⊢
    have hnext : Solid tree (place ++ [name]) := by
      by_cases hrest : rest = []
      · rw [hrest, List.append_nil] at hat
        exact ⟨u, hat, hlink⟩
      · exact DirAt.solid (dir_of_above (by rw [hat]; rfl) hrest)
    exact .into name hdir hnext (ih ⟨u, hat, hlink⟩)

end Manifest.Proofs.Disks.Ways
