import Manifest.Proofs.Composing.EventTree
import Mathlib.Data.List.Basic

/-! # Which aliases have a node

An alias stands for a node that carries its anchor and was complete in front of it, in the same
document. `notes` lists, in the order of the events, where nodes with anchors become complete and
where anchors are used. A document composes exactly if every use in its notes comes behind a
completion of the same anchor (`Bound`), and otherwise fails at the first use that does not
(`FirstUnbound`): `bound_notes_iff` and `firstUnbound_notes_iff`. -/

namespace Manifest.Proofs.Composing

open Manifest.Yaml

/-- What an event means to the anchors of a document. -/
inductive Note
  /-- A node that carries the anchor is complete. -/
  | complete (anchor : Nat)
  /-- An alias of the anchor. -/
  | used (anchor : Nat)
deriving DecidableEq, Repr

/-- A node is complete; anchor zero is no anchor. -/
def Note.completing (anchor : Nat) : List Note := if anchor = 0 then [] else [.complete anchor]

mutual

/-- The completions and uses of anchors in a tree, in the order of its events. A collection is
complete with its last event. -/
def EventTree.notes : EventTree → List Note
  | .scalar _ _ anchor _ _ => Note.completing anchor
  | .sequence anchor _ _ items _ => EventTree.notesOfItems items ++ Note.completing anchor
  | .mapping anchor _ _ entries _ => EventTree.notesOfEntries entries ++ Note.completing anchor
  | .aliasOf anchor _ => [.used anchor]

/-- The notes of the items of a sequence. -/
def EventTree.notesOfItems : List EventTree → List Note
  | [] => []
  | t :: ts => t.notes ++ EventTree.notesOfItems ts

/-- The notes of the entries of a mapping. -/
def EventTree.notesOfEntries : List (EventTree × EventTree) → List Note
  | [] => []
  | (k, v) :: es => k.notes ++ (v.notes ++ EventTree.notesOfEntries es)

end

/-- Every use of an anchor comes behind a completion of it. -/
def Bound (notes : List Note) : Prop :=
  ∀ before anchor after, notes = before ++ .used anchor :: after → .complete anchor ∈ before

/-- The first use of an anchor that comes behind no completion of it. -/
def FirstUnbound (notes : List Note) (anchor : Nat) : Prop :=
  ∃ before after, notes = before ++ .used anchor :: after ∧ Bound before ∧
    .complete anchor ∉ before

/-! ### Scanning notes -/

/-- Goes through notes with the anchors that are complete so far, up to the first use of another
one. -/
def scan (known : List Nat) : List Note → Except Nat (List Nat)
  | [] => .ok known
  | .complete anchor :: notes => scan (anchor :: known) notes
  | .used anchor :: notes => if anchor ∈ known then scan known notes else .error anchor

theorem scan_append (known : List Nat) (ms ns : List Note) :
    scan known (ms ++ ns) = (scan known ms).bind fun known => scan known ns := by
  induction ms generalizing known with
  | nil => rfl
  | cons m ms ih =>
    cases m with
    | complete anchor => exact ih (anchor :: known)
    | used anchor =>
      rw [List.cons_append, scan, scan]
      split_ifs
      · exact ih known
      · rfl

theorem mem_of_scan {known known' : List Nat} {notes : List Note} {a : Nat}
    (h : scan known notes = .ok known') : a ∈ known' ↔ a ∈ known ∨ .complete a ∈ notes := by
  induction notes generalizing known with
  | nil =>
    obtain rfl := Except.ok.inj h
    simp
  | cons m notes ih =>
    cases m with
    | complete b =>
      rw [ih h, List.mem_cons, List.mem_cons, Note.complete.injEq]
      tauto
    | used b =>
      rw [scan] at h
      split_ifs at h with hb
      rw [ih h, List.mem_cons]
      simp

theorem exists_of_scan_error {known : List Nat} {notes : List Note} {a : Nat}
    (h : scan known notes = .error a) :
    ∃ before after known', notes = before ++ .used a :: after ∧
      scan known before = .ok known' ∧ a ∉ known' := by
  induction notes generalizing known with
  | nil => cases h
  | cons m notes ih =>
    cases m with
    | complete b =>
      obtain ⟨before, after, known', rfl, hk, ha⟩ := ih h
      exact ⟨.complete b :: before, after, known', rfl, hk, ha⟩
    | used b =>
      rw [scan] at h
      split_ifs at h with hb
      · obtain ⟨before, after, known', rfl, hk, ha⟩ := ih h
        exact ⟨.used b :: before, after, known', rfl, by rw [scan, if_pos hb, hk], ha⟩
      · obtain rfl := Except.error.inj h
        exact ⟨[], notes, known, rfl, rfl, hb⟩

theorem bound_iff {notes : List Note} : Bound notes ↔ ∃ known, scan [] notes = .ok known := by
  constructor
  · intro hb
    cases h : scan [] notes with
    | ok known => exact ⟨known, rfl⟩
    | error a =>
      obtain ⟨before, after, known, heq, hk, ha⟩ := exists_of_scan_error h
      exact absurd ((mem_of_scan hk).mpr (Or.inr (hb before a after heq))) ha
  · rintro ⟨known, h⟩ before a after rfl
    rw [scan_append] at h
    cases hk : scan [] before with
    | error b => rw [hk] at h; cases h
    | ok known' =>
      rw [hk, Except.bind, scan] at h
      split_ifs at h with ha
      exact ((mem_of_scan hk).mp ha).resolve_left (by simp)

theorem firstUnbound_iff {notes : List Note} {a : Nat} :
    FirstUnbound notes a ↔ scan [] notes = .error a := by
  constructor
  · rintro ⟨before, after, rfl, hb, ha⟩
    obtain ⟨known, hk⟩ := bound_iff.mp hb
    have hn : a ∉ known := fun h => ha (((mem_of_scan hk).mp h).resolve_left (by simp))
    rw [scan_append, hk, Except.bind, scan, if_neg hn]
  · intro h
    obtain ⟨before, after, known, heq, hk, ha⟩ := exists_of_scan_error h
    exact ⟨before, after, heq, bound_iff.mpr ⟨known, hk⟩,
      fun hc => ha ((mem_of_scan hk).mpr (Or.inr hc))⟩

/-! ### Composing is scanning -/

/-- The anchors of complete nodes. -/
def Closed.anchors (closed : Closed) : List Nat := closed.map Prod.fst

theorem lookup_eq_none_iff {closed : Closed} {a : Nat} :
    closed.lookup a = none ↔ a ∉ closed.anchors := by
  rw [List.lookup_eq_none_iff, Closed.anchors, List.mem_map]
  constructor
  · rintro h ⟨p, hp, rfl⟩
    simpa using h p hp
  · intro h p hp
    simpa using fun heq : a = p.1 => h ⟨p, hp, heq.symm⟩

theorem scan_completing (closed : Closed) (anchor : Nat) (n : Node) :
    scan closed.anchors (Note.completing anchor) = .ok (closed.add anchor n).anchors := by
  unfold Note.completing Closed.add
  split_ifs <;> rfl

mutual

/-- **Composing a tree goes through its notes**, and ends with the anchors that they complete or
with the first use that is not bound. -/
theorem scan_notes : ∀ (t : EventTree) (closed : Closed),
    scan closed.anchors t.notes = (t.compose closed).map fun r => r.2.anchors
  | .scalar _ _ anchor _ _, closed => by
    rw [EventTree.notes, scan_completing]
    rfl
  | .sequence anchor _ _ items _, closed => by
    rw [EventTree.notes, scan_append, scan_notesOfItems items closed, EventTree.compose]
    cases EventTree.composeItems closed items with
    | error a => rfl
    | ok r => exact scan_completing r.2 anchor _
  | .mapping anchor _ _ entries _, closed => by
    rw [EventTree.notes, scan_append, scan_notesOfEntries entries closed, EventTree.compose]
    cases EventTree.composeEntries closed entries with
    | error a => rfl
    | ok r => exact scan_completing r.2 anchor _
  | .aliasOf anchor _, closed => by
    rw [EventTree.notes, EventTree.compose, scan]
    cases h : closed.lookup anchor with
    | none => rw [if_neg (lookup_eq_none_iff.mp h)]; rfl
    | some n =>
      have hm : anchor ∈ closed.anchors := by
        by_contra hn
        rw [lookup_eq_none_iff.mpr hn] at h
        cases h
      rw [if_pos hm]
      rfl

theorem scan_notesOfItems : ∀ (ts : List EventTree) (closed : Closed),
    scan closed.anchors (EventTree.notesOfItems ts) =
      (EventTree.composeItems closed ts).map fun r => r.2.anchors
  | [], _ => rfl
  | t :: ts, closed => by
    rw [EventTree.notesOfItems, scan_append, scan_notes t closed, EventTree.composeItems]
    cases t.compose closed with
    | error a => rfl
    | ok r =>
      dsimp only [Except.map, Except.bind]
      rw [scan_notesOfItems ts r.2]
      cases EventTree.composeItems r.2 ts <;> rfl

theorem scan_notesOfEntries : ∀ (es : List (EventTree × EventTree)) (closed : Closed),
    scan closed.anchors (EventTree.notesOfEntries es) =
      (EventTree.composeEntries closed es).map fun r => r.2.anchors
  | [], _ => rfl
  | (k, v) :: es, closed => by
    rw [EventTree.notesOfEntries, scan_append, scan_notes k closed, EventTree.composeEntries]
    cases k.compose closed with
    | error a => rfl
    | ok r =>
      dsimp only [Except.map, Except.bind]
      rw [scan_append, scan_notes v r.2]
      cases v.compose r.2 with
      | error a => rfl
      | ok r' =>
        dsimp only [Except.map, Except.bind]
        rw [scan_notesOfEntries es r'.2]
        cases EventTree.composeEntries r'.2 es <;> rfl

end

theorem bound_notes_iff {t : EventTree} : Bound t.notes ↔ ∃ r, t.compose [] = .ok r := by
  rw [bound_iff, show ([] : List Nat) = Closed.anchors [] from rfl, scan_notes]
  cases t.compose [] <;> simp [Except.map]

theorem firstUnbound_notes_iff {t : EventTree} {a : Nat} :
    FirstUnbound t.notes a ↔ t.compose [] = .error a := by
  rw [firstUnbound_iff, show ([] : List Nat) = Closed.anchors [] from rfl, scan_notes]
  cases t.compose [] <;> simp [Except.map]

end Manifest.Proofs.Composing
