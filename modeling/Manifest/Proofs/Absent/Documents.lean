import Manifest.Proofs.Absent.Events
import Manifest.Yaml.Node.Builder
import Mathlib.Tactic.Tauto

/-! # The texts of documents

Every scalar event ends in the documents, and all texts in the documents are those of scalar events: an
alias only copies a node. So the documents hold a text exactly if a scalar event has it
(`mem_textsOfItems_iff`). -/

namespace Manifest.Proofs.Absent

open Manifest.Yaml

mutual

/-- The texts of the scalars in a node, at all depths. -/
def texts : Node → List String
  | .scalar text _ _ => [text]
  | .sequence items _ _ => textsOfItems items
  | .mapping entries _ _ => textsOfEntries entries

/-- The texts in some nodes. -/
def textsOfItems : List Node → List String
  | [] => []
  | n :: ns => texts n ++ textsOfItems ns

/-- The texts in some keys and values. -/
def textsOfEntries : List (Node × Node) → List String
  | [] => []
  | (k, v) :: es => texts k ++ texts v ++ textsOfEntries es

end

theorem mem_textsOfItems {x : String} : ∀ {ns : List Node},
    x ∈ textsOfItems ns ↔ ∃ n ∈ ns, x ∈ texts n
  | [] => by simp [textsOfItems]
  | n :: ns => by
    rw [textsOfItems, List.mem_append, mem_textsOfItems]
    simp

theorem mem_textsOfEntries {x : String} : ∀ {es : List (Node × Node)},
    x ∈ textsOfEntries es ↔ ∃ e ∈ es, x ∈ texts e.1 ∨ x ∈ texts e.2
  | [] => by simp [textsOfEntries]
  | (k, v) :: es => by
    rw [textsOfEntries, List.mem_append, List.mem_append, mem_textsOfEntries]
    simp

/-! ### What the builder holds -/

/-- The texts in what an open collection has so far. -/
def frameTexts : Frame → List String
  | .sequence _ _ items => textsOfItems items
  | .mapping _ _ entries => textsOfEntries entries
  | .keyed _ _ entries key => texts key ++ textsOfEntries entries

/-- The texts in the open collections. -/
def placeTexts : Place → List String
  | .inside frame outer => frameTexts frame ++ outer.flatMap frameTexts
  | _ => []

/-- The texts in what has been built. -/
def held (b : Builder) : List String := textsOfItems b.documents ++ placeTexts b.place

/-- The texts in the nodes with anchors. -/
def named (b : Builder) : List String := b.anchors.flatMap fun p => texts p.2

/-- The text of the scalar that an event becomes. -/
def taken? (e : MarkedEvent) : Option String :=
  match e.event with
  | .scalar text style _ _ =>
    some (if style == .plain && e.start.index == e.stop.index then "" else text)
  | _ => none

theorem mem_held_hand {b : Builder} {outer : List Frame} {n : Node} {x : String} :
    x ∈ held (b.hand outer n) ↔
      x ∈ texts n ∨ x ∈ textsOfItems b.documents ∨ x ∈ outer.flatMap frameTexts := by
  cases outer with
  | nil => simp [held, Builder.hand, textsOfItems, placeTexts]
  | cons frame outer =>
    cases frame <;>
      simp only [held, Builder.hand, placeTexts, frameTexts, textsOfItems, textsOfEntries,
        List.mem_append, List.flatMap_cons] <;> tauto

theorem anchors_hand (b : Builder) (outer : List Frame) (n : Node) :
    (b.hand outer n).anchors = b.anchors := by
  cases outer with
  | nil => rfl
  | cons frame outer => cases frame <;> rfl

/-- What taking an event does to the texts. -/
structure Takes (b : Builder) (e : MarkedEvent) (b' : Builder) : Prop where
  keeps : ∀ x ∈ held b, x ∈ held b'
  adds : ∀ x, taken? e = some x → x ∈ held b'
  source : ∀ x, x ∈ held b' ∨ x ∈ named b' → x ∈ held b ∨ x ∈ named b ∨ taken? e = some x

section

variable {b b' : Builder} {e : MarkedEvent}

theorem mem_named_note {anchor : Nat} {n : Node} {x : String} (h : x ∈ named (b.note anchor n)) :
    x ∈ texts n ∨ x ∈ named b := by
  unfold Builder.note at h
  split at h
  · exact .inr h
  · simpa [named] using h

theorem documents_note (anchor : Nat) (n : Node) : (b.note anchor n).documents = b.documents := by
  unfold Builder.note
  split <;> rfl

/-- A complete node is noted and handed on. -/
theorem takes_node {outer : List Frame} (hplace : placeTexts b.place = outer.flatMap frameTexts)
    (anchor : Nat) {n : Node} (hadds : ∀ x, taken? e = some x → x ∈ texts n)
    (hsource : ∀ x ∈ texts n, x ∈ held b ∨ x ∈ named b ∨ taken? e = some x) :
    Takes b e ((b.note anchor n).hand outer n) := by
  have hheld : ∀ x, x ∈ held b ↔ x ∈ textsOfItems b.documents ∨ x ∈ outer.flatMap frameTexts := by
    intro x
    rw [held, hplace, List.mem_append]
  have hnew : ∀ x, x ∈ held ((b.note anchor n).hand outer n) ↔ x ∈ texts n ∨ x ∈ held b := by
    intro x
    rw [mem_held_hand, documents_note, hheld]
  refine ⟨fun x hx => (hnew x).mpr (.inr hx), fun x hx => (hnew x).mpr (.inl (hadds x hx)), ?_⟩
  rintro x (hx | hx)
  · rcases (hnew x).mp hx with hx | hx
    · exact hsource x hx
    · exact .inl hx
  · rw [named, anchors_hand] at hx
    rcases mem_named_note hx with hx | hx
    · exact hsource x hx
    · exact .inr (.inl hx)

theorem mem_named_of_lookup {anchor : Nat} {n : Node} (h : b.anchors.lookup anchor = some n)
    {x : String} (hx : x ∈ texts n) : x ∈ named b := by
  obtain ⟨front, back, hsplit, -⟩ := List.lookup_eq_some_iff.mp h
  exact List.mem_flatMap.mpr ⟨(anchor, n), by rw [hsplit]; simp, hx⟩

/-- Where only the places of the open collections change, the texts stay. -/
theorem takes_of_eq (hheld : held b' = held b) (hnamed : ∀ x ∈ named b', x ∈ named b)
    (htaken : taken? e = none) : Takes b e b' := by
  refine ⟨fun x hx => hheld ▸ hx, fun x hx => ?_, fun x hx => ?_⟩
  · rw [htaken] at hx
    cases hx
  · rw [hheld] at hx
    exact hx.imp_right fun hx => .inl (hnamed x hx)

theorem takes_takeNode {outer : List Frame} (hplace : placeTexts b.place = outer.flatMap frameTexts)
    (h : b.takeNode outer e = .ok b') : Takes b e b' := by
  have hopened : ∀ frame, frameTexts frame = [] →
      held { b with place := .inside frame outer } = held b := by
    intro frame hframe
    show textsOfItems b.documents ++ (frameTexts frame ++ outer.flatMap frameTexts) = held b
    rw [hframe, List.nil_append, ← hplace]
    rfl
  unfold Builder.takeNode at h
  split at h
  next text style anchor tag? hevent =>
    cases h
    refine takes_node hplace anchor ?_ ?_
    · intro x hx
      rw [taken?, hevent] at hx
      cases hx
      exact List.mem_singleton_self _
    · intro x hx
      rw [taken?, hevent]
      exact .inr (.inr (congrArg some (List.mem_singleton.mp hx).symm))
  next anchor tag? hevent =>
    cases h
    exact takes_of_eq (hopened _ rfl) (fun _ hx => hx) (by rw [taken?, hevent])
  next anchor tag? hevent =>
    cases h
    exact takes_of_eq (hopened _ rfl) (fun _ hx => hx) (by rw [taken?, hevent])
  next anchor hevent =>
    split at h
    next n hlookup =>
      cases h
      refine takes_node hplace 0 ?_ ?_
      · intro x hx
        rw [taken?, hevent] at hx
        cases hx
      · exact fun x hx => .inr (.inl (mem_named_of_lookup hlookup hx))
    · cases h
  · cases h

/-- A collection that is complete has the texts of its parts. -/
theorem takes_closed {frame : Frame} {outer : List Frame} (hplace : b.place = .inside frame outer)
    (anchor : Nat) {n : Node} (hn : ∀ x, x ∈ texts n ↔ x ∈ frameTexts frame)
    (htaken : taken? e = none) : Takes b e ((b.note anchor n).hand outer n) := by
  have hheld : ∀ x, x ∈ held b ↔
      x ∈ textsOfItems b.documents ∨ x ∈ texts n ∨ x ∈ outer.flatMap frameTexts := by
    intro x
    rw [held, hplace, List.mem_append, placeTexts, List.mem_append, hn]
  have hnew : ∀ x, x ∈ held ((b.note anchor n).hand outer n) ↔ x ∈ held b := by
    intro x
    rw [mem_held_hand, documents_note, hheld]
    tauto
  refine ⟨fun x hx => (hnew x).mpr hx, fun x hx => ?_, ?_⟩
  · rw [htaken] at hx
    cases hx
  rintro x (hx | hx)
  · exact .inl ((hnew x).mp hx)
  · rw [named, anchors_hand] at hx
    rcases mem_named_note hx with hx | hx
    · exact .inl ((hheld x).mpr (.inr (.inl hx)))
    · exact .inr (.inl hx)

theorem takes_takeInside {frame : Frame} {outer : List Frame} (hplace : b.place = .inside frame outer)
    (h : b.takeInside frame outer e = .ok b') : Takes b e b' := by
  unfold Builder.takeInside at h
  split at h
  next anchor start items hevent =>
    cases h
    refine takes_closed hplace anchor (fun x => ?_) (by rw [taken?, hevent])
    simp [texts, frameTexts, mem_textsOfItems]
  next anchor start entries hevent =>
    cases h
    refine takes_closed hplace anchor (fun x => ?_) (by rw [taken?, hevent])
    simp [texts, frameTexts, mem_textsOfEntries]
  · refine takes_takeNode ?_ h
    rw [hplace]
    rfl

theorem takes_takeOutside (hplace : b.place = .outside) (h : b.takeOutside e.event = .ok b') :
    Takes b e b' := by
  unfold Builder.takeOutside at h
  split at h
  next hevent =>
    cases h
    exact takes_of_eq rfl (fun _ hx => hx) (by rw [taken?, hevent])
  next hevent =>
    cases h
    exact takes_of_eq rfl (fun _ hx => hx) (by rw [taken?, hevent])
  next hevent =>
    cases h
    exact takes_of_eq rfl (fun _ hx => hx) (by rw [taken?, hevent])
  next explicit hevent =>
    cases h
    -- the anchors of the last document are given up
    refine takes_of_eq ?_ (fun _ hx => nomatch hx) (by rw [taken?, hevent])
    rw [held, held, hplace]
    rfl
  · cases h

/-! ### All events -/

/-- Nothing comes behind an end of the stream. -/
def EndsOnce : List MarkedEvent → Prop
  | [] => True
  | e :: es => (e.event = .streamEnd → es = []) ∧ EndsOnce es

/-- Outside of all documents, the texts are those of the documents. -/
theorem mem_textsOfItems_reverse (hplace : b.place = .outside) {x : String} :
    x ∈ textsOfItems b.documents.reverse ↔ x ∈ held b := by
  rw [held, hplace]
  simp [mem_textsOfItems, placeTexts]

theorem of_finish {ns : List Node} (h : b.finish = .ok ns) :
    b.place = .outside ∧ ns = b.documents.reverse := by
  unfold Builder.finish at h
  split at h <;> first | exact ⟨by assumption, (Except.ok.inj h).symm⟩ | cases h

theorem of_takeAll_cons {es : List MarkedEvent} {ns : List Node}
    (h : b.takeAll (e :: es) = .ok ns) :
    (b.place = .outside ∧ ns = b.documents.reverse ∧ e.event = .streamEnd) ∨
      ∃ b', Takes b e b' ∧ b'.takeAll es = .ok ns := by
  rw [Builder.takeAll] at h
  split at h
  next hplace =>
    split at h
    next hevent => exact .inl ⟨hplace, (Except.ok.inj h).symm, hevent⟩
    · split at h
      · cases h
      next b' htake => exact .inr ⟨b', takes_takeOutside hplace htake, h⟩
  next hplace =>
    split at h
    next hevent =>
      have hheld : held { b with place := .outside } = held b := by
        rw [held, held, hplace]
        rfl
      exact .inr ⟨{ b with place := .outside },
        takes_of_eq hheld (fun _ hx => hx) (by rw [taken?, hevent]), h⟩
    · split at h
      · cases h
      next b' htake =>
        have houter : placeTexts b.place = ([] : List Frame).flatMap frameTexts := by
          rw [hplace]
          rfl
        exact .inr ⟨b', takes_takeNode houter htake, h⟩
  next frame outer hplace =>
    split at h
    · cases h
    next b' htake => exact .inr ⟨b', takes_takeInside hplace htake, h⟩

/-- Induction on the events: what is held stays, and nothing else comes in but by an event. -/
theorem mem_texts_of_takeAll (x : String) : ∀ {es : List MarkedEvent} {b : Builder}
    {ns : List Node}, b.takeAll es = .ok ns → EndsOnce es →
      (x ∈ held b ∨ (∃ e ∈ es, taken? e = some x) → x ∈ textsOfItems ns) ∧
      (x ∈ textsOfItems ns → (x ∈ held b ∨ x ∈ named b) ∨ ∃ e ∈ es, taken? e = some x)
  | [], b, ns, h, _ => by
    rw [Builder.takeAll] at h
    obtain ⟨hplace, rfl⟩ := of_finish h
    rw [mem_textsOfItems_reverse hplace]
    exact ⟨fun hx => hx.resolve_right (by simp), fun hx => .inl (.inl hx)⟩
  | e :: es, b, ns, h, hends => by
    rcases of_takeAll_cons h with ⟨hplace, rfl, hend⟩ | ⟨b', htakes, hrest⟩
    · obtain rfl := hends.1 hend
      rw [mem_textsOfItems_reverse hplace]
      have htaken : taken? e = none := by rw [taken?, hend]
      exact ⟨fun hx => hx.resolve_right (by simp [htaken]), fun hx => .inl (.inl hx)⟩
    · obtain ⟨hin, hout⟩ := mem_texts_of_takeAll x hrest hends.2
      constructor
      · rintro (hx | ⟨f, hf, hx⟩)
        · exact hin (.inl (htakes.keeps x hx))
        · rcases List.mem_cons.mp hf with rfl | hf
          · exact hin (.inl (htakes.adds x hx))
          · exact hin (.inr ⟨f, hf, hx⟩)
      · intro hx
        rcases hout hx with hx | ⟨f, hf, hx⟩
        · rcases htakes.source x hx with hx | hx | hx
          · exact .inl (.inl hx)
          · exact .inl (.inr hx)
          · exact .inr ⟨e, List.mem_cons_self, hx⟩
        · exact .inr ⟨f, List.mem_cons_of_mem e hf, hx⟩

end

/-- **The texts of the documents are those of the scalar events.** -/
theorem mem_textsOfItems_iff {es : List MarkedEvent} {ns : List Node}
    (h : Node.ofEvents es = .ok ns) (hends : EndsOnce es) (x : String) :
    x ∈ textsOfItems ns ↔ ∃ e ∈ es, taken? e = some x := by
  obtain ⟨hin, hout⟩ := mem_texts_of_takeAll x h hends
  refine ⟨fun hx => (hout hx).resolve_left ?_, fun hx => hin (.inr hx)⟩
  rintro (hx | hx) <;> cases hx

end Manifest.Proofs.Absent
