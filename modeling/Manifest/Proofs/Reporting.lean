import Manifest.Report
import Manifest.Proofs.LocatedInvariant
import Manifest.Proofs.Lines.Positions
import Manifest.Proofs.Slices
import Mathlib.Data.List.Forall2

/-! # Reports say what was located

The spans of located entries lie in the text (`stop_le_size_of_mem_entriesIn`). So both ends of a span
have a position (`isMark_position`), and the first position never stands in for a missing one; the
positions are in the order of the offsets (`position_ordered`), and the source has a character for each
offset of the span (`isSource_slice`). A report keeps the order of the entries, so the selected
application is found by its index, and there is one exactly if an entry is selected
(`countP_flag`). Main statement: `ofViews_faithful`. -/

namespace Manifest.Proofs.Reporting

open Manifest.Proofs.LocatedInvariant Manifest.Proofs.Locating Manifest.Proofs.Lines
open Manifest.Proofs.Slices Manifest.Proofs.Trimming

/-- The view was made from a text, with some pin and some previous selection. -/
def IsOfText (v : View) : Prop :=
  ∃ path shownPath text l previous?, v = .ofText path shownPath text l previous?

/-- The position of the offset, counted from one. It is looked up, also in the table of line starts. -/
def IsMark (d : Document) (i : Nat) (p : Report.Position) : Prop :=
  ∃ q, d.lineColumn? i = some q ∧ (Document.Word.tables d).lineColumn? i = .ok (some q) ∧
    IsPosition d i q ∧ p = ⟨q.line + 1, q.column + 1⟩

/-- The position stands in front of another one, or is the same, in the order of the text. -/
def AtMost (p q : Report.Position) : Prop :=
  p.line < q.line ∨ p.line = q.line ∧ p.column ≤ q.column

/-- The text under the span, with a character for each offset. It is also the text that is cut out
between the bytes of the two ends. -/
structure IsSource (d : Document) (s : Span) (source : String) : Prop where
  length_eq : source.length = s.size
  chars_eq : ∀ k, k < s.size → source.toList[k]? = d.charAt? (s.start + k)
  cut : (Document.Word.tables d).slice s = .ok source.toList

/-- What a report says about an entry is right. -/
structure Describes (d : Document) (withSource : Bool) (e : Entry) (a : Report.Application) :
    Prop where
  name_eq : a.name = e.name
  rootLevel_eq : a.rootLevel = e.rootLevel
  span_eq : a.span = e.span
  start : IsMark d e.span.start a.start
  stop : IsMark d e.span.stop a.stop
  ordered : AtMost a.start a.stop
  empty_iff : a.start = a.stop ↔ e.span.isEmpty = true
  source : withSource = true → ∃ source, a.source? = some source ∧ IsSource d e.span source
  noSource : withSource = false → a.source? = none

/-- What a report says about a manifest is right. The selected application is the one at the index of
the selected entry, and there is one or none. -/
structure Lists (withSource : Bool) (v : View) (m : Report.Listing) : Prop where
  path_eq : m.path = v.shownPath
  error_eq : m.error? = v.error?
  applications : List.Forall₂ (Describes v.document withSource) v.located.entries m.applications
  selected_iff : ∀ i a, m.applications[i]? = some a →
    (a.selected = true ↔ v.located.selected? = some i)
  count_selected : m.applications.countP (·.selected) =
    if v.located.selection?.isSome = true then 1 else 0

/-! ### Spans of located entries -/

theorem stop_le_size_of_mem_entriesIn {d : Document} {e : Entry} (he : e ∈ entriesIn d) :
    e.span.stop ≤ d.size := by
  unfold entriesIn found at he
  cases hparse : Yaml.parse d.text with
  | error fault => simp [hparse, Except.bind] at he
  | ok stream =>
    cases hroot : Yaml.singleRoot stream with
    | error fault => simp [hparse, hroot, Except.bind, Except.map] at he
    | ok root =>
      simp only [hparse, hroot, Except.bind, Except.map] at he
      obtain ⟨node, hspan⟩ := exists_node_of_mem_entriesOf he
      rw [hspan]
      exact nodeSpan_stop_le_size d node.start node.stop

theorem stop_le_size_of_isOfText {v : View} (hv : IsOfText v) {e : Entry}
    (he : e ∈ v.located.entries) : e.span.stop ≤ v.document.size := by
  obtain ⟨path, shownPath, text, l, previous?, rfl⟩ := hv
  have hentries : (l.locate (.ofText text) previous?).entries = entriesIn (.ofText text) := by
    rw [locate_eq, entries_chosen]
  exact stop_le_size_of_mem_entriesIn (hentries ▸ he)

/-! ### Positions and sources -/

variable {d : Document}

theorem isMark_position {i : Nat} (hi : i ≤ d.size) : IsMark d i (Report.position d i) := by
  obtain ⟨start, hstart⟩ := exists_lineStart_of d i
  have hfound := lineColumn?_eq hi hstart
  refine ⟨_, hfound, ?_, isPosition hstart, ?_⟩
  · rw [lineColumn?_tables, hfound]
  · unfold Report.position
    rw [hfound]

theorem position_lt {i j : Nat} (hij : i < j) (hj : j ≤ d.size) :
    AtMost (Report.position d i) (Report.position d j) ∧
      Report.position d i ≠ Report.position d j := by
  obtain ⟨a, ha⟩ := exists_lineStart_of d i
  obtain ⟨b, hb⟩ := exists_lineStart_of d j
  have hprecedes := precedes_of_lt hij ha hb
  unfold Report.position
  rw [lineColumn?_eq (hij.le.trans hj) ha, lineColumn?_eq hj hb]
  unfold Precedes at hprecedes
  unfold AtMost
  simp only [ne_eq, Report.Position.mk.injEq, Nat.add_right_cancel_iff] at hprecedes ⊢
  omega

theorem position_ordered {s : Span} (hs : s.stop ≤ d.size) :
    AtMost (Report.position d s.start) (Report.position d s.stop) ∧
      (Report.position d s.start = Report.position d s.stop ↔ s.isEmpty = true) := by
  have hempty : s.isEmpty = true ↔ s.start = s.stop := beq_iff_eq
  rcases s.ordered.lt_or_eq with hlt | heq
  · obtain ⟨hle, hne⟩ := position_lt hlt hs
    exact ⟨hle, iff_of_false hne fun h => hlt.ne (hempty.mp h)⟩
  · rw [heq]
    exact ⟨.inr ⟨rfl, le_rfl⟩, iff_of_true rfl (hempty.mpr heq)⟩

theorem isSource_slice {s : Span} (hs : s.stop ≤ d.size) : IsSource d s (d.slice s) := by
  have hchars : (d.slice s).toList = d.sliceChars s := String.toList_ofList
  refine ⟨?_, fun k hk => ?_, hchars ▸ slice_tables d s⟩
  · rw [← String.length_toList, hchars]
    unfold Document.sliceChars
    rw [List.length_take, List.length_drop]
    unfold Document.size at hs
    unfold Span.size
    omega
  · rw [hchars, getElem?_sliceChars, if_pos hk]

theorem describes_application {withSource selected : Bool} {e : Entry} (he : e.span.stop ≤ d.size) :
    Describes d withSource e (Report.application d withSource e selected) where
  name_eq := rfl
  rootLevel_eq := rfl
  span_eq := rfl
  start := isMark_position (e.span.ordered.trans he)
  stop := isMark_position he
  ordered := (position_ordered he).1
  empty_iff := (position_ordered he).2
  source h := ⟨_, if_pos h, isSource_slice he⟩
  noSource h := if_neg (by simp [h])

/-! ### The selected application -/

/-- An element is counted once if it is told apart by its index. -/
theorem countP_eq_one {α : Type} {p : α → Bool} : ∀ {as : List α} {k : Nat}, k < as.length →
    (∀ i a, as[i]? = some a → (p a = true ↔ k = i)) → as.countP p = 1
  | [], k, hk, _ => absurd hk (Nat.not_lt_zero k)
  | a :: as, 0, _, h => by
    have hrest : as.countP p = 0 := by
      refine List.countP_eq_zero.mpr fun b hb hp => ?_
      obtain ⟨i, hi⟩ := List.mem_iff_getElem?.mp hb
      exact absurd ((h (i + 1) b hi).mp hp) (Nat.succ_ne_zero i).symm
    rw [List.countP_cons_of_pos ((h 0 a rfl).mpr rfl), hrest]
  | a :: as, k + 1, hk, h => by
    have hhead : ¬ p a = true := fun hp => absurd ((h 0 a rfl).mp hp) (Nat.succ_ne_zero k)
    rw [List.countP_cons_of_neg hhead]
    refine countP_eq_one (Nat.lt_of_succ_lt_succ hk) fun i b hb => ?_
    rw [h (i + 1) b hb, Nat.add_right_cancel_iff]

theorem selection?_isSome (l : Located) : l.selection?.isSome = l.selected?.isSome := by
  unfold Located.selection? Located.chosen?
  cases hselected : l.selected? with
  | none => rfl
  | some k =>
    have hk : k < l.entries.length := l.selected_lt k hselected
    simp [List.getElem?_eq_getElem hk]

/-- What is made of the entries one by one goes with them. -/
theorem forall₂_flagged {α : Type} {R : Entry → α → Prop} {f : Entry × Bool → α} {l : Located}
    (h : ∀ e ∈ l.entries, ∀ selected, R e (f (e, selected))) :
    List.Forall₂ R l.entries (l.flagged.map f) := by
  unfold Located.flagged
  rw [List.forall₂_map_right_iff]
  refine List.forall₂_iff_get.mpr ⟨List.length_mapIdx.symm, fun i hi hi' => ?_⟩
  rw [List.get_eq_getElem, List.get_eq_getElem, List.getElem_mapIdx]
  exact h _ (List.getElem_mem hi) _

section
variable {α : Type} {p : α → Bool} {f : Entry × Bool → α} {l : Located}

/-- What shows the flag of an entry shows it at the index of the selected one. -/
theorem flag_iff_selected (hp : ∀ e selected, p (f (e, selected)) = selected) {i : Nat} {a : α}
    (ha : (l.flagged.map f)[i]? = some a) : p a = true ↔ l.selected? = some i := by
  unfold Located.flagged at ha
  rw [List.getElem?_map, List.getElem?_mapIdx, Option.map_map, Option.map_eq_some_iff] at ha
  obtain ⟨e, -, rfl⟩ := ha
  rw [Function.comp_apply, hp, beq_iff_eq, eq_comm]

/-- **One entry or none is flagged.** -/
theorem countP_flag (hp : ∀ e selected, p (f (e, selected)) = selected) :
    (l.flagged.map f).countP p = if l.selection?.isSome = true then 1 else 0 := by
  rw [selection?_isSome]
  cases hselected : l.selected? with
  | none =>
    refine List.countP_eq_zero.mpr fun a ha hflag => ?_
    obtain ⟨i, hi⟩ := List.mem_iff_getElem?.mp ha
    rw [flag_iff_selected hp hi, hselected] at hflag
    cases hflag
  | some k =>
    have hk : k < (l.flagged.map f).length := by
      rw [List.length_map, Located.flagged, List.length_mapIdx]
      exact l.selected_lt k hselected
    refine countP_eq_one hk fun i a hi => ?_
    rw [flag_iff_selected hp hi, hselected, Option.some.injEq]

end

/-! ### Listings -/

theorem lists_listing {withSource : Bool} {v : View}
    (hv : ∀ e ∈ v.located.entries, e.span.stop ≤ v.document.size) :
    Lists withSource v (Report.listing withSource v) where
  path_eq := rfl
  error_eq := rfl
  applications := forall₂_flagged fun e he _ => describes_application (hv e he)
  selected_iff _ _ ha := flag_iff_selected (p := Report.Application.selected) (fun _ _ => rfl) ha
  count_selected := countP_flag fun _ _ => rfl

/-- **Reports say what was located.** A report on views made from texts lists them one by one and in
order, and under each its entries one by one and in order, with the right positions: those of the ends
of their spans, which are in order, and equal only for an empty span. A source is the text under the
span. Of the applications of a manifest, the one at the index of the selected entry is marked, and no
other; if nothing is selected, none is. -/
theorem ofViews_faithful {views : List View} (hviews : ∀ v ∈ views, IsOfText v) (withSource : Bool) :
    List.Forall₂ (Lists withSource) views (Report.ofViews views withSource).manifests := by
  unfold Report.ofViews
  rw [List.forall₂_map_right_iff, List.forall₂_same]
  exact fun v hv => lists_listing fun e he => stop_le_size_of_isOfText (hviews v hv) he

/-- Two texts: one with two applications, of which the second was selected before, and one that cannot
be read. -/
def mixedViews : List View :=
  [.ofText "m/a.yml" "a.yml" "applications:\n- name: é\n- name: b\n" ⟨none⟩ (some ⟨"b", 20⟩),
    .ofText "m/b.yml" "b.yml" "name: [" ⟨some "b"⟩ none]

/-- The report on the two texts marks the second application of the first one. -/
theorem ofViews_faithful_mixed :
    (∀ v ∈ mixedViews, IsOfText v) ∧ List.Forall₂ (Lists true) mixedViews
      [⟨"a.yml",
        [⟨"é", false, false, ⟨16, 24, by decide⟩, ⟨2, 3⟩, ⟨3, 1⟩, some "name: é\n"⟩,
          ⟨"b", true, false, ⟨26, 34, by decide⟩, ⟨3, 3⟩, ⟨4, 1⟩, some "name: b\n"⟩], none⟩,
        ⟨"b.yml", [], none⟩] := by
  have hviews : ∀ v ∈ mixedViews, IsOfText v := by
    intro v hv
    rcases List.mem_cons.mp hv with rfl | hv
    · exact ⟨_, _, _, _, _, rfl⟩
    · rw [List.mem_singleton.mp hv]
      exact ⟨_, _, _, _, _, rfl⟩
  have hmanifests : (Report.ofViews mixedViews true).manifests =
      [⟨"a.yml",
        [⟨"é", false, false, ⟨16, 24, by decide⟩, ⟨2, 3⟩, ⟨3, 1⟩, some "name: é\n"⟩,
          ⟨"b", true, false, ⟨26, 34, by decide⟩, ⟨3, 3⟩, ⟨4, 1⟩, some "name: b\n"⟩], none⟩,
        ⟨"b.yml", [], none⟩] := by
    decide +kernel
  exact ⟨hviews, hmanifests ▸ ofViews_faithful hviews true⟩

end Manifest.Proofs.Reporting
