import Manifest.Proofs.LocatedInvariant

/-! # Locating behind a longer text

A text put in front of a document moves all that is located in it to the right, and changes nothing
else. The end of a node is trimmed leftwards and may run into the text in front, but never past its
first character, and so not in front of the start of the node (`max_trimEnd_shift`). So the span of a
node moves with its marks (`nodeSpan_shift`). The selection compares names and distances, which stay
the same (`select?_shift`). Main statement: `locateIn_shift`. -/

namespace Manifest

/-! ### Moving to the right -/

mutual

/-- The node with all marks in it moved to the right by `n` characters. -/
def Yaml.Node.shift (n : Nat) : Yaml.Node → Yaml.Node
  | .scalar text start stop => .scalar text (start + n) (stop + n)
  | .sequence items start stop => .sequence (shiftItems n items) (start + n) (stop + n)
  | .mapping entries start stop => .mapping (shiftEntries n entries) (start + n) (stop + n)

/-- The items of a sequence, moved. -/
def Yaml.Node.shiftItems (n : Nat) : List Yaml.Node → List Yaml.Node
  | [] => []
  | item :: items => item.shift n :: shiftItems n items

/-- The entries of a mapping, moved. -/
def Yaml.Node.shiftEntries (n : Nat) : List (Yaml.Node × Yaml.Node) → List (Yaml.Node × Yaml.Node)
  | [] => []
  | (key, value) :: entries => (key.shift n, value.shift n) :: shiftEntries n entries

end

/-- The entry with its span moved to the right. -/
def Entry.shift (n : Nat) (e : Entry) : Entry := { e with span := e.span.shift n }

/-- The selection of an entry that has been moved to the right. -/
def Selection.shift (n : Nat) (s : Selection) : Selection := { s with start := s.start + n }

/-- The entries moved to the right, with the same one selected. -/
def Located.shift (n : Nat) (l : Located) : Located where
  entries := l.entries.map (·.shift n)
  selected? := l.selected?
  selected_lt i hi := by
    rw [List.length_map]
    exact l.selected_lt i hi

end Manifest

namespace Manifest.Proofs.Shifting

open Manifest.Locator Manifest.Proofs.Locating Manifest.Proofs.Selection
open Manifest.Proofs.Trimming

/-! ### Spans of nodes -/

theorem chars_ofText {s : String} (h : s.toList.head? ≠ some Document.byteOrderMark) :
    (Document.ofText s).chars = s.toList := by
  unfold Document.ofText Document.ofChars
  split
  next hnil => exact hnil.symm
  next c cs hcons =>
    have hc : c ≠ Document.byteOrderMark := fun hc => h (by rw [hcons, List.head?_cons, hc])
    rw [if_neg hc, hcons]

section

variable {d e : Document} {p : List Char} (h : e.chars = p ++ d.chars)
include h

theorem size_of_append : e.size = d.size + p.length := by
  rw [Document.size, Document.size, h, List.length_append, Nat.add_comm]

theorem blankAt_shift (i : Nat) : e.blankAt (i + p.length) = d.blankAt i := by
  rw [Document.blankAt, Document.blankAt, Document.charAt?, Document.charAt?, h,
    List.getElem?_append_right (Nat.le_add_left _ _), Nat.add_sub_cancel]

/-- The search for the last character that is not blank ends at the same one, unless there is none in
the document itself; then it ends somewhere in the text in front. -/
theorem max_lastInk_shift : ∀ i, max (e.lastInk (i + p.length)) p.length = d.lastInk i + p.length
  | 0 => by
    have hblank := blankAt_shift h 0
    cases hd : d.blankAt 0 with
    | true =>
      have hd' : d.lastInk 0 = 0 := by simp [Document.lastInk, hd]
      have he := lastInk_of_blank (hblank.trans hd)
      omega
    | false =>
      have he := lastInk_of_ink (hblank.trans hd)
      rw [lastInk_of_ink hd]
      omega
  | i + 1 => by
    have hblank := blankAt_shift h (i + 1)
    have ih := max_lastInk_shift i
    cases hd : d.blankAt (i + 1) with
    | true =>
      rw [hd, Nat.add_right_comm] at hblank
      simpa [Document.lastInk, hd, hblank, Nat.add_right_comm i 1] using ih
    | false =>
      have he := lastInk_of_ink (hblank.trans hd)
      rw [lastInk_of_ink hd]
      omega

theorem max_trimEnd_shift (i : Nat) :
    max (e.trimEnd (i + p.length)) p.length = d.trimEnd i + p.length := by
  have hsize := size_of_append h
  have hblank := blankAt_shift h i
  have hink := max_lastInk_shift h i
  unfold Document.trimEnd
  rw [hblank, hsize]
  split_ifs <;> omega

/-- **The span of a node moves with its marks.** -/
theorem nodeSpan_shift (start stop : Nat) :
    e.nodeSpan (start + p.length) (stop + p.length) = (d.nodeSpan start stop).shift p.length := by
  have hsize := size_of_append h
  have htrim := max_trimEnd_shift h stop
  refine Span.ext ?_ ?_
  · simp only [Span.shift, start_nodeSpan]
    omega
  · simp only [Span.shift, stop_nodeSpan]
    omega

end

/-! ### Entries -/

section

open Yaml.Node

variable (n : Nat)

@[simp] theorem shiftItems_eq_map (items : List Yaml.Node) :
    shiftItems n items = items.map (·.shift n) := by
  induction items with
  | nil => rfl
  | cons item items ih => rw [shiftItems, ih, List.map_cons]

@[simp] theorem shiftEntries_eq_map (entries : List (Yaml.Node × Yaml.Node)) :
    shiftEntries n entries = entries.map fun e => (e.1.shift n, e.2.shift n) := by
  induction entries with
  | nil => rfl
  | cons entry entries ih => rw [shiftEntries, ih, List.map_cons]

@[simp] theorem start_shift (node : Yaml.Node) : (node.shift n).start = node.start + n := by
  cases node <;> rfl

@[simp] theorem stop_shift (node : Yaml.Node) : (node.shift n).stop = node.stop + n := by
  cases node <;> rfl

@[simp] theorem scalar?_shift (node : Yaml.Node) : (node.shift n).scalar? = node.scalar? := by
  cases node <;> rfl

theorem sequence?_shift (node : Yaml.Node) :
    (node.shift n).sequence? = node.sequence?.map (List.map (·.shift n)) := by
  cases node <;> simp [Yaml.Node.shift, sequence?]

theorem get?_shift (node : Yaml.Node) (key : String) :
    (node.shift n).get? key = (node.get? key).map (·.shift n) := by
  cases node with
  | scalar text start stop => rfl
  | sequence items start stop => rfl
  | mapping entries start stop =>
    simp only [Yaml.Node.shift, get?, mapping?, shiftEntries_eq_map, Option.bind_some,
      List.find?_map, Option.map_map]
    simp [Function.comp_def]

theorem nameOf?_shift (node : Yaml.Node) : nameOf? (node.shift n) = nameOf? node := by
  unfold nameOf?
  rw [get?_shift]
  cases node.get? nameKey <;> simp

end

section

variable {d e : Document} {p : List Char} (h : e.chars = p ++ d.chars)
include h

theorem entryOfItem?_shift (item : Yaml.Node) :
    entryOfItem? e (item.shift p.length) = (entryOfItem? d item).map (·.shift p.length) := by
  unfold entryOfItem?
  rw [nameOf?_shift, start_shift, stop_shift, nodeSpan_shift h]
  cases nameOf? item <;> rfl

theorem entryOfRoot?_shift (root : Yaml.Node) :
    entryOfRoot? e (root.shift p.length) = (entryOfRoot? d root).map (·.shift p.length) := by
  unfold entryOfRoot?
  rw [nameOf?_shift, start_shift, stop_shift, nodeSpan_shift h]
  cases nameOf? root <;> rfl

/-- The entries are those of the document, moved to the right. -/
theorem entriesOf_shift (root : Yaml.Node) :
    entriesOf e (root.shift p.length) = (entriesOf d root).map (·.shift p.length) := by
  have hitems : ((root.shift p.length).get? applicationsKey).bind Yaml.Node.sequence? =
      ((root.get? applicationsKey).bind Yaml.Node.sequence?).map (List.map (·.shift p.length)) := by
    rw [get?_shift]
    cases root.get? applicationsKey with
    | none => rfl
    | some node => exact sequence?_shift p.length node
  unfold entriesOf
  rw [hitems]
  cases (root.get? applicationsKey).bind Yaml.Node.sequence? with
  | none =>
    rw [Option.map_none, entryOfRoot?_shift h]
    cases entryOfRoot? d root <;> rfl
  | some items =>
    dsimp only [Option.map_some]
    rw [List.filterMap_map, List.map_filterMap]
    exact List.filterMap_congr fun item _ => entryOfItem?_shift h item

theorem found_shift (stream : List Yaml.Node) :
    found e (stream.map (·.shift p.length)) =
      (found d stream).map (List.map (·.shift p.length)) := by
  have hroot : Yaml.singleRoot (stream.map (·.shift p.length)) =
      (Yaml.singleRoot stream).map (·.shift p.length) := by
    match stream with
    | [] => rfl
    | [root] => rfl
    | _ :: _ :: rest => simp [Yaml.singleRoot, Except.map]
  unfold found
  rw [hroot]
  cases Yaml.singleRoot stream with
  | error err => rfl
  | ok root => exact congrArg Except.ok (entriesOf_shift h root)

end

/-! ### Selecting -/

section

variable (n : Nat)

theorem gap_shift (e : Entry) (offset : Nat) : gap (e.shift n) (offset + n) = gap e offset := by
  simp only [gap, Entry.shift, Span.shift]
  omega

/-- The entry that is nearest stays the nearest, as all starts and the offset move alike. -/
theorem isNearest_shift {name : String} {offset : Nat} {es : List Entry} {i : Nat}
    (h : IsNearest name offset es i) :
    IsNearest name (offset + n) (es.map (·.shift n)) i := by
  have hback : ∀ {j : Nat} {f : Entry}, (es.map (·.shift n))[j]? = some f →
      ∃ g, es[j]? = some g ∧ g.shift n = f := by
    intro j f hf
    rwa [List.getElem?_map, Option.map_eq_some_iff] at hf
  obtain ⟨e, he, hname⟩ := h.named
  refine ⟨⟨e.shift n, by rw [List.getElem?_map, he]; rfl, hname⟩, ?_, ?_⟩
  · intro e' f' j he' hf' hn
    obtain ⟨e, he, rfl⟩ := hback he'
    obtain ⟨f, hf, rfl⟩ := hback hf'
    rw [gap_shift, gap_shift]
    exact h.le e f j he hf hn
  · intro e' f' j he' hf' hn hlt
    obtain ⟨e, he, rfl⟩ := hback he'
    obtain ⟨f, hf, rfl⟩ := hback hf'
    rw [gap_shift, gap_shift]
    exact h.lt e f j he hf hn hlt

theorem nearest?_shift (name : String) (offset : Nat) (es : List Entry) :
    nearest? name (offset + n) (es.map (·.shift n)) = nearest? name offset es := by
  cases h : nearest? name offset es with
  | none =>
    rw [nearest?_eq_none_iff] at h ⊢
    intro f hf
    obtain ⟨e, he, rfl⟩ := List.mem_map.mp hf
    exact h e he
  | some i =>
    rw [nearest?_eq_some_iff] at h ⊢
    exact isNearest_shift n h

theorem reselect?_shift (previous : Selection) (es : List Entry) :
    reselect? (previous.shift n) (es.map (·.shift n)) = reselect? previous es := by
  have hstart : ((fun e : Entry => e.span.start == previous.start + n) ∘ Entry.shift n) =
      fun e => e.span.start == previous.start := by
    funext e
    simp [Entry.shift, Span.shift]
  unfold reselect?
  simp only [Selection.shift]
  rw [nearest?_shift, List.findIdx?_map, hstart]

/-- **The same entry is selected.** -/
theorem select?_shift (l : Locator) (previous? : Option Selection) (es : List Entry) :
    l.select? (previous?.map (·.shift n)) (es.map (·.shift n)) = l.select? previous? es := by
  unfold select?
  rw [List.isEmpty_map]
  congr 1
  cases l.pinned? with
  | some name =>
    dsimp only
    rw [List.findIdx?_map]
    rfl
  | none =>
    cases previous? with
    | none => rfl
    | some previous =>
      dsimp only
      rw [Option.map_some, Option.bind_some, reselect?_shift, Option.bind_some]

end

/-! ### Locating -/

theorem chosen_shift (l : Locator) (n : Nat) (previous? : Option Selection) (es : List Entry) :
    chosen l (previous?.map (·.shift n)) (es.map (·.shift n)) =
      (chosen l previous? es).shift n := by
  refine Located.ext rfl ?_
  rw [selected?_chosen, select?_shift]
  exact (selected?_chosen l previous? es).symm

/-- **Locating behind a longer text moves the result and changes nothing else.** With all marks of the
nodes and the start of the previous selection moved to the right by the length of the text in front,
the same names are located, with the same one selected and with every span moved by that length, or
there is the same error. A byte order mark, which a document drops, must not come first. -/
theorem locateIn_shift (l : Locator) {front text : String}
    (htext : text.toList.head? ≠ some Document.byteOrderMark)
    (hall : (front ++ text).toList.head? ≠ some Document.byteOrderMark)
    (stream : List Yaml.Node) (previous? : Option Selection) :
    l.locateIn (.ofText (front ++ text)) (stream.map (·.shift front.length))
        (previous?.map (·.shift front.length)) =
      (l.locateIn (.ofText text) stream previous?).map (·.shift front.length) := by
  have hchars : (Document.ofText (front ++ text)).chars =
      front.toList ++ (Document.ofText text).chars := by
    rw [chars_ofText htext, chars_ofText hall, String.toList_append]
  have hlength : front.length = front.toList.length := String.length_toList.symm
  rw [locateIn_eq, locateIn_eq, hlength, found_shift hchars]
  cases found (.ofText text) stream with
  | error e => rfl
  | ok es => exact congrArg Except.ok (chosen_shift l front.toList.length previous? es)

/-- Two applications, the first with marks on blanks at the start of its text. -/
def blankNodes : List Yaml.Node :=
  let item (name : String) (start stop : Nat) : Yaml.Node :=
    .mapping [(.scalar nameKey start stop, .scalar name start stop)] start stop
  [.mapping [(.scalar applicationsKey 0 1, .sequence [item "db" 1 2, item "web" 3 9] 0 9)] 0 9]

/-- The end of the first application is trimmed into the text in front, but its span starts and ends
where it did. The second one has the name of the previous selection. -/
theorem locateIn_shift_blankNodes :
    "   x ".toList.head? ≠ some Document.byteOrderMark ∧
    ("abc" ++ "   x ").toList.head? ≠ some Document.byteOrderMark ∧
    (Document.ofText ("abc" ++ "   x ")).trimEnd 5 = 3 ∧
    (⟨none⟩ : Locator).locateIn (.ofText ("abc" ++ "   x "))
        (blankNodes.map (·.shift "abc".length)) (some ⟨"web", 4⟩) =
      .ok (.ofEntries [⟨"db", false, ⟨4, 4, by decide⟩⟩, ⟨"web", false, ⟨6, 8, by decide⟩⟩]
        (some 1)) := by
  have htext : "   x ".toList.head? ≠ some Document.byteOrderMark := by decide
  have hall : ("abc" ++ "   x ").toList.head? ≠ some Document.byteOrderMark := by decide
  refine ⟨htext, hall, by decide, ?_⟩
  exact (locateIn_shift ⟨none⟩ htext hall blankNodes (some ⟨"web", 1⟩)).trans (by decide +kernel)

end Manifest.Proofs.Shifting
