import Manifest.Proofs.JsonText.Grammar
import Manifest.Report.Render

/-! # Reports as JSON

A report in the JSON format is the text of one value, from its opening to its closing brace, with a
line feed behind it. `read?` is the other direction: the fields are found by their keys, an error or a
source without a field is absent, and one with an empty string is present. A report whose numbers fit
into 64 bits (`Fits`) is read back from its text, so it is told by it. -/

namespace Manifest.Proofs.JsonText.Reports

open Manifest.Json Manifest.Report Manifest.Proofs.JsonText

/-! ### Reading a report -/

/-- The value of the field with a key. -/
def field? (key : String) (j : Json) : Option Json := j.object?.bind (·.lookup key)

/-- The number in a field. -/
def natField? (key : String) (j : Json) : Option Nat := (field? key j).bind Json.nat?

/-- The text in a field. -/
def textField? (key : String) (j : Json) : Option String := (field? key j).bind Json.string?

/-- The truth value in a field. -/
def boolField? (key : String) (j : Json) : Option Bool := (field? key j).bind Json.bool?

/-- The items in a field, each read on its own. -/
def itemsField? {α : Type} (item? : Json → Option α) (key : String) (j : Json) : Option (List α) :=
  ((field? key j).bind Json.array?).bind (·.mapM item?)

/-- The text in a field that may be left out. -/
def optionalTextField? (key : String) (j : Json) : Option (Option String) :=
  match field? key j with
  | none => some none
  | some value => value.string?.map some

/-- The position that a value gives. -/
def position? (j : Json) : Option Position := do
  return ⟨← natField? "line" j, ← natField? "column" j⟩

/-- The span that a value gives; its bounds have to be in order. -/
def span? (j : Json) : Option Span := do
  let start ← natField? "start" j
  let stop ← natField? "end" j
  if h : start ≤ stop then some ⟨start, stop, h⟩ else none

/-- The application that a value gives. -/
def application? (j : Json) : Option Application := do
  return {
    name := ← textField? "name" j
    selected := ← boolField? "selected" j
    rootLevel := ← boolField? "root_level" j
    span := ← (field? "span" j).bind span?
    start := ← (field? "start" j).bind position?
    stop := ← (field? "end" j).bind position?
    source? := ← optionalTextField? "source" j }

/-- The manifest that a value gives. -/
def listing? (j : Json) : Option Listing := do
  return {
    path := ← textField? "path" j
    applications := ← itemsField? application? "applications" j
    error? := ← optionalTextField? "error" j }

/-- The report that a value gives. -/
def report? (j : Json) : Option Report := do
  return ⟨← itemsField? listing? "manifests" j⟩

/-- The report that a text gives. -/
def read? (s : String) : Option Report := (Json.parse? s).bind report?

/-! ### What a value gives is what it was made from -/

theorem mapM_map_eq_some {α β : Type} {f : α → β} {g : β → Option α} :
    ∀ {l : List α}, (∀ a ∈ l, g (f a) = some a) → (l.map f).mapM g = some l
  | [], _ => rfl
  | a :: l, h => by
    rw [List.map_cons, List.mapM_cons, h a List.mem_cons_self,
      mapM_map_eq_some fun b hb => h b (List.mem_cons_of_mem a hb)]
    rfl

@[simp] theorem field?_object (key : String) (fields : List (String × Json)) :
    field? key (.object fields) = fields.lookup key := rfl

theorem position?_positionJson (p : Position) : position? (positionJson p) = some p := by
  simp [position?, positionJson, natField?, Json.nat?, List.lookup_cons]

theorem span?_spanJson (s : Span) : span? (spanJson s) = some s := by
  simp [span?, spanJson, natField?, Json.nat?, List.lookup_cons, s.ordered]

theorem application?_applicationJson (a : Application) :
    application? (applicationJson a) = some a := by
  obtain ⟨name, selected, rootLevel, span, start, stop, source?⟩ := a
  cases source? <;>
    simp [application?, applicationJson, textField?, boolField?, optionalTextField?, Json.string?,
      Json.bool?, Json.optionalField, List.lookup_cons, span?_spanJson, position?_positionJson]

theorem listing?_listingJson (m : Listing) : listing? (listingJson m) = some m := by
  have happlications : (m.applications.map applicationJson).mapM application? =
      some m.applications := mapM_map_eq_some fun a _ => application?_applicationJson a
  obtain ⟨path, applications, error?⟩ := m
  cases error? <;>
    simp [listing?, listingJson, textField?, itemsField?, optionalTextField?, Json.string?,
      Json.array?, Json.optionalField, List.lookup_cons, happlications]

/-- **The value of a report gives the report.** -/
theorem report?_toJson (r : Report) : report? r.toJson = some r := by
  have hmanifests : (r.manifests.map listingJson).mapM listing? = some r.manifests :=
    mapM_map_eq_some fun m _ => listing?_listingJson m
  simp [report?, toJson, itemsField?, Json.array?, hmanifests]

/-! ### Numbers that fit into 64 bits -/

/-- The numbers of an application fit into 64 bits. The start of its span lies in front of the end. -/
structure ApplicationFits (a : Application) : Prop where
  span : a.span.stop < Text.wordCount
  startLine : a.start.line < Text.wordCount
  startColumn : a.start.column < Text.wordCount
  stopLine : a.stop.line < Text.wordCount
  stopColumn : a.stop.column < Text.wordCount

/-- All numbers of the report fit into 64 bits. -/
def Fits (r : Report) : Prop := ∀ m ∈ r.manifests, ∀ a ∈ m.applications, ApplicationFits a

/-- The value is read back from its text as it is. -/
def Kept (j : Json) : Prop := Plain j ∧ seen j = j

theorem kept_string (s : String) : Kept (.string s) := ⟨trivial, rfl⟩

theorem kept_bool (b : Bool) : Kept (.bool b) := ⟨trivial, rfl⟩

theorem kept_nat {n : Nat} (h : n < Text.wordCount) : Kept (.nat n) := ⟨trivial, if_pos h⟩

theorem kept_array {items : List Json} (h : ∀ j ∈ items, Kept j) : Kept (.array items) := by
  suffices hitems : PlainItems items ∧ seenItems items = items from
    ⟨hitems.1, congrArg Json.array hitems.2⟩
  induction items with
  | nil => exact ⟨trivial, rfl⟩
  | cons j items ih =>
    obtain ⟨hj, hitems⟩ := List.forall_mem_cons.mp h
    obtain ⟨hplain, hseen⟩ := ih hitems
    exact ⟨⟨hj.1, hplain⟩, by rw [seenItems, hj.2, hseen]⟩

theorem kept_object {fields : List (String × Json)} (h : ∀ f ∈ fields, Kept f.2) :
    Kept (.object fields) := by
  suffices hfields : PlainFields fields ∧ seenFields fields = fields from
    ⟨hfields.1, congrArg Json.object hfields.2⟩
  induction fields with
  | nil => exact ⟨trivial, rfl⟩
  | cons f fields ih =>
    obtain ⟨hf, hfields⟩ := List.forall_mem_cons.mp h
    obtain ⟨hplain, hseen⟩ := ih hfields
    exact ⟨⟨hf.1, hplain⟩, by rw [seenFields, hf.2, hseen]⟩

theorem kept_optionalField (key : String) (s? : Option String) :
    ∀ f ∈ Json.optionalField key s?, Kept f.2 := by
  cases s? with
  | none => simp [Json.optionalField]
  | some s => simp [Json.optionalField, kept_string]

theorem kept_positionJson {p : Position} (hline : p.line < Text.wordCount)
    (hcolumn : p.column < Text.wordCount) : Kept (positionJson p) :=
  kept_object (by simp [kept_nat hline, kept_nat hcolumn])

theorem kept_spanJson {s : Span} (h : s.stop < Text.wordCount) : Kept (spanJson s) :=
  kept_object (by simp [kept_nat h, kept_nat (Nat.lt_of_le_of_lt s.ordered h)])

theorem kept_applicationJson {a : Application} (h : ApplicationFits a) :
    Kept (applicationJson a) := by
  refine kept_object (List.forall_mem_append.mpr ⟨?_, kept_optionalField _ _⟩)
  simp [kept_string, kept_bool, kept_spanJson h.span, kept_positionJson h.startLine h.startColumn,
    kept_positionJson h.stopLine h.stopColumn]

theorem kept_listingJson {m : Listing} (h : ∀ a ∈ m.applications, ApplicationFits a) :
    Kept (listingJson m) := by
  have happlications : Kept (.array (m.applications.map applicationJson)) :=
    kept_array (List.forall_mem_map.mpr fun a ha => kept_applicationJson (h a ha))
  refine kept_object (List.forall_mem_append.mpr ⟨?_, kept_optionalField _ _⟩)
  simp [kept_string, happlications]

theorem kept_toJson {r : Report} (h : Fits r) : Kept r.toJson := by
  have hmanifests : Kept (.array (r.manifests.map listingJson)) :=
    kept_array (List.forall_mem_map.mpr fun m hm => kept_listingJson (h m hm))
  exact kept_object (by simp [hmanifests])

/-! ### The text of a report -/

theorem parse?_print_toJson {r : Report} (h : Fits r) :
    Json.parse? r.toJson.print = some r.toJson := by
  obtain ⟨hplain, hseen⟩ := kept_toJson h
  rw [parse?_print hplain, hseen]

/-- The text of a report gives it back. -/
theorem read?_print_toJson {r : Report} (h : Fits r) : read? r.toJson.print = some r := by
  rw [read?, parse?_print_toJson h, Option.bind_some, report?_toJson]

/-- The text of a report reaches from a brace to a brace. -/
theorem exists_print_toJson (r : Report) :
    ∃ inner, r.toJson.print.toList = '{' :: (inner ++ ['}']) := by
  rw [Json.print, String.toList_ofList, toJson, printAt_object 0 (List.cons_ne_nil _ _)]
  exact ⟨_, by rw [← List.append_assoc, ← List.append_assoc]⟩

/-- **Reports in the JSON format lose nothing.** The rendering is one text of the report's value, with
nothing around its braces, and one line feed behind it. The text is read as that value, the value
gives the report back, and no other report has the same rendering. -/
theorem render_json_lossless {r : Report} (h : Fits r) :
    ∃ body : String, r.render .json = body ++ "\n" ∧
      (∃ inner, body.toList = '{' :: (inner ++ ['}'])) ∧
      Denotes body.toList r.toJson ∧ Json.parse? body = some r.toJson ∧ read? body = some r ∧
      ∀ r', Fits r' → r'.render .json = r.render .json → r' = r := by
  refine ⟨r.toJson.print, rfl, exists_print_toJson r, ?_, parse?_print_toJson h,
    read?_print_toJson h, ?_⟩
  · obtain ⟨hplain, hseen⟩ := kept_toJson h
    have hdenotes := denotes_printAt r.toJson 0 hplain
    rw [Json.print, String.toList_ofList]
    rwa [hseen] at hdenotes
  · intro r' h' hrender
    have htext : r'.toJson.print = r.toJson.print := (String.append_left_inj "\n").mp hrender
    have hread := read?_print_toJson h'
    rw [htext, read?_print_toJson h] at hread
    exact (Option.some.inj hread).symm

/-- An application with the largest numbers and with characters that need escapes. -/
def cornerApplication (source? : Option String) : Application where
  name := "\x00\x1f\"\\\n 😀"
  selected := true
  rootLevel := false
  span := ⟨0, 0xffffffffffffffff, by decide⟩
  start := ⟨1, 1⟩
  stop := ⟨0xffffffffffffffff, 0xffffffffffffffff⟩
  source?

/-- Two manifests, one with an application and one with an empty error. -/
def cornerReport (source? : Option String) : Report :=
  ⟨[⟨"a\tb", [cornerApplication source?], none⟩, ⟨"", [], some ""⟩]⟩

theorem fits_cornerReport (source? : Option String) : Fits (cornerReport source?) := by
  have hfirst : 1 < Text.wordCount := by decide
  have hlast : 0xffffffffffffffff < Text.wordCount := by decide
  have happlication : ApplicationFits (cornerApplication source?) :=
    ⟨hlast, hfirst, hfirst, hlast, hlast⟩
  simp [Fits, cornerReport, happlication]

/-- An empty source has a rendering of its own, which is read back as an empty source. -/
theorem render_json_lossless_corner : Fits (cornerReport (some "")) ∧
    (∃ body, (cornerReport (some "")).render .json = body ++ "\n" ∧
      read? body = some (cornerReport (some ""))) ∧
    (cornerReport none).render .json ≠ (cornerReport (some "")).render .json := by
  obtain ⟨body, hrender, -, -, -, hread, hinj⟩ := render_json_lossless (fits_cornerReport (some ""))
  refine ⟨fits_cornerReport _, ⟨body, hrender, hread⟩, fun hsame => ?_⟩
  have hnone : cornerReport none ≠ cornerReport (some "") := by simp [cornerReport, cornerApplication]
  exact hnone (hinj _ (fits_cornerReport none) hsame)

end Manifest.Proofs.JsonText.Reports
