import Manifest.Proofs.Continuity
import Manifest.Proofs.Sessions

/-! # What a session remembers

All that a session carries from one pass to the next is the name and the start of the selected entry,
and with a pinned name not even that. Two sessions that agree on it (`Agrees`) are told apart by no
pass, however different what they have seen before, and neither are they by dirty spans; each pass
over the same document leaves them in agreement (`agrees_take`). So what a session locates from there
on depends on the documents alone (`locatedIn_eq`).

Where a pass finds no entries there is nothing to carry on, and the session is again as it was at the
start (`take_eq_start`). That is so for a document that cannot be read, that does not hold exactly one
tree, or whose tree names no application (`Nameless`). -/

namespace Manifest.Proofs.Memory

open Manifest.Locator Manifest.Proofs.Continuity Manifest.Proofs.Locating Manifest.Proofs.Selection
open Manifest.Proofs.Sessions

/-! ### Steps -/

/-- The document of a pass; a reset has none. -/
def document? : Step → Option Document
  | .initial d | .reconcile d _ => some d
  | .reset => none

/-- What the passes of a run locate. -/
def locatedIn (s : Session) (steps : List Step) : List (Option Located) :=
  (trace s steps).map (Option.map Pass.located)

/-- A pass over the document of a step, or a reset. -/
def plain (s : Session) : Option Document → Option Pass × Session
  | some d => ((s.reconcile d none).1, (s.reconcile d none).2)
  | none => (none, s.reset)

/-- Nothing about a step counts but its document. -/
theorem take_eq_plain (s : Session) (step : Step) : step.take s = plain s (document? step) := by
  cases step <;> rfl

/-! ### Agreement -/

/-- Two sessions carry the same on to their next passes. -/
structure Agrees (s s' : Session) : Prop where
  locator : s.locator = s'.locator
  selection : s.locator.pinned?.isSome ∨ s.selection? = s'.selection?

variable {s s' : Session}

theorem located_reconcile (s : Session) (d : Document) (dirty? : Option Span) :
    (s.reconcile d dirty?).1.located = chosen s.locator s.selection? (entriesIn d) := by
  rw [reconcile_eq]

/-- A pin leaves the previous selection nothing to decide. -/
theorem chosen_of_agrees (h : Agrees s s') (es : List Entry) :
    chosen s.locator s.selection? es = chosen s'.locator s'.selection? es := by
  rw [← h.locator]
  rcases h.selection with hpin | hsel
  · obtain ⟨name, hname⟩ := Option.isSome_iff_exists.mp hpin
    rw [chosen, chosen, select?_eq_of_pinned hname s.selection? s'.selection?]
  · rw [hsel]

theorem located_of_agrees (h : Agrees s s') (d : Document) (dirty? dirty'? : Option Span) :
    (s.reconcile d dirty?).1.located = (s'.reconcile d dirty'?).1.located := by
  rw [located_reconcile, located_reconcile, chosen_of_agrees h]

/-- Sessions of one locator that have located the same agree. -/
theorem agrees_of_current (hl : s.locator = s'.locator) (hc : s.current = s'.current) :
    Agrees s s' :=
  ⟨hl, .inr (by rw [Session.selection?, hc, Session.selection?])⟩

/-- **Steps over the same document keep the agreement**, and what they locate is the same. -/
theorem agrees_take (h : Agrees s s') {step step' : Step} (hd : document? step = document? step') :
    Agrees (step.take s).2 (step'.take s').2 ∧
      (step.take s).1.map Pass.located = (step'.take s').1.map Pass.located := by
  rw [take_eq_plain, take_eq_plain, ← hd]
  cases document? step with
  | none => exact ⟨agrees_of_current h.locator rfl, rfl⟩
  | some d =>
    have hlocated := located_of_agrees h d none none
    exact ⟨agrees_of_current h.locator hlocated, congrArg some hlocated⟩

/-- **Sessions in agreement locate the same in all further passes** over the same documents. -/
theorem locatedIn_eq (h : Agrees s s') {steps steps' : List Step}
    (hd : steps.map document? = steps'.map document?) : locatedIn s steps = locatedIn s' steps' := by
  induction steps generalizing s s' steps' with
  | nil =>
    obtain rfl : steps' = [] := List.map_eq_nil_iff.mp hd.symm
    rfl
  | cons step steps ih =>
    obtain ⟨step', rest, rfl, hstep, hrest⟩ := List.map_eq_cons_iff.mp hd.symm
    obtain ⟨hnext, hlocated⟩ := agrees_take h hstep.symm
    exact congrArg₂ List.cons hlocated (ih hnext hrest.symm)

/-- What a session tells depends on its steps through their documents only. -/
theorem trace_eq (s : Session) {steps steps' : List Step}
    (hd : steps.map document? = steps'.map document?) : trace s steps = trace s steps' := by
  induction steps generalizing s steps' with
  | nil =>
    obtain rfl : steps' = [] := List.map_eq_nil_iff.mp hd.symm
    rfl
  | cons step steps ih =>
    obtain ⟨step', rest, rfl, hstep, hrest⟩ := List.map_eq_cons_iff.mp hd.symm
    rw [trace, trace, take_eq_plain s step, take_eq_plain s step', hstep, ih _ hrest.symm]

/-! ### Forgetting -/

/-- No application is named in a document: it cannot be read, does not hold exactly one tree, or names
none in its tree. -/
inductive Nameless (d : Document) : Prop
  | malformed {e : Yaml.Error} (h : Yaml.parse d.text = .error e)
  | notOne {stream : List Yaml.Node} (h : Yaml.parse d.text = .ok stream) (hlen : stream.length ≠ 1)
  | noNames {root : Yaml.Node} (h : Yaml.parse d.text = .ok [root]) (hnone : entriesOf d root = [])

theorem singleRoot_of_length_ne_one {stream : List Yaml.Node} (h : stream.length ≠ 1) :
    Yaml.singleRoot stream = .error (.documents stream.length) := by
  match stream, h with
  | [], _ => rfl
  | _ :: _ :: _, _ => rfl

/-- Nothing is found in a document exactly if no application is named in it. -/
theorem entriesIn_eq_nil_iff {d : Document} : entriesIn d = [] ↔ Nameless d := by
  cases hparse : Yaml.parse d.text with
  | error e =>
    have hnil : entriesIn d = [] := by rw [entriesIn, hparse]; rfl
    exact iff_of_true hnil (.malformed hparse)
  | ok stream =>
    by_cases hlen : stream.length = 1
    · obtain ⟨root, rfl⟩ := List.length_eq_one_iff.mp hlen
      have hentries : entriesIn d = entriesOf d root := by rw [entriesIn, hparse]; rfl
      rw [hentries]
      refine ⟨.noNames hparse, fun h => ?_⟩
      cases h with
      | malformed h => rw [hparse] at h; cases h
      | notOne h hne => rw [hparse] at h; cases h; exact absurd rfl hne
      | noNames h hnone => rw [hparse] at h; cases h; exact hnone
    · have hnil : entriesIn d = [] := by
        rw [entriesIn, hparse, Except.bind, found, singleRoot_of_length_ne_one hlen]
        rfl
      exact iff_of_true hnil (.notOne hparse hlen)

theorem eq_empty_of_entries {l : Located} (h : l.entries = []) : l = .empty := by
  refine Located.ext h ?_
  rw [Located.empty, Option.eq_none_iff_forall_not_mem]
  intro i hi
  have hlt := l.selected_lt i hi
  rw [h] at hlt
  exact absurd hlt (Nat.not_lt_zero i)

theorem locator_take (s : Session) (step : Step) : (step.take s).2.locator = s.locator := by
  cases step <;> rfl

theorem locator_run (s : Session) (steps : List Step) : (run s steps).locator = s.locator := by
  induction steps generalizing s with
  | nil => rfl
  | cons step steps ih => exact (ih _).trans (locator_take s step)

/-- A reset, or a pass that finds no entries. -/
def Clears (s : Session) (step : Step) : Prop :=
  ∀ pass, (step.take s).1 = some pass → pass.located.entries = []

/-- **A session that has found nothing is as it was at the start.** -/
theorem take_eq_start {step : Step} (h : Clears s step) : (step.take s).2 = .start s.locator := by
  have hcurrent : (step.take s).2.current = .empty := by
    cases htake : (step.take s).1 with
    | none => exact take_eq_none htake
    | some pass =>
      rw [(take_eq_pass htake).1]
      exact eq_empty_of_entries (h pass htake)
  have hlocator := locator_take s step
  cases hs : (step.take s).2 with
  | mk locator current =>
    rw [hs] at hcurrent hlocator
    rw [Session.start, ← hlocator, ← hcurrent]

/-! ### Two histories -/

/-- **A session remembers its selection only.** Take two sessions of one locator with any two
histories. In the same document they find the same entries, whatever spans are dirty. With a pin they
also select the same one, and without a pin they do if their selections agree; and so they do in all
further steps over the same documents. After a step that finds nothing, which is a reset or a pass
over a document in which no application is named, all further steps tell the same as those of a new
session, what is located and what has changed. -/
theorem session_remembers (l : Locator) (history history' : List Step) :
    let s := run (.start l) history
    let s' := run (.start l) history'
    (∀ d dirty? dirty'?, (s.reconcile d dirty?).1.located.entries =
      (s'.reconcile d dirty'?).1.located.entries) ∧
    (l.pinned?.isSome ∨ s.selection? = s'.selection? →
      (∀ d dirty? dirty'?,
        (s.reconcile d dirty?).1.located = (s'.reconcile d dirty'?).1.located) ∧
      ∀ more more', more.map document? = more'.map document? →
        locatedIn s more = locatedIn s' more') ∧
    (∀ d dirty?, (s.reconcile d dirty?).1.located.entries = [] ↔ Nameless d) ∧
    ∀ step, Clears s step → ∀ more more', more.map document? = more'.map document? →
      trace (step.take s).2 more = trace (.start l) more' := by
  intro s s'
  have hl : s.locator = l := locator_run (.start l) history
  have hl' : s'.locator = l := locator_run (.start l) history'
  refine ⟨fun d dirty? dirty'? => ?_, fun h => ?_, fun d dirty? => ?_, fun step h more more' hd => ?_⟩
  · rw [located_reconcile, located_reconcile, entries_chosen, entries_chosen]
  · have hagrees : Agrees s s' := ⟨hl.trans hl'.symm, by rwa [hl]⟩
    exact ⟨located_of_agrees hagrees, fun more more' => locatedIn_eq hagrees⟩
  · rw [located_reconcile, entries_chosen, entriesIn_eq_nil_iff]
  · rw [take_eq_start h, hl]
    exact trace_eq _ hd

/-- A root that is an application. -/
def shortHistory : List Step := [.initial (.ofText "name: x")]

/-- The root becomes an application of the same name, with more in it. -/
def longHistory : List Step :=
  [.initial (.ofText "applications: [\x7bname: y\x7d]"),
    .reconcile (.ofText "name: x\nkey: z") (some ⟨0, 3, by decide⟩)]

/-- A document in which the selected name is the second one. -/
def secondOfTwo : Document := .ofText "applications: [\x7bname: y\x7d, \x7bname: x\x7d]"

/-- A pass over a document that cannot be read. -/
def brokenStep : Step := .reconcile (.ofText "applications: [") none

theorem clears_brokenStep : Clears (run (.start ⟨none⟩) shortHistory) brokenStep := by
  intro pass hpass
  rw [← Option.some.inj hpass]
  decide +kernel

/-- The two sessions have found different entries and have selected the same. Behind a document that
cannot be read the first of two applications is selected again. -/
theorem session_remembers_selection :
    let s := run (.start ⟨none⟩) shortHistory
    let s' := run (.start ⟨none⟩) longHistory
    s.current ≠ s'.current ∧ s.selection? = s'.selection? ∧
      (s.reconcile secondOfTwo none).1.located.selected? = some 1 ∧
      (s.reconcile secondOfTwo none).1.located =
        (s'.reconcile secondOfTwo (some ⟨2, 5, by decide⟩)).1.located ∧
      trace (brokenStep.take s).2 [.initial secondOfTwo] =
        trace (.start ⟨none⟩) [.initial secondOfTwo] := by
  intro s s'
  have hsel : s.selection? = s'.selection? := by decide +kernel
  obtain ⟨-, hagree, -, hclear⟩ := session_remembers ⟨none⟩ shortHistory longHistory
  exact ⟨by decide +kernel, hsel, by decide +kernel, (hagree (.inr hsel)).1 _ _ _,
    hclear brokenStep clears_brokenStep _ _ rfl⟩

end Manifest.Proofs.Memory
