import Manifest.Proofs.Absent.Documents
import Manifest.Proofs.Locating

/-! # Values that are left out

The reader gives a value that is left out as the scalar `~` at the place of a token, and the builder takes
it for the empty text if that token has no width. So in a text without tildes and backslashes a scalar
`~` appears exactly if a value is left out at a token that has width (`Phantom`): in front of the `?` of
a key, a comma, a closing bracket or brace, or a document marker. Main statement: `tilde_iff`; a text of
block collections without these has no scalar `~` (`no_tilde_of_block`). -/

namespace Manifest.Proofs.Absent

open Manifest.Yaml

/-- A value is left out at a token that has width. -/
def Phantom (e : MarkedEvent) : Prop := e.event = Event.absent ∧ e.start.index ≠ e.stop.index

/-- What a text holds for a token with width at which a value is left out. -/
def Sign (text : List Char) : Token.Kind → Prop
  | .key => '?' ∈ text
  | .flowEntry => ',' ∈ text
  | .flowSequenceEnd => ']' ∈ text
  | .flowMappingEnd => '}' ∈ text
  | .documentStart => ['-', '-', '-'] <:+: text
  | .documentEnd => ['.', '.', '.'] <:+: text
  | _ => False

theorem sign_of_gapAt {text : List Char} {kind : Token.Kind} (hgap : GapAt kind)
    (hshown : Shown text kind) : Sign text kind := by
  cases kind <;> first | exact hshown | exact absurd hgap id

theorem endsOnce_of_runs {r : Reader} {es : List MarkedEvent} (h : Runs r es) (hopens : Opens r) :
    EndsOnce es := by
  induction h with
  | done => trivial
  | step hstep rest ih =>
    exact ⟨eq_nil_of_runs (.step hstep rest) hopens, ih ((moves_of_step hstep).opens hopens)⟩

section

variable {s : String} {ns : List Node} {es : List MarkedEvent}

theorem exists_events (h : Yaml.parse s = .ok ns) :
    ∃ es, readEvents s = .ok es ∧ Node.ofEvents es = .ok ns := by
  unfold Yaml.parse at h
  split at h
  · cases h
  next es hread =>
    split at h
    · cases h
    next hbuild =>
      cases h
      exact ⟨es, hread, hbuild⟩

theorem taken?_of_phantom {e : MarkedEvent} (h : Phantom e) : taken? e = some "~" := by
  obtain ⟨hevent, hwidth⟩ := h
  rw [taken?, hevent]
  simp [Event.absent, hwidth]

/-- No token holds a tilde, so a scalar `~` stands for a value left out. -/
theorem phantom_of_taken? (htilde : '~' ∉ s.toList) (hescape : '\\' ∉ s.toList)
    (hread : readEvents s = .ok es) {e : MarkedEvent} (he : e ∈ es) (h : taken? e = some "~") :
    Phantom e ∧ ∃ t ∈ (TokenStream.ofText s).tokens, e = Event.absent.at t ∧
      Sign s.toList t.kind := by
  have hread' : ∀ t ∈ (TokenStream.ofText s).tokens, ReadOff s.toList t :=
    fun t ht => readOff_of_mem hescape ht
  cases origin_of_mem hread e he with
  | other hstructural =>
    unfold taken? at h
    split at h
    next hevent =>
      rw [hevent] at hstructural
      exact absurd hstructural id
    · cases h
  | ended => cases h
  | empty => simp [taken?] at h
  | @token t style text anchor tag? ht hkind =>
    have htext : text = "~" := by
      have hvalue := Option.some.inj h
      split at hvalue
      · exact absurd hvalue (by decide)
      · exact hvalue
    have hover : Over s.toList text.toList := by
      rcases hread' t ht with hshown | ⟨hbare, -⟩
      · rw [hkind] at hshown
        exact hshown
      · rw [hkind] at hbare
        exact absurd hbare id
    rcases hover '~' (by rw [htext]; decide) with hmem | hspace | hbreak
    · exact absurd hmem htilde
    · exact absurd hspace (by decide)
    · exact absurd hbreak (by decide)
  | @absent t ht hgap =>
    have hwidth : t.start.index ≠ t.stop.index := by
      intro heq
      simp [taken?, Event.at, Event.absent, heq] at h
    refine ⟨⟨rfl, hwidth⟩, t, ht, rfl, ?_⟩
    rcases hread' t ht with hshown | ⟨-, hpoint⟩
    · exact sign_of_gapAt hgap hshown
    · exact absurd (congrArg Mark.index hpoint) hwidth

theorem tilde_iff_phantom (htilde : '~' ∉ s.toList) (hescape : '\\' ∉ s.toList)
    (hread : readEvents s = .ok es) (hbuild : Node.ofEvents es = .ok ns) :
    "~" ∈ textsOfItems ns ↔ ∃ e ∈ es, Phantom e := by
  have hends : EndsOnce es :=
    endsOnce_of_runs (runs_of_readEvents hread) ⟨nofun, List.not_mem_nil⟩
  rw [mem_textsOfItems_iff hbuild hends]
  constructor
  · rintro ⟨e, he, h⟩
    exact ⟨e, he, (phantom_of_taken? htilde hescape hread he h).1⟩
  · rintro ⟨e, he, h⟩
    exact ⟨e, he, taken?_of_phantom h⟩

/-! ### Names -/

theorem mem_texts_of_get? {n m : Node} {key : String} (h : n.get? key = some m) {x : String}
    (hx : x ∈ texts m) : x ∈ texts n := by
  unfold Node.get? at h
  cases n with
  | scalar => cases h
  | sequence => cases h
  | mapping entries start stop =>
    obtain ⟨e, hfind, rfl⟩ := Option.map_eq_some_iff.mp h
    exact mem_textsOfEntries.mpr ⟨e, List.mem_of_find?_eq_some hfind, .inr hx⟩

theorem mem_texts_of_nameOf? {n : Node} {name : String} (h : Locator.nameOf? n = some name) :
    name ∈ texts n := by
  obtain ⟨m, hget, hscalar⟩ := Option.bind_eq_some_iff.mp h
  refine mem_texts_of_get? hget ?_
  cases m with
  | scalar text start stop =>
    cases hscalar
    exact List.mem_singleton_self _
  | sequence => cases hscalar
  | mapping => cases hscalar

/-- The name of an application is the text of a scalar. -/
theorem mem_texts_of_mem_entriesOf {d : Document} {root : Node} {e : Entry}
    (h : e ∈ Locator.entriesOf d root) : e.name ∈ texts root := by
  unfold Locator.entriesOf at h
  split at h
  next items hitems =>
    obtain ⟨m, hget, hsequence⟩ := Option.bind_eq_some_iff.mp hitems
    obtain ⟨item, hitem, hentry⟩ := List.mem_filterMap.mp h
    obtain ⟨name, hname, rfl⟩ := Option.map_eq_some_iff.mp hentry
    refine mem_texts_of_get? hget ?_
    cases m with
    | sequence items' start stop =>
      cases hsequence
      exact mem_textsOfItems.mpr ⟨item, hitem, mem_texts_of_nameOf? hname⟩
    | scalar => cases hsequence
    | mapping => cases hsequence
  · obtain ⟨name, hname, rfl⟩ := Option.map_eq_some_iff.mp (Option.mem_toList.mp h)
    exact mem_texts_of_nameOf? hname

theorem mem_textsOfItems_of_mem_names {d : Document} (h : Yaml.parse d.text = .ok ns) {l : Locator}
    {previous? : Option Selection} {name : String} (hname : name ∈ (l.locate d previous?).names) :
    name ∈ textsOfItems ns := by
  obtain ⟨e, he, rfl⟩ := List.mem_map.mp hname
  rw [Locating.locate_eq, Locating.entries_chosen, Locating.entriesIn, h] at he
  have hfound : (Except.ok ns : Except Yaml.Error (List Node)).bind (Locating.found d) =
      (singleRoot ns).map (Locator.entriesOf d) := rfl
  rw [hfound] at he
  match ns, he with
  | [root], he =>
    exact mem_textsOfItems.mpr ⟨root, List.mem_singleton_self _, mem_texts_of_mem_entriesOf he⟩
  | [], he => cases he
  | _ :: _ :: _, he => cases he

/-- **A scalar `~` stands for a value left out at a token with width.** Let a text without tildes and
backslashes be read. A scalar `~` stands in its documents exactly if a value is left out at a token that
has width. Such a token is the `?` of a key, a comma, a closing bracket or brace, or a document marker,
and stands in the text. If there is none, no application is named `~`. -/
theorem tilde_iff (htilde : '~' ∉ s.toList) (hescape : '\\' ∉ s.toList) (h : Yaml.parse s = .ok ns) :
    ∃ es, readEvents s = .ok es ∧
      ((∃ n ∈ ns, "~" ∈ texts n) ↔ ∃ e ∈ es, Phantom e) ∧
      (∀ e ∈ es, Phantom e → ∃ t ∈ (TokenStream.ofText s).tokens, e = Event.absent.at t ∧
        Sign s.toList t.kind) ∧
      ∀ (d : Document) (l : Locator) (previous? : Option Selection), d.text = s →
        "~" ∈ (l.locate d previous?).names → ∃ e ∈ es, Phantom e := by
  obtain ⟨es, hread, hbuild⟩ := exists_events h
  have hiff := tilde_iff_phantom htilde hescape hread hbuild
  refine ⟨es, hread, mem_textsOfItems.symm.trans hiff, fun e he hphantom => ?_,
    fun d l previous? hd hname => ?_⟩
  · exact (phantom_of_taken? htilde hescape hread he (taken?_of_phantom hphantom)).2
  · exact hiff.mp (mem_textsOfItems_of_mem_names (hd ▸ h) hname)

/-- A text of block collections, without explicit keys, commas and document markers, has no scalar `~`
either. -/
theorem no_tilde_of_block (htilde : '~' ∉ s.toList) (hescape : '\\' ∉ s.toList)
    (hsign : ∀ c ∈ s.toList, c ≠ '?' ∧ c ≠ ',' ∧ c ≠ ']' ∧ c ≠ '}')
    (hstart : ¬['-', '-', '-'] <:+: s.toList) (hend : ¬['.', '.', '.'] <:+: s.toList)
    (h : Yaml.parse s = .ok ns) : ∀ n ∈ ns, "~" ∉ texts n := by
  intro n hn hmem
  obtain ⟨es, hread, hbuild⟩ := exists_events h
  obtain ⟨e, he, hphantom⟩ :=
    (tilde_iff_phantom htilde hescape hread hbuild).mp (mem_textsOfItems.mpr ⟨n, hn, hmem⟩)
  obtain ⟨-, t, -, -, htoken⟩ :=
    phantom_of_taken? htilde hescape hread he (taken?_of_phantom hphantom)
  unfold Sign at htoken
  split at htoken
  · exact (hsign _ htoken).1 rfl
  · exact (hsign _ htoken).2.1 rfl
  · exact (hsign _ htoken).2.2.1 rfl
  · exact (hsign _ htoken).2.2.2 rfl
  · exact hstart htoken
  · exact hend htoken
  · exact htoken

end

/-- A value is left out in front of the closing brace. -/
theorem tilde_iff_braces : ∃ ns es, '~' ∉ "{name}".toList ∧ '\\' ∉ "{name}".toList ∧
    Yaml.parse "{name}" = .ok ns ∧ readEvents "{name}" = .ok es ∧ (∃ n ∈ ns, "~" ∈ texts n) ∧
      ∃ e ∈ es, Phantom e := by
  have htexts : (Yaml.parse "{name}").toOption.map textsOfItems = some ["name", "~"] := by
    decide +kernel
  obtain ⟨ns, hoption, hns⟩ := Option.map_eq_some_iff.mp htexts
  have hparse : Yaml.parse "{name}" = .ok ns := by
    cases h : Yaml.parse "{name}" with
    | error e =>
      rw [h] at hoption
      cases hoption
    | ok ns' =>
      rw [h] at hoption
      cases hoption
      rfl
  have htilde : '~' ∉ "{name}".toList := by decide
  have hescape : '\\' ∉ "{name}".toList := by decide
  have hmem : ∃ n ∈ ns, "~" ∈ texts n := by
    rw [← mem_textsOfItems, hns]
    decide
  obtain ⟨es, hread, hiff, -, -⟩ := tilde_iff htilde hescape hparse
  exact ⟨ns, es, htilde, hescape, hparse, hread, hmem, hiff.mp hmem⟩

end Manifest.Proofs.Absent
