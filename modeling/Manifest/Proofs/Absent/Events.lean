import Manifest.Proofs.Absent.Steps

/-! # Where the events of a text come from

The reader stops by itself (`runs_of_readEvents`). What it expects once a value is left out cannot go on
in front of any token. So in a run to the end every value is left out at a token that shows it
(`origin_of_mem`). -/

namespace Manifest.Proofs.Absent

open Manifest.Yaml

/-! ### Runs -/

/-- A run of the machine to the end of the stream. -/
inductive Runs : Reader → List MarkedEvent → Prop
  | done {r : Reader} (h : r.expect = .nothing) : Runs r []
  | step {r r' : Reader} {e : MarkedEvent} {es : List MarkedEvent}
      (h : r.step? = some (.ok (e, r'))) (rest : Runs r' es) : Runs r (e :: es)

theorem expect_of_step_none {r : Reader} (h : r.step? = none) : r.expect = .nothing := by
  unfold Reader.step? at h
  split at h <;> first | assumption | cases h

/-- The machine stops before it runs out of fuel. -/
theorem runs_of_run : ∀ (fuel : Nat) {r : Reader} {before es : List MarkedEvent},
    weight r ≤ fuel → r.run fuel before = .ok es →
      ∃ es', es = before.reverse ++ es' ∧ Runs r es'
  | 0, r, before, es, hfuel, h => by
    cases h
    refine ⟨[], (List.append_nil _).symm, .done (Decidable.byContradiction fun hexpect => ?_)⟩
    have hpos := weighAt_pos r.tokens hexpect
    unfold weight at hfuel
    omega
  | fuel + 1, r, before, es, hfuel, h => by
    rw [Reader.run] at h
    split at h
    next hstep =>
      cases h
      exact ⟨[], (List.append_nil _).symm, .done (expect_of_step_none hstep)⟩
    · cases h
    next e r' hstep =>
      have hlighter := (moves_of_step hstep).lighter
      obtain ⟨es', rfl, hruns⟩ := runs_of_run fuel (by omega) h
      exact ⟨e :: es', by rw [List.reverse_cons, List.append_assoc]; rfl, .step hstep hruns⟩

theorem runs_of_readEvents {s : String} {es : List MarkedEvent} (h : readEvents s = .ok es) :
    Runs (.ofTokens (TokenStream.ofText s)) es := by
  have hfuel : weight (.ofTokens (TokenStream.ofText s)) ≤
      5 * (TokenStream.ofText s).tokens.length + 5 := by
    have hle : weighAt (TokenStream.ofText s).tokens .streamStart ≤ 5 := weighAt_le _ _
    show 5 * (TokenStream.ofText s).tokens.length +
      weighAt (TokenStream.ofText s).tokens .streamStart + 0 ≤ _
    omega
  obtain ⟨es', rfl, hruns⟩ := runs_of_run _ hfuel h
  exact hruns

/-! ### Where values are left out -/

section

variable {r r' : Reader} {e : MarkedEvent} {t : Token}

theorem peek_of_head? (ht : r.tokens.head? = some t) : r.peek = .ok t := by
  cases hs : r.tokens with
  | nil =>
    rw [hs] at ht
    cases ht
  | cons u rest =>
    rw [hs] at ht
    cases ht
    exact peek_eq_ok.mpr ⟨rest, hs⟩

theorem gapAt_of_readBlockKey (ht : r.peek = .ok t) (h : r.readBlockKey false = .ok (e, r')) :
    GapAt t.kind := by
  unfold Reader.readBlockKey at h
  obtain ⟨u, hu, h⟩ := bind_eq_ok.mp h
  obtain rfl := Except.ok.inj (ht.symm.trans hu)
  split at h
  next hkind => exact hkind ▸ trivial
  next hkind => exact hkind ▸ trivial
  next hkind => exact hkind ▸ trivial
  · cases h

theorem gapAt_of_readFlowKey (ht : r.peek = .ok t) (h : r.readFlowKey false = .ok (e, r')) :
    GapAt t.kind := by
  unfold Reader.readFlowKey at h
  obtain ⟨u, hu, h⟩ := bind_eq_ok.mp h
  obtain rfl := Except.ok.inj (ht.symm.trans hu)
  split at h
  next hkind => exact hkind ▸ trivial
  split at h
  · cases h
  next hkind =>
    have hentry : t.kind = .flowEntry := by simpa using hkind
    exact hentry ▸ trivial

theorem gapAt_of_readFlowEntry (ht : r.peek = .ok t) (h : r.readFlowEntry false = .ok (e, r')) :
    GapAt t.kind := by
  unfold Reader.readFlowEntry at h
  obtain ⟨u, hu, h⟩ := bind_eq_ok.mp h
  obtain rfl := Except.ok.inj (ht.symm.trans hu)
  split at h
  next hkind => exact hkind ▸ trivial
  split at h
  · cases h
  next hkind =>
    have hentry : t.kind = .flowEntry := by simpa using hkind
    exact hentry ▸ trivial

theorem not_isDirective_of_readDocumentEnd (ht : r.peek = .ok t)
    (h : r.readDocumentEnd = .ok (e, r')) : ¬IsDirective t.kind := by
  unfold Reader.readDocumentEnd at h
  obtain ⟨u, hu, h⟩ := bind_eq_ok.mp h
  obtain rfl := Except.ok.inj (ht.symm.trans hu)
  split at h
  next hkind =>
    rw [hkind]
    exact id
  · split at h
    · cases h
    · cases h
    next hversion htag =>
      unfold IsDirective
      split
      next hkind => exact absurd hkind hversion
      next hkind => exact absurd hkind (htag _ _)
      · exact id

theorem exists_step_of_runs {es : List MarkedEvent} (h : Runs r es) (hexpect : r.expect ≠ .nothing) :
    ∃ e r' es', r.step? = some (.ok (e, r')) ∧ Runs r' es' := by
  cases h with
  | done h => exact absurd h hexpect
  | step h rest => exact ⟨_, _, _, h, rest⟩

/-- In front of the next part of a collection stands a token that shows it, or the end. -/
theorem gapAt_of_runs {es : List MarkedEvent} (h : Runs r es) (ht : r.tokens.head? = some t)
    (hinsists : Insists r.expect) : GapAt t.kind := by
  have hpeek := peek_of_head? ht
  unfold Insists at hinsists
  split at hinsists
  next hexpect =>
    obtain ⟨e, r', es', hstep, -⟩ := exists_step_of_runs h (by rw [hexpect]; nofun)
    rw [Reader.step?, hexpect] at hstep
    exact gapAt_of_readBlockKey hpeek (Option.some.inj hstep)
  next hexpect =>
    obtain ⟨e, r', es', hstep, -⟩ := exists_step_of_runs h (by rw [hexpect]; nofun)
    rw [Reader.step?, hexpect] at hstep
    exact gapAt_of_readFlowKey hpeek (Option.some.inj hstep)
  next a b hexpect =>
    -- the end of a mapping without braces passes no token
    obtain ⟨e, r₁, es', hstep, hruns⟩ := exists_step_of_runs h (by rw [hexpect]; nofun)
    rw [Reader.step?, hexpect] at hstep
    cases hstep
    have hpeek₁ : (r.expecting (.flowEntry false)).peek = .ok t := hpeek
    obtain ⟨e, r₂, es'', hstep, -⟩ := exists_step_of_runs hruns nofun
    exact gapAt_of_readFlowEntry hpeek₁ (Option.some.inj hstep)
  next => exact absurd hinsists id

theorem not_isDirective_of_runs {es : List MarkedEvent} (h : Runs r es)
    (ht : r.tokens.head? = some t) (hexpect : r.expect = .documentEnd) : ¬IsDirective t.kind := by
  obtain ⟨e, r', es', hstep, -⟩ := exists_step_of_runs h (by rw [hexpect]; nofun)
  rw [Reader.step?, hexpect] at hstep
  exact not_isDirective_of_readDocumentEnd (peek_of_head? ht) (Option.some.inj hstep)

/-- Where an event of a run over some tokens comes from. A value is left out at a token that shows it. -/
inductive Origin (tokens : List Token) : MarkedEvent → Prop
  | other {e : MarkedEvent} (h : Structural e.event) : Origin tokens e
  | ended {start stop : Mark} : Origin tokens ⟨.streamEnd, start, stop⟩
  | empty {style : Style} {anchor : Nat} {tag? : Option Tag} {start stop : Mark} :
      Origin tokens ⟨.scalar "" style anchor tag?, start, stop⟩
  | token {t : Token} {style : Style} {text : String} {anchor : Nat} {tag? : Option Tag}
      (h : t ∈ tokens) (hkind : t.kind = .scalar style text) :
      Origin tokens ((Event.scalar text style anchor tag?).at t)
  | absent {t : Token} (h : t ∈ tokens) (hgap : GapAt t.kind) :
      Origin tokens (Event.absent.at t)

theorem Source.origin {tokens : List Token} {es : List MarkedEvent} (h : Source tokens r' e)
    (hruns : Runs r' es) : Origin tokens e := by
  cases h with
  | other h => exact .other h
  | ended h => exact .ended
  | empty => exact .empty
  | token h hkind => exact .token h hkind
  | absent h hgap =>
    rcases hgap with hgap | ⟨ht, hinsists | ⟨hkind, hexpect⟩⟩
    · exact .absent h hgap
    · exact .absent h (gapAt_of_runs hruns ht hinsists)
    · exact absurd hkind (not_isDirective_of_runs hruns ht hexpect)

theorem Origin.mono {tokens tokens' : List Token} (h : Origin tokens e) (hsub : tokens ⊆ tokens') :
    Origin tokens' e := by
  cases h with
  | other h => exact .other h
  | ended => exact .ended
  | empty => exact .empty
  | token h hkind => exact .token (hsub h) hkind
  | absent h hgap => exact .absent (hsub h) hgap

theorem origin_of_runs {es : List MarkedEvent} (h : Runs r es) (hopens : Opens r) :
    ∀ e ∈ es, Origin r.tokens e := by
  induction h with
  | done => exact fun e he => absurd he List.not_mem_nil
  | step hstep rest ih =>
    have hmoves := moves_of_step hstep
    intro e he
    rcases List.mem_cons.mp he with rfl | he
    · exact (hmoves.source hopens).origin rest
    · exact (ih (hmoves.opens hopens) e he).mono hmoves.tokens.subset

/-- Nothing comes behind the end of the stream. -/
theorem eq_nil_of_runs {es : List MarkedEvent} (h : Runs r (e :: es)) (hopens : Opens r)
    (hend : e.event = .streamEnd) : es = [] := by
  cases h with
  | step hstep rest =>
    cases (moves_of_step hstep).source hopens with
    | ended hnothing =>
      cases rest with
      | done => rfl
      | step hstep' =>
        rw [Reader.step?, hnothing] at hstep'
        cases hstep'
    | other h =>
      rw [hend] at h
      exact absurd h id
    | empty => cases hend
    | token => cases hend
    | absent => cases hend

end

/-- **Where the events of a text come from.** -/
theorem origin_of_mem {s : String} {es : List MarkedEvent} (h : readEvents s = .ok es) :
    ∀ e ∈ es, Origin (TokenStream.ofText s).tokens e :=
  origin_of_runs (runs_of_readEvents h) ⟨nofun, List.not_mem_nil⟩

end Manifest.Proofs.Absent
