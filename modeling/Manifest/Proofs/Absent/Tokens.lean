import Manifest.Proofs.Absent.Scalars

/-! # What a text holds for its tokens

A token that has width, or is a scalar, is read off the text: the text holds its indicator or its
marker, and a scalar holds nothing but characters of the text and what line breaks are folded to
(`Shown`). All other tokens have no width. The lexer keeps this from its first token on
(`readOff_of_mem`), for a text without backslashes. -/

namespace Manifest.Proofs.Absent

open Manifest.Yaml

/-- What a text holds if a token of this kind is read off it. -/
def Shown (text : List Char) : Token.Kind → Prop
  | .flowSequenceStart => '[' ∈ text
  | .flowSequenceEnd => ']' ∈ text
  | .flowMappingStart => '{' ∈ text
  | .flowMappingEnd => '}' ∈ text
  | .flowEntry => ',' ∈ text
  | .key => '?' ∈ text
  | .documentStart => ['-', '-', '-'] <:+: text
  | .documentEnd => ['.', '.', '.'] <:+: text
  | .scalar _ s => Over text s.toList
  | .versionDirective | .tagDirective _ _ | .aliasOf _ | .anchor _ | .tag _ _ => True
  | .streamStart | .streamEnd | .blockSequenceStart | .blockMappingStart | .blockEnd | .blockEntry
  | .value => False

/-- A token of this kind may have no width. -/
def Bare : Token.Kind → Prop
  | .scalar _ _ => False
  | _ => True

/-- A token is read off a text, or it has no width. -/
def ReadOff (text : List Char) (t : Token) : Prop :=
  Shown text t.kind ∨ (Bare t.kind ∧ t.start = t.stop)

/-- The lexer stands in a text, and its tokens are read off it. -/
structure Reads (text : List Char) (l : Lexer) : Prop where
  cursor : l.cursor.rest <:+ text
  tokens : ∀ t ∈ l.tokens, ReadOff text t

theorem bind_eq_ok {ε α β : Type} {x : Except ε α} {f : α → Except ε β} {b : β} :
    x >>= f = .ok b ↔ ∃ a, x = .ok a ∧ f a = .ok b := by
  cases x with
  | error e => simp [bind, Except.bind]
  | ok a => simp [bind, Except.bind]

section

variable {text : List Char} {l l' : Lexer}

theorem readOff_point (kind : Token.Kind) (m : Mark) (h : Bare kind) :
    ReadOff text (.point kind m) :=
  .inr ⟨h, rfl⟩

theorem Reads.push (h : Reads text l) {t : Token} (ht : ReadOff text t) : Reads text (l.push t) :=
  ⟨h.cursor, List.forall_mem_cons.mpr ⟨ht, h.tokens⟩⟩

theorem Reads.insert (h : Reads text l) (position : Nat) {t : Token} (ht : ReadOff text t) :
    Reads text (l.insert position t) := by
  refine ⟨h.cursor, List.forall_mem_append.mpr ⟨?_, List.forall_mem_cons.mpr ⟨ht, ?_⟩⟩⟩
  · exact fun u hu => h.tokens u (List.mem_of_mem_take hu)
  · exact fun u hu => h.tokens u (List.mem_of_mem_drop hu)

/-! ### Indentation and candidates -/

theorem Reads.closeBlocks (h : Reads text l) (column : Int) : Reads text (l.closeBlocks column) := by
  have hgo : ∀ (is : List Indent) (l : Lexer), Reads text l →
      Reads text (Lexer.closeBlocks.go column l is) := by
    intro is
    induction is with
    | nil => exact fun l h => h
    | cons i rest ih =>
      intro l h
      rw [Lexer.closeBlocks.go]
      split
      · exact h
      · apply ih
        split
        · refine Reads.push ?_ (readOff_point .blockEnd _ trivial)
          exact ⟨h.cursor, h.tokens⟩
        · exact ⟨h.cursor, h.tokens⟩
  unfold Lexer.closeBlocks
  split
  · exact h
  · exact hgo _ l h

theorem Reads.dropLooseIndents (h : Reads text l) : Reads text l.dropLooseIndents := by
  have hgo : ∀ (is : List Indent) (l : Lexer), Reads text l →
      Reads text (Lexer.dropLooseIndents.go l is) := by
    intro is
    induction is with
    | nil => exact fun l h => h
    | cons i rest ih =>
      intro l h
      rw [Lexer.dropLooseIndents.go]
      split
      · exact h
      · exact ih _ ⟨h.cursor, h.tokens⟩
  exact hgo _ l h

theorem Reads.openBlock (h : Reads text l) (column : Nat) (position? : Option Nat)
    (kind : Token.Kind) (hkind : Bare kind) (m : Mark) :
    Reads text (l.openBlock column position? kind m) := by
  unfold Lexer.openBlock
  split
  · exact h
  · extract_lets l₁ l₂
    have h₁ : Reads text l₁ := by
      unfold l₁
      split
      · split
        · exact ⟨h.cursor, h.tokens⟩
        · exact h
      · exact h
    have h₂ : Reads text l₂ := ⟨h₁.cursor, h₁.tokens⟩
    clear_value l₁ l₂
    split
    · split
      · exact h₂.insert _ (readOff_point kind m hkind)
      · exact h₂.push (readOff_point kind m hkind)
    · exact h₁

theorem Reads.indentOne (h : Reads text l) : Reads text l.indentOne := by
  unfold Lexer.indentOne
  split
  · split
    · exact ⟨h.cursor, h.tokens⟩
    · exact h
  · exact h

theorem Reads.saveCandidate (h : Reads text l) : Reads text l.saveCandidate := by
  unfold Lexer.saveCandidate
  split
  · exact h
  · exact ⟨h.cursor, h.tokens⟩

theorem Reads.dropCandidate (h : Reads text l) (hok : l.dropCandidate = .ok l') : Reads text l' := by
  unfold Lexer.dropCandidate at hok
  split at hok
  · split at hok
    · cases hok
    · cases hok
      exact ⟨h.cursor, h.tokens⟩
  · cases hok
    exact h

theorem Reads.dropStale (h : Reads text l) (hok : l.dropStale = .ok l') : Reads text l' := by
  unfold Lexer.dropStale at hok
  split at hok
  · cases hok
  · cases hok
    exact ⟨h.cursor, h.tokens⟩

/-! ### Moving on -/

theorem Reads.skipGap (h : Reads text l) (hok : l.skipGap = .ok l') : Reads text l' := by
  unfold Lexer.skipGap at hok
  split at hok
  · cases hok
  next gap hgap =>
    cases hok
    exact ⟨(suffix_passGap hgap).trans h.cursor, h.tokens⟩

theorem Reads.skipIndicator (h : Reads text l) {n : Nat} (hok : l.skipIndicator n = .ok l') :
    Reads text l' := by
  unfold Lexer.skipIndicator at hok
  split at hok
  · cases hok
  next line hline =>
    cases hok
    exact ⟨(suffix_skipLineRest hline).trans ((suffix_take l.cursor n).trans h.cursor), h.tokens⟩

/-! ### Tokens -/

theorem Reads.fetchStreamEnd (h : Reads text l) (hok : l.fetchStreamEnd = .ok l') :
    Reads text l' := by
  unfold Lexer.fetchStreamEnd at hok
  extract_lets m c l₁ l₂ l₃ at hok
  have h₁ : Reads text l₁ := by
    unfold l₁
    split
    · exact h
    · exact ⟨h.cursor, h.tokens⟩
  clear_value l₁
  have h₂ : Reads text l₂ := ⟨h₁.cursor, h₁.tokens⟩
  have h₃ : Reads text l₃ := h₂.closeBlocks (-1)
  split at hok
  · cases hok
  · cases hok
    refine Reads.push ?_ (readOff_point .streamEnd _ trivial)
    exact ⟨h₃.cursor, h₃.tokens⟩

theorem Reads.fetchDirective (h : Reads text l) (hok : l.fetchDirective = .ok l') :
    Reads text l' := by
  simp only [Lexer.fetchDirective, bind_eq_ok] at hok
  obtain ⟨l₁, hdrop, ⟨t, c⟩, hscan, hl⟩ := hok
  have h₁ : Reads text l₁ := (h.closeBlocks (-1)).dropCandidate hdrop
  obtain ⟨hc, hkind⟩ := suffix_scanDirective hscan
  have ht : Shown text t.kind := by
    revert hkind
    cases t.kind <;> simp [IsDirective, Shown]
  cases hl
  refine Reads.push ?_ (.inl ht)
  exact ⟨hc.trans h₁.cursor, h₁.tokens⟩

theorem Reads.fetchDocumentMarker (h : Reads text l) (kind : Token.Kind) (hkind : Shown text kind)
    (hok : l.fetchDocumentMarker kind = .ok l') : Reads text l' := by
  simp only [Lexer.fetchDocumentMarker, bind_eq_ok] at hok
  obtain ⟨l₁, hdrop, hl⟩ := hok
  have h₁ : Reads text l₁ := (h.closeBlocks (-1)).dropCandidate hdrop
  cases hl
  refine Reads.push ?_ (.inl hkind)
  exact ⟨(suffix_take _ 3).trans h₁.cursor, h₁.tokens⟩

theorem Reads.fetchDocumentEnd (h : Reads text l) (hkind : Shown text .documentEnd)
    (hok : l.fetchDocumentEnd = .ok l') : Reads text l' := by
  simp only [Lexer.fetchDocumentEnd, bind_eq_ok] at hok
  obtain ⟨l₁, hmarker, line, hline, hl⟩ := hok
  have h₁ : Reads text l₁ := h.fetchDocumentMarker .documentEnd hkind hmarker
  split at hl
  · cases hl
    exact ⟨(suffix_skipLineRest hline).trans h₁.cursor, h₁.tokens⟩
  · cases hl

theorem Reads.fetchFlowStart (h : Reads text l) (kind : Token.Kind) (hkind : Shown text kind)
    (hok : l.fetchFlowStart kind = .ok l') : Reads text l' := by
  unfold Lexer.fetchFlowStart at hok
  extract_lets start l₁ l₂ l₃ l₄ at hok
  have h₁ : Reads text l₁ := h.saveCandidate.indentOne
  have h₄ : Reads text l₄ := by
    unfold l₄
    split
    · exact ⟨h₁.cursor, h₁.tokens⟩
    · exact ⟨h₁.cursor, h₁.tokens⟩
  clear_value l₄
  split at hok
  · cases hok
  · split at hok
    · cases hok
    next l₅ hskip =>
      cases hok
      exact (h₄.skipIndicator hskip).push (.inl hkind)

theorem Reads.closePair (h : Reads text l) : Reads text l.closePair := by
  unfold Lexer.closePair
  split
  · refine Reads.push ?_ (readOff_point .flowMappingEnd _ trivial)
    exact ⟨h.cursor, h.tokens⟩
  · exact h

theorem Reads.fetchFlowEnd (h : Reads text l) (kind : Token.Kind) (hkind : Shown text kind)
    (hok : l.fetchFlowEnd kind = .ok l') : Reads text l' := by
  simp -zeta only [Lexer.fetchFlowEnd, bind_eq_ok] at hok
  obtain ⟨l₁, hdrop, hok⟩ := hok
  have h₁ : Reads text l₁ := h.dropCandidate hdrop
  extract_lets l₂ l₃ lp l₄ start at hok
  have h₂ : Reads text l₂ := by
    unfold l₂
    split
    · exact h₁
    · exact ⟨h₁.cursor, h₁.tokens⟩
  have h₄ : Reads text l₄ := by
    unfold l₄
    split
    · have hp : Reads text lp := Reads.closePair ⟨h₂.cursor, h₂.tokens⟩
      exact ⟨hp.cursor, hp.tokens⟩
    · exact ⟨h₂.cursor, h₂.tokens⟩
  clear_value l₄
  obtain ⟨l₅, hskip, hok⟩ := bind_eq_ok.mp hok
  have h₅ : Reads text l₅ := h₄.skipIndicator hskip
  cases hok
  refine Reads.push ?_ (.inl hkind)
  split
  · exact ⟨h₅.cursor, h₅.tokens⟩
  · exact h₅

theorem Reads.fetchFlowEntry (h : Reads text l) (hkind : Shown text .flowEntry)
    (hok : l.fetchFlowEntry = .ok l') : Reads text l' := by
  simp -zeta only [Lexer.fetchFlowEntry, bind_eq_ok] at hok
  obtain ⟨l₁, hdrop, hok⟩ := hok
  extract_lets l₂ start at hok
  have h₁ : Reads text l₁ := h.dropCandidate hdrop
  have h₂ : Reads text l₂ := Reads.closePair ⟨h₁.cursor, h₁.tokens⟩
  obtain ⟨l₃, hskip, hok⟩ := bind_eq_ok.mp hok
  cases hok
  exact (h₂.skipIndicator hskip).push (.inl hkind)

theorem Reads.fetchBlockEntry (h : Reads text l) (hok : l.fetchBlockEntry = .ok l') :
    Reads text l' := by
  unfold Lexer.fetchBlockEntry at hok
  split at hok
  · cases hok
  split at hok
  · cases hok
  · extract_lets start l₁ l₂ at hok
    have h₁ : Reads text l₁ := ⟨(suffix_take _ 1).trans h.cursor, h.tokens⟩
    have h₂ : Reads text l₂ := h₁.openBlock start.column none .blockSequenceStart trivial start
    obtain ⟨line, hline, hok⟩ := bind_eq_ok.mp hok
    extract_lets rest l₃ l₄ at hok
    split at hok
    · cases hok
    · have h₃ : Reads text l₃ := ⟨(suffix_skipLineRest hline).trans h₂.cursor, h₂.tokens⟩
      have h₄ : Reads text l₄ := by
        unfold l₄
        split
        · exact h₃.indentOne
        · exact h₃
      obtain ⟨l₅, hdrop, hok⟩ := bind_eq_ok.mp hok
      have h₅ : Reads text l₅ := h₄.dropCandidate hdrop
      cases hok
      refine Reads.push ?_ (readOff_point .blockEntry _ trivial)
      exact ⟨h₅.cursor, h₅.tokens⟩

theorem Reads.fetchKey (h : Reads text l) (hkind : Shown text .key) (hok : l.fetchKey = .ok l') :
    Reads text l' := by
  unfold Lexer.fetchKey at hok
  extract_lets start l₁ at hok
  split at hok
  · cases hok
  · have h₁ : Reads text l₁ := by
      unfold l₁
      split
      · exact ⟨h.cursor, h.tokens⟩
      · exact h.openBlock start.column none .blockMappingStart trivial start
    obtain ⟨l₂, hdrop, hok⟩ := bind_eq_ok.mp hok
    obtain ⟨gap, hgap, hok⟩ := bind_eq_ok.mp hok
    have h₂ : Reads text l₂ := h₁.dropCandidate hdrop
    split at hok
    · cases hok
    · cases hok
      refine Reads.push ?_ (.inl hkind)
      exact ⟨(suffix_skipKeyGap hgap).trans ((suffix_take _ 1).trans h₂.cursor), h₂.tokens⟩

theorem Reads.fetchValue (h : Reads text l) (hok : l.fetchValue = .ok l') : Reads text l' := by
  unfold Lexer.fetchValue at hok
  extract_lets start k pair l₁ colon goOn at hok
  have h₁ : Reads text l₁ := by
    unfold l₁
    split
    · exact ⟨h.cursor, h.tokens⟩
    · exact h
  have hcolon : colon.rest <:+ text := (suffix_take _ 1).trans h₁.cursor
  have hgoOn : ∀ line : Cursor.LineRest, line.cursor.rest <:+ text → goOn line = .ok l' →
      Reads text l' := by
    intro line hline hok
    unfold goOn at hok
    extract_lets l₂ l₃ l₄ l₅ l₆ m₃ m₄ at hok
    have h₂ : Reads text l₂ := ⟨hline, h₁.tokens⟩
    clear_value l₂
    split at hok
    · cases hok
    split at hok
    · -- the candidate is the key
      have h₃ : Reads text l₃ := h₂.insert k.position (readOff_point .key _ trivial)
      have h₄ : Reads text l₄ := by
        unfold l₄
        split
        · exact h₃.insert k.position (readOff_point .flowMappingStart _ trivial)
        · exact h₃
      have h₅ : Reads text l₅ :=
        (h₄.openBlock k.mark.column (some k.position) .blockMappingStart trivial k.mark).indentOne
      split at hok
      · cases hok
      · cases hok
        refine Reads.push ?_ (readOff_point .value _ trivial)
        exact ⟨h₅.cursor, h₅.tokens⟩
    · -- there is no key
      have h₃ : Reads text m₃ := by
        unfold m₃
        split
        · exact h₂.push (readOff_point .flowMappingStart _ trivial)
        · exact h₂
      have h₄ : Reads text m₄ :=
        (h₃.openBlock start.column none .blockMappingStart trivial start).indentOne
      split at hok
      · cases hok
      · cases hok
        refine Reads.push ?_ (readOff_point .value _ trivial)
        exact ⟨h₄.cursor, h₄.tokens⟩
  split at hok
  · obtain ⟨line, hline, hok⟩ := bind_eq_ok.mp hok
    exact hgoOn line ((suffix_skipLineRest hline).trans hcolon) hok
  · exact hgoOn ⟨colon, false, true⟩ hcolon hok

theorem Reads.fetchAdjacentValue (h : Reads text l) (hok : l.fetchAdjacentValue = .ok l') :
    Reads text l' := by
  unfold Lexer.fetchAdjacentValue at hok
  split at hok
  · cases hok
  · exact h.fetchValue hok

theorem Reads.fetchAnchor (h : Reads text l) (kind : String → Token.Kind)
    (hkind : ∀ name, Shown text (kind name)) (hok : l.fetchAnchor kind = .ok l') :
    Reads text l' := by
  unfold Lexer.fetchAnchor at hok
  extract_lets start l₁ at hok
  have h₁ : Reads text l₁ := ⟨h.saveCandidate.cursor, h.saveCandidate.tokens⟩
  split at hok
  · cases hok
  next name c hname =>
    cases hok
    refine Reads.push ?_ (.inl (hkind name))
    exact ⟨(suffix_readAnchorName hname).trans ((suffix_take _ 1).trans h₁.cursor), h₁.tokens⟩

theorem Reads.fetchTag (h : Reads text l) (hok : l.fetchTag = .ok l') : Reads text l' := by
  unfold Lexer.fetchTag at hok
  extract_lets start l₁ at hok
  have h₁ : Reads text l₁ := ⟨h.saveCandidate.cursor, h.saveCandidate.tokens⟩
  split at hok
  · cases hok
  next handle tagSuffix c htag =>
    split at hok
    · cases hok
      refine Reads.push ?_ (.inl trivial)
      exact ⟨(suffix_readTag htag).trans h₁.cursor, h₁.tokens⟩
    · cases hok

theorem Reads.fetchBlockScalar (h : Reads text l) {literal : Bool}
    (hok : l.fetchBlockScalar literal = .ok l') : Reads text l' := by
  unfold Lexer.fetchBlockScalar at hok
  extract_lets l₀ l₁ style at hok
  have h₁ : Reads text l₁ := by
    refine Reads.dropLooseIndents ?_
    exact ⟨h.saveCandidate.cursor, h.saveCandidate.tokens⟩
  split at hok
  · cases hok
  next s hscan =>
    obtain ⟨hc, hs⟩ := block_scan hscan h₁.cursor
    cases hok
    refine Reads.push ?_ (.inl hs)
    exact ⟨hc, h₁.tokens⟩

theorem Reads.fetchQuoted (htext : '\\' ∉ text) (h : Reads text l) {single : Bool}
    (hok : l.fetchQuoted single = .ok l') : Reads text l' := by
  unfold Lexer.fetchQuoted at hok
  extract_lets start l₁ at hok
  have h₁ : Reads text l₁ := ⟨h.saveCandidate.cursor, h.saveCandidate.tokens⟩
  obtain ⟨s, hscan, hok⟩ := bind_eq_ok.mp hok
  obtain ⟨hc, hs⟩ := quoted_scan htext hscan h₁.cursor
  obtain ⟨l₂, hgap, hok⟩ := bind_eq_ok.mp hok
  have h₂ : Reads text l₂ := by
    refine Reads.skipGap ?_ hgap
    exact ⟨hc, h₁.tokens⟩
  cases hok
  refine Reads.push ?_ (.inl hs)
  exact ⟨h₂.cursor, h₂.tokens⟩

theorem Reads.fetchPlain (h : Reads text l) (hok : l.fetchPlain = .ok l') : Reads text l' := by
  unfold Lexer.fetchPlain at hok
  extract_lets start l₀ l₁ at hok
  have h₁ : Reads text l₁ := by
    refine Reads.dropLooseIndents ?_
    exact ⟨h.saveCandidate.cursor, h.saveCandidate.tokens⟩
  split at hok
  · cases hok
  next s hscan =>
    obtain ⟨hc, hs⟩ := plain_scan hscan h₁.cursor
    cases hok
    refine Reads.push ?_ (.inl hs)
    exact ⟨hc, h₁.tokens⟩

theorem Reads.fetchFrom (htext : '\\' ∉ text) (h : Reads text l) {c : Char} {rest : List Char}
    (hrest : l.cursor.rest = c :: rest) (hok : l.fetchFrom c rest = .ok l') : Reads text l' := by
  have hc : c ∈ text := h.cursor.subset (by rw [hrest]; exact List.mem_cons_self)
  unfold Lexer.fetchFrom at hok
  split at hok
  · exact h.fetchFlowStart .flowSequenceStart hc hok
  · exact h.fetchFlowStart .flowMappingStart hc hok
  · exact h.fetchFlowEnd .flowSequenceEnd hc hok
  · exact h.fetchFlowEnd .flowMappingEnd hc hok
  · exact h.fetchFlowEntry hc hok
  · split at hok
    · exact h.fetchBlockEntry hok
    · exact h.fetchPlain hok
  · split at hok
    · exact h.fetchKey hc hok
    · exact h.fetchPlain hok
  · split at hok
    · exact h.fetchValue hok
    split at hok
    · exact h.fetchAdjacentValue hok
    · exact h.fetchPlain hok
  · exact h.fetchAnchor .aliasOf (fun _ => trivial) hok
  · exact h.fetchAnchor .anchor (fun _ => trivial) hok
  · exact h.fetchTag hok
  · split at hok
    · exact h.fetchPlain hok
    · exact h.fetchBlockScalar hok
  · split at hok
    · exact h.fetchPlain hok
    · exact h.fetchBlockScalar hok
  · exact h.fetchQuoted htext hok
  · exact h.fetchQuoted htext hok
  · cases hok
  · cases hok
  · cases hok
  · exact h.fetchPlain hok

theorem infix_of_atMarker {x : Char} {cs : List Char} (h : atMarker x cs = true)
    (hcs : cs <:+ text) : [x, x, x] <:+: text := by
  unfold atMarker at h
  split at h
  next a b c rest =>
    simp only [Bool.and_eq_true, beq_iff_eq] at h
    obtain ⟨⟨⟨rfl, rfl⟩, rfl⟩, -⟩ := h
    exact List.IsInfix.trans ⟨[], rest, rfl⟩ hcs.isInfix
  · cases h

theorem Reads.fetch (htext : '\\' ∉ text) (h : Reads text l) (hok : l.fetch = .ok l') :
    Reads text l' := by
  unfold Lexer.fetch at hok
  obtain ⟨l₁, hgap, hok⟩ := bind_eq_ok.mp hok
  obtain ⟨l₂, hstale, hok⟩ := bind_eq_ok.mp hok
  extract_lets l₃ at hok
  have h₃ : Reads text l₃ := ((h.skipGap hgap).dropStale hstale).closeBlocks _
  split at hok
  · exact h₃.fetchStreamEnd hok
  next c rest hrest =>
    have hcs : c :: rest <:+ text := hrest ▸ h₃.cursor
    split at hok
    · exact h₃.fetchDirective hok
    split at hok
    next hmarker =>
      exact h₃.fetchDocumentMarker .documentStart (infix_of_atMarker hmarker.2 hcs) hok
    split at hok
    next hmarker =>
      exact h₃.fetchDocumentEnd (infix_of_atMarker hmarker.2 hcs) hok
    split at hok
    · cases hok
    · exact h₃.fetchFrom htext hrest hok

/-! ### All tokens -/

theorem Reads.run (htext : '\\' ∉ text) : ∀ (fuel : Nat) {l : Lexer}, Reads text l →
    ∀ t ∈ (l.run fuel).tokens, ReadOff text t
  | 0, l, h, t, ht => h.tokens t (List.mem_of_mem_drop (List.mem_reverse.mp ht))
  | fuel + 1, l, h, t, ht => by
    rw [Lexer.run] at ht
    split at ht
    · exact h.tokens t (List.mem_of_mem_drop (List.mem_reverse.mp ht))
    next l₁ hstale =>
      have h₁ : Reads text l₁.settle := ⟨(h.dropStale hstale).cursor, (h.dropStale hstale).tokens⟩
      dsimp only at ht
      split at ht
      · exact h₁.tokens t (List.mem_reverse.mp ht)
      · split at ht
        · exact h₁.tokens t (List.mem_of_mem_drop (List.mem_reverse.mp ht))
        next hfetch => exact Reads.run htext fuel (h₁.fetch htext hfetch) t ht

end

theorem Shown.mono {text text' : List Char} (h : text <:+: text') {kind : Token.Kind}
    (hkind : Shown text kind) : Shown text' kind := by
  cases kind with
  | flowSequenceStart | flowSequenceEnd | flowMappingStart | flowMappingEnd | flowEntry | key =>
    exact h.subset hkind
  | documentStart | documentEnd => exact List.IsInfix.trans hkind h
  | scalar style s => exact fun c hc => (hkind c hc).imp_left fun hc => h.subset hc
  | _ => exact hkind

/-- **Tokens are read off the text**, if it has no backslashes. -/
theorem readOff_of_mem {s : String} (hs : '\\' ∉ s.toList) {t : Token}
    (ht : t ∈ (TokenStream.ofText s).tokens) : ReadOff s.toList t := by
  -- a NUL character ends the text
  let text := s.toList.takeWhile (· != '\x00')
  have htext : text <:+: s.toList := (List.takeWhile_prefix _).isInfix
  have hstart : Reads text (Lexer.ofText s) := by
    refine ⟨List.suffix_rfl, fun u hu => ?_⟩
    obtain rfl := List.mem_singleton.mp hu
    exact readOff_point .streamStart _ trivial
  exact (Reads.run (fun hc => hs (htext.subset hc)) _ hstart t ht).imp_left fun h => h.mono htext

end Manifest.Proofs.Absent
