import Manifest.Proofs.Absent.Tokens
import Manifest.Yaml.Event.Reader

/-! # What a step of the reader can do

One statement covers every step (`Moves`, `moves_of_step`): it goes forward in the tokens, it makes the
machine lighter, the content of a document stays in front of its end, and each scalar comes from a token
or stands for a value left out. The weight of the machine (`weight`) bounds the steps that it can still
take. Most steps go over some tokens and keep the stack (`Ahead`), and then complete a node, expect
something else or read a node. -/

namespace Manifest.Proofs.Absent

open Manifest.Yaml

/-! ### What a step can do -/

/-- The kinds of tokens at which a value can be left out. -/
def GapAt : Token.Kind → Prop
  | .blockEntry | .key | .value | .blockEnd | .flowEntry | .flowSequenceEnd | .flowMappingEnd
  | .documentStart | .documentEnd | .streamEnd => True
  | _ => False

/-- The event is neither a scalar nor the end of the stream. -/
def Structural : Event → Prop
  | .scalar _ _ _ _ | .streamEnd => False
  | _ => True

/-- What is expected goes on only in front of a token at which a value can be left out. -/
def Insists : Expect → Prop
  | .blockKey false | .flowKey false | .pairEnd _ _ => True
  | _ => False

/-- Where an event comes from that is read in front of some tokens. A value is left out at a token that
shows this, or else at the next token where what is expected then insists on such a one. -/
inductive Source (tokens : List Token) (r' : Reader) : MarkedEvent → Prop
  | other {e : MarkedEvent} (h : Structural e.event) : Source tokens r' e
  | ended {start stop : Mark} (h : r'.expect = .nothing) :
      Source tokens r' ⟨.streamEnd, start, stop⟩
  | empty {style : Style} {anchor : Nat} {tag? : Option Tag} {start stop : Mark} :
      Source tokens r' ⟨.scalar "" style anchor tag?, start, stop⟩
  | token {t : Token} {style : Style} {text : String} {anchor : Nat} {tag? : Option Tag}
      (h : t ∈ tokens) (hkind : t.kind = .scalar style text) :
      Source tokens r' ((Event.scalar text style anchor tag?).at t)
  | absent {t : Token} (h : t ∈ tokens)
      (hgap : GapAt t.kind ∨ (r'.tokens.head? = some t ∧
        (Insists r'.expect ∨ (IsDirective t.kind ∧ r'.expect = .documentEnd)))) :
      Source tokens r' (Event.absent.at t)

/-- How many steps an expectation can take that pass no token. -/
def weigh : Expect → Nat
  | .nothing => 0
  | .blockEntry _ | .looseEntry | .flowEntry _ | .flowKey _ | .blockKey true | .document false => 1
  | .documentEnd | .blockValue | .pairEnd _ _ | .flowValue | .flowNoValue => 2
  | .documentContent | .blockNode | .blockKey false | .pairValue => 3
  | .streamStart => 5
  | .document true | .pairKey => 6

/-- The same for all expectations on a stack. -/
def weighAll : List Expect → Nat
  | [] => 0
  | x :: stack => weigh x + weighAll stack

/-- The same for the current expectation: a key of a block mapping is left out only in front of the
indicator of its value. -/
def weighAt (tokens : List Token) (e : Expect) : Nat :=
  if e = .blockKey false ∧ tokens.head?.all (·.kind ≠ .value) then 1 else weigh e

/-- More steps than the machine can still take. -/
def weight (r : Reader) : Nat :=
  5 * r.tokens.length + weighAt r.tokens r.expect + weighAll r.stack

/-- The content of a document is expected in front of the end of the document. -/
def Opens (r : Reader) : Prop :=
  (r.expect = .documentContent → r.stack.head? = some .documentEnd) ∧ .documentContent ∉ r.stack

/-- What every step does. -/
structure Moves (r : Reader) (e : MarkedEvent) (r' : Reader) : Prop where
  tokens : r'.tokens <:+ r.tokens
  lighter : weight r' < weight r
  opens : Opens r → Opens r'
  source : Opens r → Source r.tokens r' e

/-- What is expected behind the start of a collection. -/
def Opening : Expect → Prop
  | .flowEntry true | .flowKey true | .looseEntry | .blockEntry true | .blockKey true => True
  | _ => False

/-- What reading a node does. -/
structure ReadsNode (r : Reader) (e : MarkedEvent) (r' : Reader) : Prop where
  tokens : r'.tokens <:+ r.tokens
  expect : (r'.expect = r.stack.headD .nothing ∧ r'.stack = r.stack.tail) ∨
    (Opening r'.expect ∧ r'.stack = r.stack)
  source : Source r.tokens r' e

theorem peek_eq_ok {r : Reader} {t : Token} : r.peek = .ok t ↔ ∃ rest, r.tokens = t :: rest := by
  unfold Reader.peek
  cases r.tokens <;> simp

theorem weighAt_le (tokens : List Token) (e : Expect) : weighAt tokens e ≤ weigh e := by
  unfold weighAt
  split
  next h => rw [h.1]; decide
  · exact Nat.le_refl _

theorem readProperties_spec {r r' : Reader} {p : Reader.Properties}
    (h : r.readProperties = .ok (p, r')) :
    r'.tokens <:+ r.tokens ∧ r'.expect = r.expect ∧ r'.stack = r.stack := by
  have hnext : r.next.tokens <:+ r.tokens := List.tail_suffix _
  unfold Reader.readProperties at h
  obtain ⟨t, ht, h⟩ := bind_eq_ok.mp h
  split at h
  · simp only [Reader.declare, bind_eq_ok] at h
    obtain ⟨u, hu, h⟩ := h
    split at h
    · obtain ⟨tag, -, h⟩ := bind_eq_ok.mp h
      cases h
      exact ⟨(List.tail_suffix _).trans hnext, rfl, rfl⟩
    · cases h
      exact ⟨hnext, rfl, rfl⟩
  · simp only [Reader.declare, bind_eq_ok] at h
    obtain ⟨tag, -, u, hu, h⟩ := h
    split at h
    · cases h
      exact ⟨(List.tail_suffix _).trans hnext, rfl, rfl⟩
    · cases h
      exact ⟨hnext, rfl, rfl⟩
  · cases h
    exact ⟨List.suffix_rfl, rfl, rfl⟩

theorem readsNode {r r' : Reader} {block loose : Bool} {e : MarkedEvent}
    (h : r.readNode block loose = .ok (e, r')) : ReadsNode r e r' := by
  unfold Reader.readNode at h
  obtain ⟨t, ht, h⟩ := bind_eq_ok.mp h
  split at h
  · split at h
    · cases h
      exact ⟨List.tail_suffix _, .inl ⟨rfl, rfl⟩, .other trivial⟩
    · cases h
  · obtain ⟨⟨p, r₁⟩, hp, h⟩ := bind_eq_ok.mp h
    dsimp -zeta only at h
    obtain ⟨u, hu, h⟩ := bind_eq_ok.mp h
    extract_lets opened otherwise at h
    obtain ⟨htokens, hexpect, hstack⟩ := readProperties_spec hp
    obtain ⟨rest, hrest⟩ := peek_eq_ok.mp hu
    have hpopped : r₁.popped.expect = r.stack.headD .nothing ∧ r₁.popped.stack = r.stack.tail := by
      rw [← hstack]
      exact ⟨rfl, rfl⟩
    have hopened : ∀ (event : Event) (expect : Expect), opened event expect = .ok (e, r') →
        Opening expect → Structural event → ReadsNode r e r' := by
      intro event expect h hopening hevent
      cases h
      exact ⟨htokens, .inr ⟨hopening, hstack⟩, .other hevent⟩
    have hotherwise : otherwise = .ok (e, r') → ReadsNode r e r' := by
      intro h
      unfold otherwise at h
      split at h
      · cases h
        exact ⟨htokens, .inl hpopped, .empty⟩
      · cases h
    clear_value opened otherwise
    split at h
    next style text hkind =>
      have hu : u ∈ r.tokens := htokens.subset (by rw [hrest]; exact List.mem_cons_self)
      cases h
      exact ⟨(List.tail_suffix _).trans htokens, .inl hpopped, .token hu hkind⟩
    · exact hopened _ _ h trivial trivial
    · exact hopened _ _ h trivial trivial
    -- a collection that is not allowed here leaves the node empty
    iterate 3
      · split at h
        · exact hopened _ _ h trivial trivial
        · exact hotherwise h
    · exact hotherwise h

/-! ### What is expected -/

section

variable {r : Reader}

theorem weight_popped_le (r : Reader) :
    weight r.popped ≤ 5 * r.tokens.length + weighAll r.stack := by
  have heq : weight r.popped = 5 * r.tokens.length + weighAt r.tokens (r.stack.headD .nothing) +
      weighAll r.stack.tail := rfl
  have hle : weighAt r.tokens (r.stack.headD .nothing) ≤ weigh (r.stack.headD .nothing) :=
    weighAt_le _ _
  rw [heq]
  cases hs : r.stack with
  | nil =>
    rw [hs] at hle
    have hzero : weigh (([] : List Expect).headD .nothing) = 0 := rfl
    simp only [List.tail_nil, weighAll]
    omega
  | cons x rest =>
    rw [hs] at hle
    simp only [List.headD_cons, List.tail_cons, weighAll] at hle ⊢
    omega

theorem opens_popped (h : .documentContent ∉ r.stack) : Opens r.popped := by
  refine ⟨fun hexpect => ?_, fun hmem => h (List.mem_of_mem_tail hmem)⟩
  have hhead : r.stack.headD .nothing = .documentContent := hexpect
  cases hs : r.stack with
  | nil =>
    rw [hs] at hhead
    cases hhead
  | cons x rest =>
    rw [hs] at h hhead
    exact absurd (hhead ▸ List.mem_cons_self) h

theorem opens_of_ne (h : .documentContent ∉ r.stack) (hexpect : r.expect ≠ .documentContent) :
    Opens r :=
  ⟨fun heq => absurd heq hexpect, h⟩

theorem weigh_of_opening {e : Expect} (h : Opening e) : weigh e = 1 ∧ e ≠ .documentContent := by
  unfold Opening at h
  split at h <;> first | exact ⟨rfl, nofun⟩ | exact absurd h id

theorem ReadsNode.weight_le {r' : Reader} {e : MarkedEvent} (h : ReadsNode r e r') :
    weight r' ≤ 5 * r.tokens.length + 1 + weighAll r.stack := by
  have hlength := h.tokens.length_le
  rcases h.expect with ⟨hexpect, hstack⟩ | ⟨hopening, hstack⟩
  · have hpopped := weight_popped_le { r with tokens := r'.tokens }
    have heq : weight r' = weight { r with tokens := r'.tokens }.popped := by
      unfold weight
      rw [hexpect, hstack]
      rfl
    rw [heq]
    dsimp only at hpopped
    omega
  · have hle : weighAt r'.tokens r'.expect ≤ 1 := by
      rw [← (weigh_of_opening hopening).1]
      exact weighAt_le _ _
    unfold weight
    rw [hstack]
    omega

theorem ReadsNode.opens {r' : Reader} {e : MarkedEvent} (h : ReadsNode r e r')
    (hstack : .documentContent ∉ r.stack) : Opens r' := by
  rcases h.expect with ⟨hexpect, hstack'⟩ | ⟨hopening, hstack'⟩
  · have hpopped := opens_popped hstack
    unfold Opens at hpopped ⊢
    rw [hexpect, hstack']
    exact hpopped
  · exact opens_of_ne (hstack' ▸ hstack) (weigh_of_opening hopening).2

end

/-! ### Steps from a state further on -/

theorem Source.mono {tokens tokens' : List Token} {r' : Reader} {e : MarkedEvent}
    (h : Source tokens r' e) (hsub : tokens ⊆ tokens') : Source tokens' r' e := by
  cases h with
  | other h => exact .other h
  | ended h => exact .ended h
  | empty => exact .empty
  | token h hkind => exact .token (hsub h) hkind
  | absent h hgap => exact .absent (hsub h) hgap

/-- A state further on in the tokens, with the same stack. -/
structure Ahead (r₀ r : Reader) : Prop where
  tokens : r.tokens <:+ r₀.tokens
  stack : r.stack = r₀.stack

namespace Ahead

variable {r₀ r r' : Reader} {e : MarkedEvent}

theorem refl (r : Reader) : Ahead r r := ⟨List.suffix_rfl, rfl⟩

theorem next (h : Ahead r₀ r) : Ahead r₀ r.next := ⟨(List.tail_suffix _).trans h.tokens, h.stack⟩

theorem first (r : Reader) (first : Bool) : Ahead r (if first then r.next else r) := by
  cases first
  · exact refl r
  · exact (refl r).next

theorem length_le (h : Ahead r₀ r) : r.tokens.length ≤ r₀.tokens.length := h.tokens.length_le

theorem length_next (r : Reader) : r.next.tokens.length = r.tokens.length - 1 := List.length_tail

theorem length_pos {t : Token} (ht : r.peek = .ok t) : 0 < r.tokens.length := by
  obtain ⟨rest, hrest⟩ := peek_eq_ok.mp ht
  rw [hrest]
  exact Nat.succ_pos _

theorem head?_eq {t : Token} (ht : r.peek = .ok t) : r.tokens.head? = some t := by
  obtain ⟨rest, hrest⟩ := peek_eq_ok.mp ht
  rw [hrest]
  rfl

theorem mem (h : Ahead r₀ r) {t : Token} (ht : r.peek = .ok t) : t ∈ r₀.tokens := by
  obtain ⟨rest, hrest⟩ := peek_eq_ok.mp ht
  exact h.tokens.subset (by rw [hrest]; exact List.mem_cons_self)

theorem notMem (h : Ahead r₀ r) (hopens : Opens r₀) : .documentContent ∉ r.stack :=
  h.stack ▸ hopens.2

/-- Behind the start of a collection, or else behind the comma in front of an entry. -/
theorem passed {t : Token} (first : Bool) (ht : (if first then r.next else r).peek = .ok t) :
    Ahead r (if first then (if first then r.next else r) else (if first then r.next else r).next) ∧
      (if first then (if first then r.next else r)
        else (if first then r.next else r).next).tokens.length + 1 = r.tokens.length := by
  have hpos := length_pos ht
  have hnext := length_next r
  cases first with
  | true =>
    have hpos' : 0 < r.next.tokens.length := hpos
    refine ⟨(refl r).next, ?_⟩
    show r.next.tokens.length + 1 = r.tokens.length
    omega
  | false =>
    have hpos' : 0 < r.tokens.length := hpos
    refine ⟨(refl r).next, ?_⟩
    show r.next.tokens.length + 1 = r.tokens.length
    omega

/-- The current node is complete. -/
theorem popped (h : Ahead r₀ r) (hw : 0 < weighAt r₀.tokens r₀.expect)
    (hsource : Opens r₀ → Source r₀.tokens r.popped e) : Moves r₀ e r.popped := by
  refine ⟨h.tokens, ?_, fun hopens => opens_popped (h.notMem hopens), hsource⟩
  have hlength := h.length_le
  have hle := weight_popped_le r
  rw [h.stack] at hle
  unfold weight at hle ⊢
  omega

/-- Something else is expected. -/
theorem expectingAt (h : Ahead r₀ r) (x : Expect) (hx : x ≠ .documentContent)
    (hw : 5 * r.tokens.length + weighAt r.tokens x <
      5 * r₀.tokens.length + weighAt r₀.tokens r₀.expect)
    (hsource : Source r₀.tokens (r.expecting x) e) : Moves r₀ e (r.expecting x) := by
  refine ⟨h.tokens, ?_, fun hopens => opens_of_ne (h.notMem hopens) hx, fun _ => hsource⟩
  have hweight : weight (r.expecting x) =
      5 * r.tokens.length + weighAt r.tokens x + weighAll r₀.stack := by
    rw [← h.stack]
    rfl
  rw [hweight]
  unfold weight
  omega

theorem expecting (h : Ahead r₀ r) (x : Expect) (hx : x ≠ .documentContent)
    (hw : 5 * r.tokens.length + weigh x < 5 * r₀.tokens.length + weighAt r₀.tokens r₀.expect)
    (hsource : Source r₀.tokens (r.expecting x) e) : Moves r₀ e (r.expecting x) :=
  h.expectingAt x hx (Nat.lt_of_le_of_lt (Nat.add_le_add_left (weighAt_le _ _) _) hw) hsource

/-- A document is expected, and its end behind it. -/
theorem document (h : Ahead r₀ r) (x : Expect)
    (hw : 5 * r.tokens.length + weigh x + 2 < 5 * r₀.tokens.length + weighAt r₀.tokens r₀.expect)
    (hsource : Source r₀.tokens ((r.pushing .documentEnd).expecting x) e) :
    Moves r₀ e ((r.pushing .documentEnd).expecting x) := by
  have hstack : ((r.pushing .documentEnd).expecting x).stack = .documentEnd :: r₀.stack :=
    congrArg (_ :: ·) h.stack
  refine ⟨h.tokens, ?_, fun hopens => ⟨fun _ => by rw [hstack]; rfl, ?_⟩, fun _ => hsource⟩
  · have hweight : weight ((r.pushing .documentEnd).expecting x) =
        5 * r.tokens.length + weighAt r.tokens x + (2 + weighAll r₀.stack) := by
      rw [← h.stack]
      rfl
    have hle := weighAt_le r.tokens x
    rw [hweight]
    unfold weight
    omega
  · rw [hstack]
    exact List.not_mem_cons_of_ne_of_not_mem nofun hopens.2

/-- A node is read, and something else is expected behind it. -/
theorem readNode (h : Ahead r₀ r) (x : Expect) (hx : x ≠ .documentContent)
    (hw : 5 * r.tokens.length + 1 + weigh x <
      5 * r₀.tokens.length + weighAt r₀.tokens r₀.expect)
    {block loose : Bool} (hread : (r.pushing x).readNode block loose = .ok (e, r')) :
    Moves r₀ e r' := by
  have hnode := readsNode hread
  refine ⟨hnode.tokens.trans h.tokens, ?_, fun hopens => hnode.opens ?_,
    fun _ => hnode.source.mono h.tokens.subset⟩
  · have hle := hnode.weight_le
    have hstack : (r.pushing x).stack = x :: r₀.stack := congrArg (x :: ·) h.stack
    have htokens : (r.pushing x).tokens = r.tokens := rfl
    rw [hstack, htokens, weighAll] at hle
    unfold weight at hle ⊢
    omega
  · have hstack : (r.pushing x).stack = x :: r.stack := rfl
    rw [hstack]
    exact List.not_mem_cons_of_ne_of_not_mem (Ne.symm hx) (h.notMem hopens)

end Ahead

/-! ### The steps -/

section

variable {r r' : Reader} {e : MarkedEvent}

theorem weighAt_of_expect {x : Expect} (hexpect : r.expect = x) (h : x ≠ .blockKey false) :
    weighAt r.tokens r.expect = weigh x := by
  unfold weighAt
  rw [hexpect, if_neg fun h' => h h'.1]

theorem weighAt_blockKey {tokens : List Token} {t : Token} (h : tokens.head? = some t) :
    weighAt tokens (.blockKey false) = if t.kind = .value then 3 else 1 := by
  unfold weighAt
  rw [h]
  split <;> simp_all [weigh]

theorem weighAt_pos (tokens : List Token) {x : Expect} (h : x ≠ .nothing) :
    0 < weighAt tokens x := by
  unfold weighAt
  split
  · exact Nat.one_pos
  · cases x with
    | nothing => exact absurd rfl h
    | blockKey first => cases first <;> exact Nat.succ_pos _
    | document implicit => cases implicit <;> exact Nat.succ_pos _
    | _ => exact Nat.succ_pos _

theorem moves_readBlockEntry {first : Bool} (hexpect : r.expect = .blockEntry first)
    (h : r.readBlockEntry first = .ok (e, r')) : Moves r e r' := by
  have hw : weighAt r.tokens r.expect = 1 := weighAt_of_expect hexpect nofun
  unfold Reader.readBlockEntry at h
  extract_lets r₁ at h
  have h₁ : Ahead r r₁ := .first r first
  clear_value r₁
  obtain ⟨t, ht, h⟩ := bind_eq_ok.mp h
  have hle := h₁.length_le
  have hpos := Ahead.length_pos ht
  have hnext := Ahead.length_next r₁
  split at h
  · cases h
    exact h₁.next.popped (hw ▸ Nat.one_pos) fun _ => .other trivial
  next hkind =>
    obtain ⟨u, hu, h⟩ := bind_eq_ok.mp h
    split at h
    · cases h
      have hgap : GapAt t.kind := hkind ▸ trivial
      refine h₁.next.expecting (.blockEntry false) nofun ?_ (.absent (h₁.mem ht) (.inl hgap))
      rw [hw, weigh]
      omega
    · refine h₁.next.readNode (.blockEntry false) nofun ?_ h
      rw [hw, weigh]
      omega
  · cases h

theorem moves_readLooseEntry (hexpect : r.expect = .looseEntry)
    (h : r.readLooseEntry = .ok (e, r')) : Moves r e r' := by
  have hw : weighAt r.tokens r.expect = 1 := weighAt_of_expect hexpect nofun
  have h₁ : Ahead r r := .refl r
  unfold Reader.readLooseEntry at h
  obtain ⟨t, ht, h⟩ := bind_eq_ok.mp h
  have hpos := Ahead.length_pos ht
  have hnext := Ahead.length_next r
  split at h
  next hkind =>
    obtain ⟨u, hu, h⟩ := bind_eq_ok.mp h
    split at h
    · cases h
      have hgap : GapAt t.kind := hkind ▸ trivial
      refine h₁.next.expecting .looseEntry nofun ?_ (.absent (h₁.mem ht) (.inl hgap))
      rw [hw, weigh]
      omega
    · refine h₁.next.readNode .looseEntry nofun ?_ h
      rw [hw, weigh]
      omega
  · cases h
    exact h₁.popped (hw ▸ Nat.one_pos) fun _ => .other trivial

theorem gapAt_of_endsBlockPart {t : Token} (h : Reader.endsBlockPart t = true) : GapAt t.kind := by
  simp only [Reader.endsBlockPart, Bool.or_eq_true, beq_iff_eq] at h
  rcases h with (h | h) | h <;> exact h ▸ trivial

theorem moves_readBlockKey {first : Bool} (hexpect : r.expect = .blockKey first)
    (h : r.readBlockKey first = .ok (e, r')) : Moves r e r' := by
  have hw : 0 < weighAt r.tokens r.expect := weighAt_pos _ (by rw [hexpect]; nofun)
  unfold Reader.readBlockKey at h
  extract_lets r₁ at h
  have h₁ : Ahead r r₁ := .first r first
  obtain ⟨t, ht, h⟩ := bind_eq_ok.mp h
  have hle := h₁.length_le
  have hpos := Ahead.length_pos ht
  have hnext := Ahead.length_next r₁
  split at h
  · obtain ⟨u, hu, h⟩ := bind_eq_ok.mp h
    split at h
    next hends =>
      cases h
      refine h₁.next.expecting .blockValue nofun ?_
        (.absent (h₁.next.mem hu) (.inl (gapAt_of_endsBlockPart hends)))
      rw [weigh]
      omega
    · refine h₁.next.readNode .blockValue nofun ?_ h
      rw [weigh]
      omega
  next hkind =>
    cases h
    have hgap : GapAt t.kind := hkind ▸ trivial
    refine h₁.expecting .blockValue nofun ?_ (.absent (h₁.mem ht) (.inl hgap))
    rw [weigh]
    cases first with
    | true =>
      have hlength : r₁.tokens.length = r.tokens.length - 1 := List.length_tail
      omega
    | false =>
      -- the first of two steps in front of the indicator
      have hhead : r.tokens.head? = some t := Ahead.head?_eq ht
      have hthree : weighAt r.tokens r.expect = 3 := by
        rw [hexpect, weighAt_blockKey hhead, if_pos hkind]
      have hlength : r₁.tokens.length = r.tokens.length := rfl
      omega
  · cases h
    exact h₁.next.popped hw fun _ => .other trivial
  · cases h

theorem moves_readBlockValue (hexpect : r.expect = .blockValue)
    (h : r.readBlockValue = .ok (e, r')) : Moves r e r' := by
  have hw : weighAt r.tokens r.expect = 2 := weighAt_of_expect hexpect nofun
  have h₁ : Ahead r r := .refl r
  unfold Reader.readBlockValue at h
  obtain ⟨t, ht, h⟩ := bind_eq_ok.mp h
  have hpos := Ahead.length_pos ht
  have hnext := Ahead.length_next r
  split at h
  next hkind =>
    obtain ⟨u, hu, h⟩ := bind_eq_ok.mp h
    split at h
    · cases h
      have hgap : GapAt t.kind := hkind ▸ trivial
      refine h₁.next.expecting (.blockKey false) nofun ?_ (.absent (h₁.mem ht) (.inl hgap))
      rw [hw, weigh]
      omega
    · refine h₁.next.readNode (.blockKey false) nofun ?_ h
      rw [hw, weigh]
      omega
  next hkind =>
    cases h
    have hhead := Ahead.head?_eq ht
    refine h₁.expectingAt (.blockKey false) nofun ?_
      (.absent (h₁.mem ht) (.inr ⟨hhead, .inl trivial⟩))
    rw [weighAt_blockKey hhead, if_neg hkind, hw]
    omega

theorem moves_readFlowEntry {first : Bool} (hexpect : r.expect = .flowEntry first)
    (h : r.readFlowEntry first = .ok (e, r')) : Moves r e r' := by
  have hw : weighAt r.tokens r.expect = 1 := weighAt_of_expect hexpect nofun
  unfold Reader.readFlowEntry at h
  extract_lets r₁ r₂ at h
  have h₁ : Ahead r r₁ := .first r first
  obtain ⟨t, ht, h⟩ := bind_eq_ok.mp h
  have hpos := Ahead.length_pos ht
  split at h
  · cases h
    exact h₁.next.popped (hw ▸ Nat.one_pos) fun _ => .other trivial
  split at h
  · cases h
  -- the start of the sequence or a comma is passed
  obtain ⟨h₂, hlength⟩ : Ahead r r₂ ∧ r₂.tokens.length + 1 = r.tokens.length :=
    Ahead.passed first ht
  clear_value r₁ r₂
  obtain ⟨u, hu, h⟩ := bind_eq_ok.mp h
  have hpos' := Ahead.length_pos hu
  have hnext := Ahead.length_next r₂
  split at h
  · cases h
    exact h₂.next.popped (hw ▸ Nat.one_pos) fun _ => .other trivial
  · cases h
    refine h₂.next.expecting .pairKey nofun ?_ (.other trivial)
    rw [hw, weigh]
    omega
  · refine h₂.readNode (.flowEntry false) nofun ?_ h
    rw [hw, weigh]
    omega

theorem moves_readPairKey (hexpect : r.expect = .pairKey) (h : r.readPairKey = .ok (e, r')) :
    Moves r e r' := by
  have hw : weighAt r.tokens r.expect = 6 := weighAt_of_expect hexpect nofun
  have h₁ : Ahead r r := .refl r
  unfold Reader.readPairKey at h
  obtain ⟨t, ht, h⟩ := bind_eq_ok.mp h
  have hnext := Ahead.length_next r
  split at h
  next hkind =>
    cases h
    have hgap : GapAt t.kind := by rcases hkind with h | h | h <;> exact h ▸ trivial
    refine h₁.next.expecting .pairValue nofun ?_ (.absent (h₁.mem ht) (.inl hgap))
    rw [hw, weigh]
    omega
  · refine h₁.readNode .pairValue nofun ?_ h
    rw [hw, weigh]
    omega

theorem moves_readPairValue (hexpect : r.expect = .pairValue) (h : r.readPairValue = .ok (e, r')) :
    Moves r e r' := by
  have hw : weighAt r.tokens r.expect = 3 := weighAt_of_expect hexpect nofun
  have h₁ : Ahead r r := .refl r
  unfold Reader.readPairValue at h
  obtain ⟨t, ht, h⟩ := bind_eq_ok.mp h
  have hpos := Ahead.length_pos ht
  have hnext := Ahead.length_next r
  split at h
  · obtain ⟨u, hu, h⟩ := bind_eq_ok.mp h
    split at h
    next hkind =>
      cases h
      have hgap : GapAt u.kind := by rcases hkind with h | h <;> exact h ▸ trivial
      refine h₁.next.expecting (.pairEnd u.start u.stop) nofun ?_
        (.absent (h₁.next.mem hu) (.inl hgap))
      rw [hw, weigh]
      omega
    · refine h₁.next.readNode (.pairEnd u.start u.stop) nofun ?_ h
      rw [hw, weigh]
      omega
  · cases h
    refine h₁.expecting (.pairEnd t.start t.stop) nofun ?_
      (.absent (h₁.mem ht) (.inr ⟨Ahead.head?_eq ht, .inl trivial⟩))
    rw [hw, weigh]
    omega

theorem moves_pairEnd {start stop : Mark} (hexpect : r.expect = .pairEnd start stop) :
    Moves r ⟨.mappingEnd, start, stop⟩ (r.expecting (.flowEntry false)) := by
  have hw : weighAt r.tokens r.expect = 2 := weighAt_of_expect hexpect nofun
  refine (Ahead.refl r).expecting (.flowEntry false) nofun ?_ (.other trivial)
  rw [hw, weigh]
  omega

theorem moves_readFlowKey {first : Bool} (hexpect : r.expect = .flowKey first)
    (h : r.readFlowKey first = .ok (e, r')) : Moves r e r' := by
  have hw : weighAt r.tokens r.expect = 1 := weighAt_of_expect hexpect nofun
  unfold Reader.readFlowKey at h
  extract_lets r₁ r₂ at h
  have h₁ : Ahead r r₁ := .first r first
  obtain ⟨t, ht, h⟩ := bind_eq_ok.mp h
  split at h
  · cases h
    exact h₁.next.popped (hw ▸ Nat.one_pos) fun _ => .other trivial
  split at h
  · cases h
  -- the start of the mapping or a comma is passed
  obtain ⟨h₂, hlength⟩ : Ahead r r₂ ∧ r₂.tokens.length + 1 = r.tokens.length :=
    Ahead.passed first ht
  clear_value r₁ r₂
  obtain ⟨u, hu, h⟩ := bind_eq_ok.mp h
  have hpos := Ahead.length_pos hu
  have hnext := Ahead.length_next r₂
  split at h
  · obtain ⟨v, hv, h⟩ := bind_eq_ok.mp h
    split at h
    next hkind =>
      cases h
      have hgap : GapAt v.kind := by rcases hkind with h | h | h <;> exact h ▸ trivial
      refine h₂.next.expecting .flowValue nofun ?_ (.absent (h₂.next.mem hv) (.inl hgap))
      rw [hw, weigh]
      omega
    · refine h₂.next.readNode .flowValue nofun ?_ h
      rw [hw, weigh]
      omega
  next hkind =>
    cases h
    have hgap : GapAt u.kind := hkind ▸ trivial
    refine h₂.expecting .flowValue nofun ?_ (.absent (h₂.mem hu) (.inl hgap))
    rw [hw, weigh]
    omega
  · cases h
    exact h₂.next.popped (hw ▸ Nat.one_pos) fun _ => .other trivial
  · refine h₂.readNode .flowNoValue nofun ?_ h
    rw [hw, weigh]
    omega

theorem moves_readFlowValue (hexpect : r.expect = .flowValue) (h : r.readFlowValue = .ok (e, r')) :
    Moves r e r' := by
  have hw : weighAt r.tokens r.expect = 2 := weighAt_of_expect hexpect nofun
  have h₁ : Ahead r r := .refl r
  unfold Reader.readFlowValue at h
  obtain ⟨t, ht, h⟩ := bind_eq_ok.mp h
  have hpos := Ahead.length_pos ht
  have hnext := Ahead.length_next r
  split at h
  next hkind =>
    obtain ⟨u, hu, h⟩ := bind_eq_ok.mp h
    split at h
    · cases h
      have hgap : GapAt t.kind := hkind ▸ trivial
      refine h₁.next.expecting (.flowKey false) nofun ?_ (.absent (h₁.mem ht) (.inl hgap))
      rw [hw, weigh]
      omega
    · refine h₁.next.readNode (.flowKey false) nofun ?_ h
      rw [hw, weigh]
      omega
  · cases h
    refine h₁.expecting (.flowKey false) nofun ?_
      (.absent (h₁.mem ht) (.inr ⟨Ahead.head?_eq ht, .inl trivial⟩))
    rw [hw, weigh]
    omega

theorem moves_readFlowNoValue (hexpect : r.expect = .flowNoValue)
    (h : r.readFlowNoValue = .ok (e, r')) : Moves r e r' := by
  have hw : weighAt r.tokens r.expect = 2 := weighAt_of_expect hexpect nofun
  have h₁ : Ahead r r := .refl r
  unfold Reader.readFlowNoValue at h
  obtain ⟨t, ht, h⟩ := bind_eq_ok.mp h
  cases h
  refine h₁.expecting (.flowKey false) nofun ?_
    (.absent (h₁.mem ht) (.inr ⟨Ahead.head?_eq ht, .inl trivial⟩))
  rw [hw, weigh]
  omega

theorem moves_readNode {block loose : Bool} (hw : 1 < weighAt r.tokens r.expect)
    (h : r.readNode block loose = .ok (e, r')) : Moves r e r' := by
  have hnode := readsNode h
  refine ⟨hnode.tokens, ?_, fun hopens => hnode.opens hopens.2, fun _ => hnode.source⟩
  have hle := hnode.weight_le
  unfold weight at hle ⊢
  omega

theorem moves_readDocumentContent (hexpect : r.expect = .documentContent)
    (h : r.readDocumentContent = .ok (e, r')) : Moves r e r' := by
  have hw : weighAt r.tokens r.expect = 3 := weighAt_of_expect hexpect nofun
  have h₁ : Ahead r r := .refl r
  unfold Reader.readDocumentContent at h
  obtain ⟨t, ht, h⟩ := bind_eq_ok.mp h
  have hmem := h₁.mem ht
  have hdirective : IsDirective t.kind → Moves r (Event.absent.at t) r.popped := by
    intro hkind
    refine h₁.popped (by omega) fun hopens =>
      .absent hmem (.inr ⟨Ahead.head?_eq ht, .inr ⟨hkind, ?_⟩⟩)
    have hhead := hopens.1 hexpect
    show r.stack.headD .nothing = .documentEnd
    rw [List.headD_eq_head?_getD, hhead]
    rfl
  have hgap : GapAt t.kind → Moves r (Event.absent.at t) r.popped := fun hkind =>
    h₁.popped (by omega) fun _ => .absent hmem (.inl hkind)
  split at h
  next hkind =>
    cases h
    exact hdirective (hkind ▸ trivial)
  next hkind =>
    cases h
    exact hdirective (hkind ▸ trivial)
  next hkind =>
    cases h
    exact hgap (hkind ▸ trivial)
  next hkind =>
    cases h
    exact hgap (hkind ▸ trivial)
  next hkind =>
    cases h
    exact hgap (hkind ▸ trivial)
  · exact moves_readNode (by omega) h

theorem ahead_readDirectives (h : r.readDirectives = .ok r') : Ahead r r' := by
  have hsuffix : ∀ (tokens : List Token) (handles : List (String × String)) (versioned : Bool)
      {tokens' : List Token} {handles' : List (String × String)},
      Reader.directives tokens handles versioned = .ok (tokens', handles') →
        tokens' <:+ tokens := by
    intro tokens
    induction tokens with
    | nil =>
      intro handles versioned tokens' handles' h
      cases h
      exact List.suffix_rfl
    | cons t rest ih =>
      intro handles versioned tokens' handles' h
      rw [Reader.directives] at h
      split at h
      · split at h
        · cases h
        · exact (ih _ _ h).trans (List.suffix_cons t rest)
      · exact (ih _ _ h).trans (List.suffix_cons t rest)
      · cases h
        exact List.suffix_rfl
  unfold Reader.readDirectives at h
  split at h
  · cases h
  next hdirectives =>
    cases h
    exact ⟨hsuffix _ _ _ hdirectives, rfl⟩

theorem moves_readExplicitStart {r₀ : Reader} (h₀ : Ahead r₀ r)
    (hw : 0 < weighAt r₀.tokens r₀.expect)
    (h : r.readExplicitStart = .ok (e, r')) : Moves r₀ e r' := by
  unfold Reader.readExplicitStart at h
  obtain ⟨r₁, hdirectives, h⟩ := bind_eq_ok.mp h
  obtain ⟨t, ht, h⟩ := bind_eq_ok.mp h
  have h₁ := ahead_readDirectives hdirectives
  have hle := h₁.length_le
  have hle' := h₀.length_le
  have hpos := Ahead.length_pos ht
  have hnext := Ahead.length_next r₁
  have h₂ : Ahead r₀ r₁ := ⟨h₁.tokens.trans h₀.tokens, h₁.stack.trans h₀.stack⟩
  split at h
  · cases h
    refine h₂.next.document .documentContent ?_ (.other trivial)
    rw [weigh]
    omega
  · cases h

theorem moves_readDocument {implicit : Bool} (hexpect : r.expect = .document implicit)
    (h : r.readDocument implicit = .ok (e, r')) : Moves r e r' := by
  have hw : 0 < weighAt r.tokens r.expect := weighAt_pos _ (by rw [hexpect]; nofun)
  unfold Reader.readDocument at h
  extract_lets r₁ at h
  have h₁ : Ahead r r₁ := ⟨List.dropWhile_suffix _, rfl⟩
  clear_value r₁
  obtain ⟨t, ht, h⟩ := bind_eq_ok.mp h
  have hle := h₁.length_le
  have hpos := Ahead.length_pos ht
  have hnext := Ahead.length_next r₁
  split at h
  · cases h
    refine h₁.next.expecting .nothing nofun ?_ (.ended rfl)
    rw [weigh]
    omega
  · exact moves_readExplicitStart h₁ hw h
  · exact moves_readExplicitStart h₁ hw h
  · exact moves_readExplicitStart h₁ hw h
  · exact moves_readExplicitStart h₁ hw h
  · cases h
    have hsix : weighAt r.tokens r.expect = 6 := weighAt_of_expect hexpect nofun
    refine h₁.document .blockNode ?_ (.other trivial)
    rw [hsix, weigh]
    omega

theorem moves_readDocumentEnd (hexpect : r.expect = .documentEnd)
    (h : r.readDocumentEnd = .ok (e, r')) : Moves r e r' := by
  have hw : weighAt r.tokens r.expect = 2 := weighAt_of_expect hexpect nofun
  unfold Reader.readDocumentEnd at h
  obtain ⟨t, ht, h⟩ := bind_eq_ok.mp h
  have hpos := Ahead.length_pos ht
  have hnext := Ahead.length_next r
  have h₁ : Ahead r { r with handles := [] } := ⟨List.suffix_rfl, rfl⟩
  split at h
  · cases h
    refine h₁.next.expecting (.document true) nofun ?_ (.other trivial)
    have htokens : ({ r with handles := [] } : Reader).next.tokens = r.next.tokens := rfl
    rw [hw, weigh, htokens]
    omega
  · split at h
    · cases h
    · cases h
    · cases h
      refine h₁.expecting (.document false) nofun ?_ (.other trivial)
      rw [hw, weigh]
      exact Nat.add_lt_add_left Nat.one_lt_two _

theorem moves_readStreamStart (hexpect : r.expect = .streamStart)
    (h : r.readStreamStart = .ok (e, r')) : Moves r e r' := by
  have hw : weighAt r.tokens r.expect = 5 := weighAt_of_expect hexpect nofun
  unfold Reader.readStreamStart at h
  obtain ⟨t, ht, h⟩ := bind_eq_ok.mp h
  have hpos := Ahead.length_pos ht
  have hnext := Ahead.length_next r
  cases h
  refine (Ahead.refl r).next.expecting (.document true) nofun ?_ (.other trivial)
  rw [hw, weigh]
  omega

/-- **One step.** -/
theorem moves_of_step (h : r.step? = some (.ok (e, r'))) : Moves r e r' := by
  unfold Reader.step? at h
  split at h
  next => cases h
  next hexpect => exact moves_readStreamStart hexpect (Option.some.inj h)
  next hexpect => exact moves_readDocument hexpect (Option.some.inj h)
  next hexpect => exact moves_readDocumentContent hexpect (Option.some.inj h)
  next hexpect => exact moves_readDocumentEnd hexpect (Option.some.inj h)
  next hexpect =>
    have hw : weighAt r.tokens r.expect = 3 := weighAt_of_expect hexpect nofun
    exact moves_readNode (by omega) (Option.some.inj h)
  next hexpect => exact moves_readBlockEntry hexpect (Option.some.inj h)
  next hexpect => exact moves_readLooseEntry hexpect (Option.some.inj h)
  next hexpect => exact moves_readBlockKey hexpect (Option.some.inj h)
  next hexpect => exact moves_readBlockValue hexpect (Option.some.inj h)
  next hexpect => exact moves_readFlowEntry hexpect (Option.some.inj h)
  next hexpect => exact moves_readPairKey hexpect (Option.some.inj h)
  next hexpect => exact moves_readPairValue hexpect (Option.some.inj h)
  next hexpect =>
    cases h
    exact moves_pairEnd hexpect
  next hexpect => exact moves_readFlowKey hexpect (Option.some.inj h)
  next hexpect => exact moves_readFlowValue hexpect (Option.some.inj h)
  next hexpect => exact moves_readFlowNoValue hexpect (Option.some.inj h)

end

end Manifest.Proofs.Absent
