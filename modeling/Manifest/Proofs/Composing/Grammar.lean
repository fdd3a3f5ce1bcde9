import Manifest.Proofs.Composing.Descent
import Manifest.Yaml.Parse

/-! # Which events compose

Events compose exactly if they are a stream, up to the first end of the stream outside of all
documents: events that say nothing between documents, and documents, each with no node or with one
(`IsSplit`). A node is the events of a tree (`exists_tree`), so what ends too early, what is closed by
the wrong event and a mapping without its last value are refused at any depth. Nothing is asked of
the events; the descent of `Descent` gives the tree of a node that is read, and the builder takes the
trees of a split one by one (`takeAll_pieces`). -/

namespace Manifest.Proofs.Composing.Grammar

open Manifest.Yaml Manifest.Proofs.Composing.Descent

/-! ### What is read is a tree -/

section Trees

variable {events : List MarkedEvent}

mutual

/-- **A node that is read is a tree**: its events are those in front of the next event. -/
theorem exists_tree (pos : Nat) (closed : Closed) {r : Read events pos Node}
    (h : node events pos closed = .ok r) :
    ∃ t : EventTree, events.drop pos = t.events ++ events.drop r.next ∧
      t.compose closed = .ok (r.value, r.closed) := by
  rw [node] at h
  split at h
  next => cases h
  next e hsome =>
    obtain ⟨event, start, stop⟩ := e
    rw [drop_of_some hsome]
    cases event with
    | scalar text style anchor tag? =>
      obtain rfl := Except.ok.inj h
      exact ⟨.scalar text style anchor tag? ⟨start, stop⟩, rfl, rfl⟩
    | aliasOf anchor =>
      dsimp only at h
      cases hn : closed.lookup anchor with
      | none => rw [hn] at h; cases h
      | some n =>
        rw [hn] at h
        obtain rfl := Except.ok.inj h
        refine ⟨.aliasOf anchor ⟨start, stop⟩, rfl, ?_⟩
        rw [EventTree.compose, hn]
    | sequenceStart anchor tag? =>
      dsimp only at h
      cases hitems : items events (pos + 1) closed with
      | error m => rw [hitems] at h; cases h
      | ok s =>
        obtain ⟨ts, closing, hstop, hdrop, hcompose⟩ := exists_items (pos + 1) closed hitems
        rw [hitems] at h
        obtain ⟨⟨ns, last⟩, next, closed', hlt, hle⟩ := s
        obtain rfl := Except.ok.inj h
        obtain rfl : closing.stop.index = last := hstop
        refine ⟨.sequence anchor tag? ⟨start, stop⟩ ts closing, ?_, ?_⟩
        · rw [hdrop, EventTree.events, List.cons_append, List.append_assoc]
          rfl
        · rw [EventTree.compose, hcompose]
    | mappingStart anchor tag? =>
      dsimp only at h
      cases hentries : entries events (pos + 1) closed with
      | error m => rw [hentries] at h; cases h
      | ok s =>
        obtain ⟨es, closing, hstop, hdrop, hcompose⟩ := exists_entries (pos + 1) closed hentries
        rw [hentries] at h
        obtain ⟨⟨ns, last⟩, next, closed', hlt, hle⟩ := s
        obtain rfl := Except.ok.inj h
        obtain rfl : closing.stop.index = last := hstop
        refine ⟨.mapping anchor tag? ⟨start, stop⟩ es closing, ?_, ?_⟩
        · rw [hdrop, EventTree.events, List.cons_append, List.append_assoc]
          rfl
        · rw [EventTree.compose, hcompose]
    | _ => cases h
termination_by (events.length - pos, 0)
decreasing_by all_goals have := lt_length ‹events[pos]? = _›; omega

/-- Items that are read are trees, with an event behind them that ends a sequence. -/
theorem exists_items (pos : Nat) (closed : Closed) {r : Read events pos (List Node × Nat)}
    (h : items events pos closed = .ok r) :
    ∃ (ts : List EventTree) (closing : Extent), closing.stop.index = r.value.2 ∧
      events.drop pos = EventTree.eventsOfItems ts ++ closing.mark .sequenceEnd :: events.drop r.next ∧
      EventTree.composeItems closed ts = .ok (r.value.1, r.closed) := by
  rw [items] at h
  split at h
  next => cases h
  next e hsome =>
    split_ifs at h with hend
    · obtain ⟨event, start, stop⟩ := e
      obtain rfl : event = .sequenceEnd := hend
      obtain rfl := Except.ok.inj h
      exact ⟨[], ⟨start, stop⟩, rfl, drop_of_some hsome, rfl⟩
    · cases hnode : node events pos closed with
      | error m => rw [hnode] at h; cases h
      | ok s =>
        obtain ⟨t, hdrop, hcompose⟩ := exists_tree pos closed hnode
        rw [hnode] at h
        obtain ⟨n, next, closed', hlt, hle⟩ := s
        dsimp only at h hdrop hcompose
        cases hitems : items events next closed' with
        | error m => rw [hitems] at h; cases h
        | ok s =>
          obtain ⟨ts, closing, hstop, hdrop', hcompose'⟩ := exists_items next closed' hitems
          rw [hitems] at h
          obtain ⟨⟨ns, last⟩, next', closed'', hlt', hle'⟩ := s
          obtain rfl := Except.ok.inj h
          refine ⟨t :: ts, closing, hstop, ?_, ?_⟩
          · rw [hdrop, hdrop', EventTree.eventsOfItems, List.append_assoc]
          · rw [EventTree.composeItems, hcompose]
            dsimp only
            rw [hcompose']
termination_by (events.length - pos, 1)
decreasing_by all_goals have := lt_length ‹events[pos]? = _›; omega

/-- Entries that are read are pairs of trees, with an event behind them that ends a mapping. -/
theorem exists_entries (pos : Nat) (closed : Closed) {r : Read events pos (List (Node × Node) × Nat)}
    (h : entries events pos closed = .ok r) :
    ∃ (es : List (EventTree × EventTree)) (closing : Extent), closing.stop.index = r.value.2 ∧
      events.drop pos =
        EventTree.eventsOfEntries es ++ closing.mark .mappingEnd :: events.drop r.next ∧
      EventTree.composeEntries closed es = .ok (r.value.1, r.closed) := by
  rw [entries] at h
  split at h
  next => cases h
  next e hsome =>
    split_ifs at h with hend
    · obtain ⟨event, start, stop⟩ := e
      obtain rfl : event = .mappingEnd := hend
      obtain rfl := Except.ok.inj h
      exact ⟨[], ⟨start, stop⟩, rfl, drop_of_some hsome, rfl⟩
    · cases hkey : node events pos closed with
      | error m => rw [hkey] at h; cases h
      | ok s =>
        obtain ⟨k, hdrop, hcompose⟩ := exists_tree pos closed hkey
        rw [hkey] at h
        obtain ⟨key, next, closed₁, hlt, hle⟩ := s
        dsimp only at h hdrop hcompose
        cases hvalue : node events next closed₁ with
        | error m => rw [hvalue] at h; cases h
        | ok s =>
          obtain ⟨v, hdrop', hcompose'⟩ := exists_tree next closed₁ hvalue
          rw [hvalue] at h
          obtain ⟨value, next', closed₂, hlt', hle'⟩ := s
          dsimp only at h hdrop' hcompose'
          cases hentries : entries events next' closed₂ with
          | error m => rw [hentries] at h; cases h
          | ok s =>
            obtain ⟨es, closing, hstop, hdrop'', hcompose''⟩ := exists_entries next' closed₂ hentries
            rw [hentries] at h
            obtain ⟨⟨ns, last⟩, next'', closed₃, hlt'', hle''⟩ := s
            obtain rfl := Except.ok.inj h
            refine ⟨(k, v) :: es, closing, hstop, ?_, ?_⟩
            · rw [hdrop, hdrop', hdrop'', EventTree.eventsOfEntries, List.append_assoc,
                List.append_assoc]
            · rw [EventTree.composeEntries, hcompose]
              dsimp only
              rw [hcompose']
              dsimp only
              rw [hcompose'']
termination_by (events.length - pos, 1)
decreasing_by all_goals have := lt_length ‹events[pos]? = _›; omega

end

end Trees

/-! ### Pieces of a stream -/

/-- The event says nothing outside of documents. -/
def IsBetween (e : Event) : Prop := e = .streamStart ∨ e = .documentEnd ∨ e = .nothing

/-- What stands in a stream up to its end. -/
inductive Piece
  /-- An event between documents. -/
  | between (e : MarkedEvent) (h : IsBetween e.event)
  /-- The start of a document, and its end directly behind it. -/
  | empty (explicit : Bool) (opening closing : Extent)
  /-- The start of a document, and its only node. -/
  | document (explicit : Bool) (opening : Extent) (root : EventTree)

/-- The events of a piece. -/
def Piece.events : Piece → List MarkedEvent
  | .between e _ => [e]
  | .empty explicit opening closing =>
    [opening.mark (.documentStart explicit), closing.mark .documentEnd]
  | .document explicit opening root => opening.mark (.documentStart explicit) :: root.events

/-- The node of a document that has one. -/
def Piece.root? : Piece → Option EventTree
  | .document _ _ root => some root
  | _ => none

/-- The pieces stand in front of the first end of the stream outside of all documents, or of the end
of the events. -/
structure IsSplit (events : List MarkedEvent) (pieces : List Piece) (rest : List MarkedEvent) :
    Prop where
  eq : events = pieces.flatMap Piece.events ++ rest
  ends : ∀ e ∈ rest.head?, e.event = .streamEnd

theorem IsSplit.cons {events rest : List MarkedEvent} {pieces : List Piece}
    (h : IsSplit events pieces rest) (piece : Piece) :
    IsSplit (piece.events ++ events) (piece :: pieces) rest :=
  ⟨by rw [h.eq, List.flatMap_cons, List.append_assoc], h.ends⟩

theorem stream_of_between {events : List MarkedEvent} {pos : Nat} {e : MarkedEvent}
    (hsome : events[pos]? = some e) (he : IsBetween e.event) :
    stream events pos = stream events (pos + 1) := by
  rw [stream]
  split
  next hnone => rw [hsome] at hnone; cases hnone
  next e' hsome' =>
    obtain rfl : e' = e := Option.some.inj (hsome'.symm.trans hsome)
    obtain ⟨event, start, stop⟩ := e'
    obtain rfl | rfl | rfl : IsBetween event := he <;> rfl

/-- **Documents that are read stand in pieces.** -/
theorem exists_pieces {events : List MarkedEvent} (pos : Nat) {ns : List Node}
    (h : stream events pos = .ok ns) : ∃ pieces rest, IsSplit (events.drop pos) pieces rest := by
  rw [stream] at h
  split at h
  next hnone => exact ⟨[], [], drop_of_none hnone, by simp⟩
  next e hsome =>
    have hlt := lt_length hsome
    have hbetween : IsBetween e.event → stream events (pos + 1) = .ok ns →
        ∃ pieces rest, IsSplit (events.drop pos) pieces rest := by
      intro he hrest
      obtain ⟨pieces, rest, hsplit⟩ := exists_pieces (pos + 1) hrest
      rw [drop_of_some hsome]
      exact ⟨_, rest, hsplit.cons (.between e he)⟩
    obtain ⟨event, start, stop⟩ := e
    cases event with
    | streamEnd =>
      refine ⟨[], events.drop pos, rfl, fun e he => ?_⟩
      rw [drop_of_some hsome] at he
      exact Option.some.inj he ▸ rfl
    | streamStart => exact hbetween (.inl rfl) h
    | documentEnd => exact hbetween (.inr (.inl rfl)) h
    | nothing => exact hbetween (.inr (.inr rfl)) h
    | documentStart explicit =>
      rw [drop_of_some hsome]
      dsimp only at h
      split_ifs at h with hend
      · obtain ⟨⟨event, first, last⟩, hclosing, rfl⟩ := Option.map_eq_some_iff.mp hend
        rw [stream_of_between hclosing (.inr (.inl rfl))] at h
        obtain ⟨pieces, rest, hsplit⟩ := exists_pieces (pos + 1 + 1) h
        rw [drop_of_some hclosing]
        exact ⟨_, rest, hsplit.cons (.empty explicit ⟨start, stop⟩ ⟨first, last⟩)⟩
      · cases hnode : node events (pos + 1) [] with
        | error m => rw [hnode] at h; cases h
        | ok r =>
          obtain ⟨t, hdrop, -⟩ := exists_tree (pos + 1) [] hnode
          rw [hnode] at h
          obtain ⟨n, next, closed, hpos, hle⟩ := r
          dsimp only at h hdrop
          cases hstream : stream events next with
          | error m => rw [hstream] at h; cases h
          | ok ms =>
            obtain ⟨pieces, rest, hsplit⟩ := exists_pieces next hstream
            rw [hdrop]
            exact ⟨_, rest, hsplit.cons (.document explicit ⟨start, stop⟩ t)⟩
    | _ => cases h
termination_by events.length - pos

/-- The builder takes pieces up to the end of the stream. -/
theorem takeAll_pieces {rest : List MarkedEvent} (hends : ∀ e ∈ rest.head?, e.event = .streamEnd) :
    ∀ (pieces : List Piece) (done : List Node) (closed : Closed),
      (Builder.mk done closed .outside).takeAll (pieces.flatMap Piece.events ++ rest) =
        match (pieces.filterMap Piece.root?).mapM fun t => (t.compose []).map Prod.fst with
        | .ok ns => .ok (done.reverse ++ ns)
        | .error a => .error (.unknownAlias a)
  | [], done, closed => by
    cases rest with
    | nil => simp [Builder.takeAll, Builder.finish, pure, Except.pure]
    | cons e rest =>
      have he : e.event = .streamEnd := hends e rfl
      simp [Builder.takeAll, he, pure, Except.pure]
  | .between ⟨event, start, stop⟩ he :: pieces, done, closed => by
    change (Builder.mk done closed .outside).takeAll
      (⟨event, start, stop⟩ :: (pieces.flatMap Piece.events ++ rest)) = _
    obtain rfl | rfl | rfl : IsBetween event := he <;> exact takeAll_pieces hends pieces done closed
  | .empty explicit opening closing :: pieces, done, closed => takeAll_pieces hends pieces done []
  | .document explicit opening t :: pieces, done, closed => by
    have hstart : (Builder.mk done closed .outside).takeAll
        ((Piece.document explicit opening t :: pieces).flatMap Piece.events ++ rest) =
        (Builder.mk done [] .documentStart).takeAll
          (t.events ++ (pieces.flatMap Piece.events ++ rest)) := by
      rw [List.flatMap_cons, List.append_assoc]
      rfl
    have hroots : (Piece.document explicit opening t :: pieces).filterMap Piece.root? =
        t :: pieces.filterMap Piece.root? := rfl
    rw [hstart, takeAll_tree t ⟨done, [], .documentStart⟩ [] _ rfl, hroots, List.mapM_cons]
    dsimp only
    cases t.compose [] with
    | error a => rfl
    | ok r =>
      obtain ⟨n, closed'⟩ := r
      change (Builder.mk (n :: done) closed' .outside).takeAll
        (pieces.flatMap Piece.events ++ rest) = _
      rw [takeAll_pieces hends pieces (n :: done) closed']
      cases (pieces.filterMap Piece.root?).mapM fun t => (t.compose []).map Prod.fst with
      | error a => rfl
      | ok ns => simp [bind, Except.bind, Except.map, pure, Except.pure]

theorem ofEvents_of_isSplit {events rest : List MarkedEvent} {pieces : List Piece}
    (h : IsSplit events pieces rest) :
    Node.ofEvents events =
      match (pieces.filterMap Piece.root?).mapM fun t => (t.compose []).map Prod.fst with
      | .ok ns => .ok ns
      | .error a => .error (.unknownAlias a) := by
  rw [h.eq]
  exact takeAll_pieces h.ends pieces [] []

/-- Trees compose, each with anchors of its own, exactly if every alias in them is bound. -/
theorem exists_mapM_iff_bound {ts : List EventTree} :
    (∃ ns, (ts.mapM fun t => (t.compose []).map Prod.fst) = .ok ns) ↔ ∀ t ∈ ts, Bound t.notes := by
  constructor
  · rintro ⟨ns, h⟩
    have hall : List.Forall₂ (fun t n => Bound t.notes ∧ (t.compose []).map Prod.fst = .ok n) ts ns :=
      (forall₂_of_mapM h).imp fun t n hn =>
        ⟨bound_notes_iff.mpr ⟨_, (map_fst_eq_ok.mp hn).choose_spec⟩, hn⟩
    exact ((List.forall₂_and_left _ _).mp hall).1
  · intro h
    cases hts : ts.mapM fun t => (t.compose []).map Prod.fst with
    | ok ns => exact ⟨ns, rfl⟩
    | error a =>
      obtain ⟨front, t, back, rfl, -, ht⟩ := exists_of_mapM_error hts
      obtain ⟨r, hr⟩ := bound_notes_iff.mp (h t (by simp))
      rw [map_eq_error.mp ht] at hr
      cases hr

/-- **Composing accepts streams of documents, and nothing else.** Whatever the events are,

* a node that is read moves the cursor on, not past the last event, and the events it has moved over
  are those of a tree, which composes to the node;
* the events compose if and only if they stand in pieces up to the first end of the stream outside of
  all documents, or up to the last event, and every alias in the trees of the documents is bound;
* the documents are then the nodes of these trees, one for every document that has a node;
* in every other case composing fails, and so does reading a text with these events. -/
theorem ofEvents_pieces (events : List MarkedEvent) :
    stream events 0 = Node.ofEvents events ∧
    (∀ pos closed r, node events pos closed = .ok r →
      pos < r.next ∧ r.next ≤ events.length ∧
      ∃ t : EventTree, events.drop pos = t.events ++ events.drop r.next ∧
        t.compose closed = .ok (r.value, r.closed)) ∧
    ((∃ ns, Node.ofEvents events = .ok ns) ↔
      ∃ pieces rest, IsSplit events pieces rest ∧
        ∀ t ∈ pieces.filterMap Piece.root?, Bound t.notes) ∧
    (∀ ns pieces rest, Node.ofEvents events = .ok ns → IsSplit events pieces rest →
      List.Forall₂ (fun t n => ∃ closed, t.compose [] = .ok (n, closed))
        (pieces.filterMap Piece.root?) ns ∧
      ns.length = pieces.countP fun p => p.root?.isSome) ∧
    ((¬∃ pieces rest, IsSplit events pieces rest ∧
        ∀ t ∈ pieces.filterMap Piece.root?, Bound t.notes) ↔
      ∃ m, Node.ofEvents events = .error m ∧
        ∀ s, readEvents s = .ok events → parse s = .error (.misfit m)) := by
  have hiff : (∃ ns, Node.ofEvents events = .ok ns) ↔
      ∃ pieces rest, IsSplit events pieces rest ∧
        ∀ t ∈ pieces.filterMap Piece.root?, Bound t.notes := by
    constructor
    · rintro ⟨ns, h⟩
      obtain ⟨pieces, rest, hsplit⟩ := exists_pieces 0 ((stream_eq_ofEvents events).trans h)
      rw [List.drop_zero] at hsplit
      refine ⟨pieces, rest, hsplit, exists_mapM_iff_bound.mp ?_⟩
      rw [ofEvents_of_isSplit hsplit] at h
      split at h
      next ns hns => exact ⟨ns, hns⟩
      next => cases h
    · rintro ⟨pieces, rest, hsplit, hbound⟩
      obtain ⟨ns, hns⟩ := exists_mapM_iff_bound.mpr hbound
      rw [ofEvents_of_isSplit hsplit, hns]
      exact ⟨ns, rfl⟩
  refine ⟨stream_eq_ofEvents events,
    fun pos closed r h => ⟨r.pos_lt, r.next_le, exists_tree pos closed h⟩, hiff, ?_, ?_⟩
  · intro ns pieces rest h hsplit
    rw [ofEvents_of_isSplit hsplit] at h
    split at h
    next ns' hns =>
      obtain rfl := Except.ok.inj h
      have hall := (forall₂_of_mapM hns).imp fun t n hn => map_fst_eq_ok.mp hn
      exact ⟨hall, by rw [← hall.length_eq, List.length_filterMap_eq_countP]⟩
    next => cases h
  · rw [← hiff]
    cases h : Node.ofEvents events with
    | ok ns => simp
    | error m =>
      refine ⟨fun _ => ⟨m, rfl, fun s hs => by rw [parse, hs]; dsimp only; rw [h]⟩, ?_⟩
      rintro - ⟨ns, hns⟩
      cases hns

/-- One place for all events. -/
def pairExtent : Extent := ⟨⟨0, 1, 0⟩, ⟨1, 1, 1⟩⟩

/-- A mapping of an anchored key to `value`, behind events between documents and in front of a document
without a node, the end of the stream and what is not looked at. -/
def pairEvents (value : List Event) : List MarkedEvent :=
  let before : List Event :=
    [.nothing, .documentEnd, .documentStart false, .mappingStart 0 none, .scalar "key" .plain 1 none]
  let after : List Event :=
    [.mappingEnd, .documentStart true, .documentEnd, .streamEnd, .sequenceEnd]
  (before ++ value ++ after).map pairExtent.mark

/-- The mapping of the key to an alias of it. -/
def pairTree : EventTree :=
  .mapping 0 none pairExtent [(.scalar "key" .plain 1 none pairExtent, .aliasOf 1 pairExtent)]
    pairExtent

/-- The pieces if the value is an alias. -/
def pairPieces : List Piece :=
  [.between (pairExtent.mark .nothing) (.inr (.inr rfl)),
    .between (pairExtent.mark .documentEnd) (.inr (.inl rfl)),
    .document false pairExtent pairTree, .empty true pairExtent pairExtent]

/-- The mapping composes if the value is an alias of its key, and not if there is none. -/
theorem ofEvents_pieces_pair :
    (∃ n, Node.ofEvents (pairEvents [.aliasOf 1]) = .ok [n]) ∧
      ∃ m, Node.ofEvents (pairEvents []) = .error m := by
  have hsplit : IsSplit (pairEvents [.aliasOf 1]) pairPieces
      [pairExtent.mark .streamEnd, pairExtent.mark .sequenceEnd] :=
    ⟨rfl, fun e he => Option.some.inj he ▸ rfl⟩
  have hbound : ∀ t ∈ pairPieces.filterMap Piece.root?, Bound t.notes := by
    intro t ht
    obtain rfl : t = pairTree := List.mem_singleton.mp ht
    exact bound_notes_iff.mpr ⟨_, rfl⟩
  obtain ⟨-, -, haccepts, hdocuments, -⟩ := ofEvents_pieces (pairEvents [.aliasOf 1])
  obtain ⟨ns, hns⟩ := haccepts.mpr ⟨_, _, hsplit, hbound⟩
  obtain ⟨n, rfl⟩ := List.length_eq_one_iff.mp (hdocuments ns _ _ hns hsplit).2
  obtain ⟨-, -, haccepts', -, hrefuses⟩ := ofEvents_pieces (pairEvents [])
  obtain ⟨m, hm, -⟩ := hrefuses.mp fun h => by
    obtain ⟨ns, hns⟩ := haccepts'.mpr h
    cases hns
  exact ⟨⟨n, hns⟩, m, hm⟩

end Manifest.Proofs.Composing.Grammar
