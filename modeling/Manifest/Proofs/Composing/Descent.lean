import Manifest.Proofs.Composing.Stream

/-! # Reading nodes by descent

Nodes can also be read off a list of events with a cursor: a node is one event, or a first event, the
nodes behind it and a last event, and reading the nodes inside is the same once more. `Read` is what is
read from a place on, and carries that the cursor has moved on and is not past the end, by which the
descent stops. Its results and its failures are those of the builder (`takeAll_node`,
`stream_eq_ofEvents`). -/

namespace Manifest.Proofs.Composing.Descent

open Manifest.Yaml

/-- What is read from the place `pos` on, with the place of the next event and the complete nodes with
anchors. -/
structure Read (events : List MarkedEvent) (pos : Nat) (α : Type) where
  value : α
  next : Nat
  closed : Closed
  pos_lt : pos < next
  next_le : next ≤ events.length

variable {events : List MarkedEvent} {pos : Nat}

theorem lt_length {e : MarkedEvent} (h : events[pos]? = some e) : pos < events.length :=
  (List.getElem?_eq_some_iff.mp h).1

mutual

/-- Reads a node. -/
def node (events : List MarkedEvent) (pos : Nat) (closed : Closed) :
    Except Misfit (Read events pos Node) :=
  match h : events[pos]? with
  | none => .error .endedInsideNode
  | some e =>
    match e.event with
    | .scalar text style anchor _ =>
      let n := Node.scalar (scalarText text style ⟨e.start, e.stop⟩) e.start.index e.stop.index
      .ok ⟨n, pos + 1, closed.add anchor n, Nat.lt_succ_self pos, lt_length h⟩
    | .sequenceStart anchor _ =>
      match items events (pos + 1) closed with
      | .error m => .error m
      | .ok ⟨(ns, last), next, closed, hlt, hle⟩ =>
        let n := Node.sequence ns e.start.index last
        .ok ⟨n, next, closed.add anchor n, Nat.lt_of_succ_lt hlt, hle⟩
    | .mappingStart anchor _ =>
      match entries events (pos + 1) closed with
      | .error m => .error m
      | .ok ⟨(ns, last), next, closed, hlt, hle⟩ =>
        let n := Node.mapping ns e.start.index last
        .ok ⟨n, next, closed.add anchor n, Nat.lt_of_succ_lt hlt, hle⟩
    | .aliasOf anchor =>
      match closed.lookup anchor with
      | some n => .ok ⟨n, pos + 1, closed, Nat.lt_succ_self pos, lt_length h⟩
      | none => .error (.unknownAlias anchor)
    | other => .error (.notANode other)
termination_by (events.length - pos, 0)
decreasing_by all_goals have := lt_length h; omega

/-- Reads the items of a sequence and its end, which gives the offset where the sequence stops. -/
def items (events : List MarkedEvent) (pos : Nat) (closed : Closed) :
    Except Misfit (Read events pos (List Node × Nat)) :=
  match h : events[pos]? with
  | none => .error .unterminatedSequence
  | some e =>
    if e.event = .sequenceEnd then
      .ok ⟨([], e.stop.index), pos + 1, closed, Nat.lt_succ_self pos, lt_length h⟩
    else
      match node events pos closed with
      | .error m => .error m
      | .ok ⟨n, next, closed, hlt, _⟩ =>
        match items events next closed with
        | .error m => .error m
        | .ok ⟨(ns, last), next', closed, hlt', hle⟩ =>
          .ok ⟨(n :: ns, last), next', closed, Nat.lt_trans hlt hlt', hle⟩
termination_by (events.length - pos, 1)
decreasing_by all_goals have := lt_length h; omega

/-- Reads the entries of a mapping and its end. -/
def entries (events : List MarkedEvent) (pos : Nat) (closed : Closed) :
    Except Misfit (Read events pos (List (Node × Node) × Nat)) :=
  match h : events[pos]? with
  | none => .error .unterminatedMapping
  | some e =>
    if e.event = .mappingEnd then
      .ok ⟨([], e.stop.index), pos + 1, closed, Nat.lt_succ_self pos, lt_length h⟩
    else
      match node events pos closed with
      | .error m => .error m
      | .ok ⟨key, next, closed, hlt, _⟩ =>
        match node events next closed with
        | .error m => .error m
        | .ok ⟨value, next', closed, hlt', _⟩ =>
          match entries events next' closed with
          | .error m => .error m
          | .ok ⟨(ns, last), next'', closed, hlt'', hle⟩ =>
            .ok ⟨((key, value) :: ns, last), next'', closed,
              Nat.lt_trans hlt (Nat.lt_trans hlt' hlt''), hle⟩
termination_by (events.length - pos, 1)
decreasing_by all_goals have := lt_length h; omega

end

/-- Reads the documents of a stream. -/
def stream (events : List MarkedEvent) (pos : Nat) : Except Misfit (List Node) :=
  match _h : events[pos]? with
  | none => .ok []
  | some e =>
    match e.event with
    | .streamEnd => .ok []
    | .streamStart | .documentEnd | .nothing => stream events (pos + 1)
    | .documentStart _ =>
      if events[pos + 1]?.map MarkedEvent.event = some .documentEnd then stream events (pos + 1)
      else
        match node events (pos + 1) [] with
        | .error m => .error m
        | .ok ⟨n, next, _, _, _⟩ =>
          match stream events next with
          | .error m => .error m
          | .ok ns => .ok (n :: ns)
    | other => .error (.outsideDocument other)
termination_by events.length - pos
decreasing_by all_goals have := lt_length _h; omega

/-! ### The builder reads the same -/

/-- Goes on with what has been read, unless it does not fit. -/
def resumeRead {α : Type} (r : Except Misfit (Read events pos α))
    (go : α → Nat → Closed → Except Misfit (List Node)) : Except Misfit (List Node) :=
  match r with
  | .ok r => go r.value r.next r.closed
  | .error m => .error m

/-- The builder takes the next event as the first one of a node. -/
def NeedsNode (place : Place) (next? : Option MarkedEvent) : Prop :=
  match place with
  | .outside => False
  | .documentStart => ∀ e ∈ next?, e.event ≠ .documentEnd
  | .inside (.sequence _ _ _) _ => ∃ e ∈ next?, e.event ≠ .sequenceEnd
  | .inside (.mapping _ _ _) _ => ∃ e ∈ next?, e.event ≠ .mappingEnd
  | .inside (.keyed _ _ _ _) _ => True

theorem drop_of_some {e : MarkedEvent} (h : events[pos]? = some e) :
    events.drop pos = e :: events.drop (pos + 1) := by
  obtain ⟨hlt, rfl⟩ := List.getElem?_eq_some_iff.mp h
  exact List.drop_eq_getElem_cons hlt

theorem drop_of_none (h : events[pos]? = none) : events.drop pos = [] :=
  List.drop_eq_nil_iff.mpr (List.getElem?_eq_none_iff.mp h)

theorem takeAll_of_needsNode {b : Builder} {outer : List Frame} {e : MarkedEvent}
    (hb : Awaits b outer) (he : NeedsNode b.place (some e)) (rest : List MarkedEvent) :
    b.takeAll (e :: rest) =
      match b.takeNode outer e with
      | .error m => .error m
      | .ok b => b.takeAll rest := by
  obtain ⟨documents, anchors, place⟩ := b
  obtain ⟨event, start, stop⟩ := e
  cases place with
  | outside => exact absurd hb id
  | documentStart =>
    obtain rfl : outer = [] := hb
    exact if_neg (he _ rfl)
  | inside frame rest' =>
    obtain rfl : outer = frame :: rest' := hb
    have hinside : Builder.takeInside ⟨documents, anchors, .inside frame rest'⟩ frame rest'
        ⟨event, start, stop⟩ = Builder.takeNode ⟨documents, anchors, .inside frame rest'⟩
          (frame :: rest') ⟨event, start, stop⟩ := by
      cases frame with
      | sequence anchor start items =>
        obtain ⟨e, he, hne⟩ := he
        obtain rfl := Option.some.inj he
        cases event <;> first | rfl | exact absurd rfl hne
      | mapping anchor start entries =>
        obtain ⟨e, he, hne⟩ := he
        obtain rfl := Option.some.inj he
        cases event <;> first | rfl | exact absurd rfl hne
      | keyed anchor start entries key => cases event <;> rfl
    exact congrArg (fun r : Except Misfit Builder =>
      match r with
      | .error m => Except.error m
      | .ok b => b.takeAll rest) hinside

theorem finish_of_needsNode {b : Builder} {outer : List Frame} (hb : Awaits b outer)
    (h : NeedsNode b.place none) : b.takeAll [] = .error .endedInsideNode := by
  obtain ⟨documents, anchors, place⟩ := b
  cases place with
  | outside => exact absurd hb id
  | documentStart => rfl
  | inside frame rest =>
    cases frame with
    | sequence anchor start items => obtain ⟨e, he, -⟩ := h; cases he
    | mapping anchor start entries => obtain ⟨e, he, -⟩ := h; cases he
    | keyed anchor start entries key => rfl

mutual

/-- **Reading a node is what the builder does with its events**, wherever it needs one. -/
theorem takeAll_node (documents : List Node) (place : Place) (outer : List Frame) (pos : Nat)
    (closed : Closed) (hb : Awaits ⟨documents, closed, place⟩ outer)
    (hneeds : NeedsNode place events[pos]?) :
    (Builder.mk documents closed place).takeAll (events.drop pos) =
      resumeRead (node events pos closed) fun n next closed =>
        (Builder.hand ⟨documents, closed, place⟩ outer n).takeAll (events.drop next) := by
  rw [node]
  split
  next hnone =>
    rw [hnone] at hneeds
    rw [drop_of_none hnone]
    exact finish_of_needsNode hb hneeds
  next e hsome =>
    rw [hsome] at hneeds
    rw [drop_of_some hsome, takeAll_of_needsNode hb hneeds]
    obtain ⟨event, start, stop⟩ := e
    cases event with
    | scalar text style anchor tag? =>
      have hscalar := takeNode_scalar ⟨documents, closed, place⟩ outer text style anchor tag?
        ⟨start, stop⟩
      rw [Extent.mark] at hscalar
      rw [hscalar]
      rfl
    | aliasOf anchor =>
      simp only [Builder.takeNode]
      cases closed.lookup anchor <;> rfl
    | sequenceStart anchor tag? =>
      simp only [Builder.takeNode]
      rw [takeAll_items documents anchor start.index outer [] (pos + 1) closed]
      cases items events (pos + 1) closed with
      | error m => rfl
      | ok r =>
        obtain ⟨⟨ns, last⟩, next, closed, hlt, hle⟩ := r
        simp only [resumeRead, List.reverse_nil, List.nil_append]
        rw [hand_place]
    | mappingStart anchor tag? =>
      simp only [Builder.takeNode]
      rw [takeAll_entries documents anchor start.index outer [] (pos + 1) closed]
      cases entries events (pos + 1) closed with
      | error m => rfl
      | ok r =>
        obtain ⟨⟨ns, last⟩, next, closed, hlt, hle⟩ := r
        simp only [resumeRead, List.reverse_nil, List.nil_append]
        rw [hand_place]
    | _ => rfl
termination_by (events.length - pos, 0)
decreasing_by all_goals have := lt_length ‹events[pos]? = _›; omega

/-- Reading items is what the builder does with them and their end. -/
theorem takeAll_items (documents : List Node) (anchor start : Nat) (outer : List Frame)
    (done : List Node) (pos : Nat) (closed : Closed) :
    (Builder.mk documents closed (.inside (.sequence anchor start done) outer)).takeAll
        (events.drop pos) =
      resumeRead (items events pos closed) fun r next closed =>
        let n := Node.sequence (done.reverse ++ r.1) start r.2
        (Builder.hand ⟨documents, closed.add anchor n, .outside⟩ outer n).takeAll
          (events.drop next) := by
  rw [items]
  split
  next hnone =>
    rw [drop_of_none hnone]
    rfl
  next e hsome =>
    split_ifs with hend
    · obtain ⟨event, first, last⟩ := e
      obtain rfl : event = .sequenceEnd := hend
      rw [drop_of_some hsome]
      simp only [Builder.takeAll, Builder.takeInside, note_eq, resumeRead, List.append_nil]
      rw [hand_place]
    · have hneeds : NeedsNode (.inside (.sequence anchor start done) outer) events[pos]? :=
        ⟨e, hsome, hend⟩
      rw [takeAll_node documents (.inside (.sequence anchor start done) outer)
        (.sequence anchor start done :: outer) pos closed rfl hneeds]
      cases node events pos closed with
      | error m => rfl
      | ok r =>
        obtain ⟨n, next, closed, hlt, hle⟩ := r
        dsimp only
        change (Builder.mk documents closed (.inside (.sequence anchor start (n :: done)) outer)).takeAll
          (events.drop next) = _
        rw [takeAll_items documents anchor start outer (n :: done) next closed]
        cases items events next closed with
        | error m => rfl
        | ok r => simp [resumeRead]
termination_by (events.length - pos, 1)
decreasing_by all_goals have := lt_length ‹events[pos]? = _›; omega

/-- Reading entries is what the builder does with them and their end. -/
theorem takeAll_entries (documents : List Node) (anchor start : Nat) (outer : List Frame)
    (done : List (Node × Node)) (pos : Nat) (closed : Closed) :
    (Builder.mk documents closed (.inside (.mapping anchor start done) outer)).takeAll
        (events.drop pos) =
      resumeRead (entries events pos closed) fun r next closed =>
        let n := Node.mapping (done.reverse ++ r.1) start r.2
        (Builder.hand ⟨documents, closed.add anchor n, .outside⟩ outer n).takeAll
          (events.drop next) := by
  rw [entries]
  split
  next hnone =>
    rw [drop_of_none hnone]
    rfl
  next e hsome =>
    split_ifs with hend
    · obtain ⟨event, first, last⟩ := e
      obtain rfl : event = .mappingEnd := hend
      rw [drop_of_some hsome]
      simp only [Builder.takeAll, Builder.takeInside, note_eq, resumeRead, List.append_nil]
      rw [hand_place]
    · have hneeds : NeedsNode (.inside (.mapping anchor start done) outer) events[pos]? :=
        ⟨e, hsome, hend⟩
      rw [takeAll_node documents (.inside (.mapping anchor start done) outer)
        (.mapping anchor start done :: outer) pos closed rfl hneeds]
      cases node events pos closed with
      | error m => rfl
      | ok r =>
        obtain ⟨key, next, closed, hlt, hle⟩ := r
        dsimp only
        change (Builder.mk documents closed (.inside (.keyed anchor start done key) outer)).takeAll
          (events.drop next) = _
        rw [takeAll_node documents (.inside (.keyed anchor start done key) outer)
          (.keyed anchor start done key :: outer) next closed rfl trivial]
        cases node events next closed with
        | error m => rfl
        | ok r =>
          obtain ⟨value, next', closed, hlt', hle'⟩ := r
          dsimp only
          change (Builder.mk documents closed
            (.inside (.mapping anchor start ((key, value) :: done)) outer)).takeAll
              (events.drop next') = _
          rw [takeAll_entries documents anchor start outer ((key, value) :: done) next' closed]
          cases entries events next' closed with
          | error m => rfl
          | ok r => simp [resumeRead]
termination_by (events.length - pos, 1)
decreasing_by all_goals have := lt_length ‹events[pos]? = _›; omega

end

/-- Reading documents is what the builder does outside of all documents. -/
theorem takeAll_stream (done : List Node) (pos : Nat) (closed : Closed) :
    (Builder.mk done closed .outside).takeAll (events.drop pos) =
      (stream events pos).map (done.reverse ++ ·) := by
  rw [stream]
  split
  next hnone =>
    rw [drop_of_none hnone]
    simp [Builder.takeAll, Builder.finish, Except.map]
  next e hsome =>
    have hlt := lt_length hsome
    rw [drop_of_some hsome]
    obtain ⟨event, first, last⟩ := e
    cases event with
    | streamEnd => simp [Builder.takeAll, Except.map]
    | streamStart => exact takeAll_stream done (pos + 1) closed
    | documentEnd => exact takeAll_stream done (pos + 1) closed
    | nothing => exact takeAll_stream done (pos + 1) closed
    | documentStart explicit =>
      change (Builder.mk done [] .documentStart).takeAll (events.drop (pos + 1)) = _
      dsimp only
      split_ifs with hend
      · obtain ⟨next, hnext, hevent⟩ := Option.map_eq_some_iff.mp hend
        have hstream := takeAll_stream done (pos + 1) []
        rw [drop_of_some hnext] at hstream ⊢
        obtain ⟨event, start, stop⟩ := next
        obtain rfl : event = .documentEnd := hevent
        exact hstream
      · have hneeds : NeedsNode .documentStart events[pos + 1]? := fun e he hevent =>
          hend (by rw [show events[pos + 1]? = some e from he, Option.map_some, hevent])
        rw [takeAll_node done .documentStart [] (pos + 1) [] rfl hneeds]
        cases node events (pos + 1) [] with
        | error m => rfl
        | ok r =>
          obtain ⟨n, next, closed, hpos, hle⟩ := r
          dsimp only
          change (Builder.mk (n :: done) closed .outside).takeAll (events.drop next) = _
          rw [takeAll_stream (n :: done) next closed]
          cases stream events next with
          | error m => rfl
          | ok ns => simp [Except.map]
    | _ => rfl
termination_by events.length - pos

/-- **The descent reads what the builder builds.** -/
theorem stream_eq_ofEvents (events : List MarkedEvent) : stream events 0 = Node.ofEvents events := by
  have h := @takeAll_stream events [] 0 []
  rw [List.drop_zero] at h
  rw [Node.ofEvents, Builder.start, h]
  cases stream events 0 <;> rfl

end Manifest.Proofs.Composing.Descent
