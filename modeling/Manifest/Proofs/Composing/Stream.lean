import Manifest.Proofs.Composing.Aliases
import Mathlib.Data.List.Forall2

/-! # Composing the events of trees

The builder takes the events of a tree as one step (`takeAll_tree`): it ends where the node of the
tree is handed to the collection around it, or with the first alias that has no node. So the
documents of a stream of trees are the nodes of its trees. -/

namespace Manifest.Proofs.Composing

open Manifest.Yaml

/-- Goes on with a result, unless an alias has no node. -/
def resume {α : Type} (r : Except Nat (α × Closed)) (go : α → Closed → Except Misfit (List Node)) :
    Except Misfit (List Node) :=
  match r with
  | .ok (x, closed) => go x closed
  | .error a => .error (.unknownAlias a)

/-- The builder is in front of a node that stands inside the collections `outer`. -/
def Awaits (b : Builder) (outer : List Frame) : Prop :=
  match b.place with
  | .outside => False
  | .documentStart => outer = []
  | .inside frame rest => outer = frame :: rest

/-- The event is the first one of a node. -/
def StartsNode : Event → Prop
  | .scalar _ _ _ _ => True
  | .sequenceStart _ _ => True
  | .mappingStart _ _ => True
  | .aliasOf _ => True
  | _ => False

theorem takeAll_start {b : Builder} {outer : List Frame} {e : MarkedEvent} (hb : Awaits b outer)
    (he : StartsNode e.event) (rest : List MarkedEvent) :
    b.takeAll (e :: rest) =
      match b.takeNode outer e with
      | .error m => .error m
      | .ok b => b.takeAll rest := by
  obtain ⟨documents, anchors, place⟩ := b
  obtain ⟨event, start, stop⟩ := e
  cases place with
  | outside => exact absurd hb id
  | documentStart =>
    obtain rfl : outer = [] := hb
    rw [Builder.takeAll]
    cases event <;> first | rfl | exact absurd he id
  | inside frame rest' =>
    obtain rfl : outer = frame :: rest' := hb
    rw [Builder.takeAll]
    cases frame <;> cases event <;> first | rfl | exact absurd he id

theorem note_eq (b : Builder) (anchor : Nat) (n : Node) :
    b.note anchor n = { b with anchors := Closed.add b.anchors anchor n } := by
  unfold Builder.note Closed.add
  split <;> rfl

/-- Where the builder stood does not matter once it has been handed a node. -/
theorem hand_place (documents : List Node) (closed : Closed) (place place' : Place)
    (outer : List Frame) (n : Node) :
    Builder.hand ⟨documents, closed, place⟩ outer n =
      Builder.hand ⟨documents, closed, place'⟩ outer n := by
  rcases outer with _ | ⟨frame, outer⟩
  · rfl
  · cases frame <;> rfl

theorem takeNode_scalar (b : Builder) (outer : List Frame) (text : String) (style : Style)
    (anchor : Nat) (tag? : Option Tag) (x : Extent) :
    b.takeNode outer (x.mark (.scalar text style anchor tag?)) =
      let n := Node.scalar (scalarText text style x) x.start.index x.stop.index
      .ok (Builder.hand { b with anchors := Closed.add b.anchors anchor n } outer n) := by
  have h : (if (style == .plain && x.start.index == x.stop.index) = true then "" else text) =
      scalarText text style x := by
    unfold scalarText
    congr 1
    simp
  dsimp only
  rw [← note_eq, ← h]
  rfl

mutual

/-- **The events of a tree are one step of the builder.** -/
theorem takeAll_tree : ∀ (t : EventTree) (b : Builder) (outer : List Frame)
    (rest : List MarkedEvent), Awaits b outer →
      b.takeAll (t.events ++ rest) =
        resume (t.compose b.anchors) fun n closed =>
          (Builder.hand { b with anchors := closed } outer n).takeAll rest
  | .scalar text style anchor tag? x, b, outer, rest, hb => by
    rw [EventTree.events, List.singleton_append, takeAll_start hb (by trivial), takeNode_scalar]
    rfl
  | .aliasOf anchor x, b, outer, rest, hb => by
    rw [EventTree.events, List.singleton_append, takeAll_start hb (by trivial), EventTree.compose]
    simp only [Extent.mark, Builder.takeNode]
    cases b.anchors.lookup anchor <;> rfl
  | .sequence anchor tag? opening items closing, b, outer, rest, hb => by
    rw [EventTree.events, List.cons_append, List.append_assoc, takeAll_start hb (by trivial),
      EventTree.compose]
    simp only [Extent.mark, Builder.takeNode]
    rw [takeAll_items items b.documents b.anchors anchor opening.start.index [] outer]
    cases EventTree.composeItems b.anchors items with
    | error a => rfl
    | ok r =>
      obtain ⟨ns, closed⟩ := r
      simp only [resume, List.append_nil, List.singleton_append, Builder.takeAll, Builder.takeInside,
        List.reverse_reverse, note_eq]
      rw [hand_place]
  | .mapping anchor tag? opening entries closing, b, outer, rest, hb => by
    rw [EventTree.events, List.cons_append, List.append_assoc, takeAll_start hb (by trivial),
      EventTree.compose]
    simp only [Extent.mark, Builder.takeNode]
    rw [takeAll_entries entries b.documents b.anchors anchor opening.start.index [] outer]
    cases EventTree.composeEntries b.anchors entries with
    | error a => rfl
    | ok r =>
      obtain ⟨ns, closed⟩ := r
      simp only [resume, List.append_nil, List.singleton_append, Builder.takeAll, Builder.takeInside,
        List.reverse_reverse, note_eq]
      rw [hand_place]

theorem takeAll_items : ∀ (ts : List EventTree) (documents : List Node) (closed : Closed)
    (anchor start : Nat) (items : List Node) (outer : List Frame) (rest : List MarkedEvent),
      (Builder.mk documents closed (.inside (.sequence anchor start items) outer)).takeAll
          (EventTree.eventsOfItems ts ++ rest) =
        resume (EventTree.composeItems closed ts) fun ns closed =>
          (Builder.mk documents closed
            (.inside (.sequence anchor start (ns.reverse ++ items)) outer)).takeAll rest
  | [], _, _, _, _, _, _, _ => rfl
  | t :: ts, documents, closed, anchor, start, items, outer, rest => by
    rw [EventTree.eventsOfItems, List.append_assoc, EventTree.composeItems,
      takeAll_tree t ⟨documents, closed, .inside (.sequence anchor start items) outer⟩
        (.sequence anchor start items :: outer) _ rfl]
    dsimp only
    cases t.compose closed with
    | error a => rfl
    | ok r =>
      obtain ⟨n, closed⟩ := r
      simp only [resume, Builder.hand]
      rw [takeAll_items ts documents closed anchor start (n :: items) outer rest]
      cases EventTree.composeItems closed ts with
      | error a => rfl
      | ok r => simp [resume]

theorem takeAll_entries : ∀ (es : List (EventTree × EventTree)) (documents : List Node)
    (closed : Closed) (anchor start : Nat) (entries : List (Node × Node)) (outer : List Frame)
    (rest : List MarkedEvent),
      (Builder.mk documents closed (.inside (.mapping anchor start entries) outer)).takeAll
          (EventTree.eventsOfEntries es ++ rest) =
        resume (EventTree.composeEntries closed es) fun ns closed =>
          (Builder.mk documents closed
            (.inside (.mapping anchor start (ns.reverse ++ entries)) outer)).takeAll rest
  | [], _, _, _, _, _, _, _ => rfl
  | (k, v) :: es, documents, closed, anchor, start, entries, outer, rest => by
    rw [EventTree.eventsOfEntries, List.append_assoc, List.append_assoc, EventTree.composeEntries,
      takeAll_tree k ⟨documents, closed, .inside (.mapping anchor start entries) outer⟩
        (.mapping anchor start entries :: outer) _ rfl]
    dsimp only
    cases k.compose closed with
    | error a => rfl
    | ok r =>
      obtain ⟨key, closed⟩ := r
      simp only [resume, Builder.hand]
      rw [takeAll_tree v ⟨documents, closed, .inside (.keyed anchor start entries key) outer⟩
        (.keyed anchor start entries key :: outer) _ rfl]
      dsimp only
      cases v.compose closed with
      | error a => rfl
      | ok r =>
        obtain ⟨value, closed⟩ := r
        simp only [resume, Builder.hand]
        rw [takeAll_entries es documents closed anchor start ((key, value) :: entries) outer rest]
        cases EventTree.composeEntries closed es with
        | error a => rfl
        | ok r => simp [resume]

end

/-! ### Streams -/

/-- The nodes of the documents that are not empty, each with anchors of its own. -/
def TreeStream.compose (s : TreeStream) : Except Nat (List Node) :=
  s.roots.mapM fun t => (t.compose []).map Prod.fst

theorem takeAll_documents (x : Extent) : ∀ (ds : List TreeDocument) (done : List Node)
    (closed : Closed),
      (Builder.mk done closed .outside).takeAll
          (ds.flatMap TreeDocument.events ++ [x.mark .streamEnd]) =
        match (ds.filterMap (·.root?)).mapM fun t => (t.compose []).map Prod.fst with
        | .ok ns => .ok (done.reverse ++ ns)
        | .error a => .error (.unknownAlias a)
  | [], done, closed => by simp [Extent.mark, Builder.takeAll, pure, Except.pure]
  | ⟨explicit, opening, none, closing⟩ :: ds, done, closed => takeAll_documents x ds done []
  | ⟨explicit, opening, some t, closing⟩ :: ds, done, closed => by
    have htree := takeAll_tree t ⟨done, [], .documentStart⟩ []
      (closing.mark .documentEnd :: (ds.flatMap TreeDocument.events ++ [x.mark .streamEnd])) rfl
    have hstart : (Builder.mk done closed .outside).takeAll
        ((TreeDocument.mk explicit opening (some t) closing :: ds).flatMap TreeDocument.events ++
          [x.mark .streamEnd]) =
      (Builder.mk done [] .documentStart).takeAll (t.events ++ (closing.mark .documentEnd ::
        (ds.flatMap TreeDocument.events ++ [x.mark .streamEnd]))) := by
      simp [TreeDocument.events, Extent.mark, Builder.takeAll, Builder.takeOutside]
    have hroots : (TreeDocument.mk explicit opening (some t) closing :: ds).filterMap (·.root?) =
        t :: ds.filterMap (·.root?) := rfl
    rw [hstart, htree, hroots, List.mapM_cons]
    dsimp only
    cases t.compose [] with
    | error a => rfl
    | ok r =>
      obtain ⟨n, closed'⟩ := r
      change (Builder.mk (n :: done) closed' .outside).takeAll
        (ds.flatMap TreeDocument.events ++ [x.mark .streamEnd]) = _
      rw [takeAll_documents x ds (n :: done) closed']
      cases (ds.filterMap (·.root?)).mapM fun t => (t.compose []).map Prod.fst with
      | error a => rfl
      | ok ns => simp [bind, Except.bind, Except.map, pure, Except.pure]

/-- The documents of a stream of trees are the nodes of its trees. -/
theorem ofEvents_events (s : TreeStream) :
    Node.ofEvents s.events =
      match s.compose with
      | .ok ns => .ok ns
      | .error a => .error (.unknownAlias a) :=
  takeAll_documents s.closing s.documents [] []

theorem forall₂_of_mapM {α β ε : Type} {f : α → Except ε β} : ∀ {l : List α} {r : List β},
    l.mapM f = .ok r → List.Forall₂ (fun a b => f a = .ok b) l r
  | [], r, h => by
    obtain rfl := Except.ok.inj h
    exact .nil
  | a :: l, r, h => by
    rw [List.mapM_cons] at h
    cases ha : f a with
    | error e => rw [ha] at h; cases h
    | ok b =>
      cases hl : l.mapM f with
      | error e => rw [ha, hl] at h; cases h
      | ok bs =>
        rw [ha, hl] at h
        obtain rfl := Except.ok.inj h
        exact .cons ha (forall₂_of_mapM hl)

theorem exists_of_mapM_error {α β ε : Type} {f : α → Except ε β} {e : ε} : ∀ {l : List α},
    l.mapM f = .error e →
      ∃ front a back, l = front ++ a :: back ∧ (∀ b ∈ front, ∃ c, f b = .ok c) ∧ f a = .error e
  | [], h => by cases h
  | a :: l, h => by
    rw [List.mapM_cons] at h
    cases ha : f a with
    | error e' =>
      rw [ha] at h
      obtain rfl := Except.error.inj h
      exact ⟨[], a, l, rfl, by simp, ha⟩
    | ok b =>
      cases hl : l.mapM f with
      | ok bs => rw [ha, hl] at h; cases h
      | error e' =>
        rw [ha, hl] at h
        obtain rfl := Except.error.inj h
        obtain ⟨front, c, back, rfl, hfront, hc⟩ := exists_of_mapM_error hl
        refine ⟨a :: front, c, back, rfl, fun x hx => ?_, hc⟩
        rcases List.mem_cons.mp hx with rfl | hx
        · exact ⟨b, ha⟩
        · exact hfront x hx

theorem map_fst_eq_ok {α β ε : Type} {r : Except ε (α × β)} {x : α} :
    r.map Prod.fst = .ok x ↔ ∃ y, r = .ok (x, y) := by
  cases r with
  | error e => simp [Except.map]
  | ok p => simp [Except.map, Prod.ext_iff]

theorem map_eq_error {α β ε : Type} {r : Except ε α} {f : α → β} {e : ε} :
    r.map f = .error e ↔ r = .error e := by
  cases r <;> simp [Except.map]

/-- **Composing undoes writing out.** The events of a stream of trees compose exactly if every alias
is of an anchor whose node is complete in front of it in the same document. Then the documents are
the nodes of the trees, in order, each alias being a copy of the latest complete node with its
anchor; otherwise composing stops at the first alias that has no node. -/
theorem ofEvents_streamEvents (s : TreeStream) :
    ((∃ ns, Node.ofEvents s.events = .ok ns) ↔ ∀ t ∈ s.roots, Bound t.notes) ∧
    (∀ ns, Node.ofEvents s.events = .ok ns →
      List.Forall₂ (fun t n => ∃ closed, t.compose [] = .ok (n, closed)) s.roots ns) ∧
    ∀ m, Node.ofEvents s.events = .error m →
      ∃ front t back a, s.roots = front ++ t :: back ∧ (∀ u ∈ front, Bound u.notes) ∧
        FirstUnbound t.notes a ∧ m = .unknownAlias a ∧
        m.message = "unknown alias #" ++ toString a := by
  have hbound : ∀ {t : EventTree} {n : Node}, (t.compose []).map Prod.fst = .ok n →
      Bound t.notes := fun h =>
    let ⟨closed, hc⟩ := map_fst_eq_ok.mp h
    bound_notes_iff.mpr ⟨_, hc⟩
  rw [ofEvents_events]
  cases hs : s.compose with
  | ok ns =>
    have hall := forall₂_of_mapM hs
    refine ⟨⟨fun _ => ?_, fun _ => ⟨ns, rfl⟩⟩, fun ns' h => ?_, fun m h => (nomatch h)⟩
    · exact ((List.forall₂_and_left _ _).mp (hall.imp fun t n hn => ⟨hbound hn, hn⟩)).1
    · obtain rfl := Except.ok.inj h
      exact hall.imp fun t n hn => map_fst_eq_ok.mp hn
  | error a =>
    obtain ⟨front, t, back, hroots, hfront, ht⟩ := exists_of_mapM_error hs
    have hun : FirstUnbound t.notes a := firstUnbound_notes_iff.mpr (map_eq_error.mp ht)
    refine ⟨⟨?_, fun h => ?_⟩, fun ns h => (nomatch h), fun m h => ?_⟩
    · rintro ⟨ns, h⟩
      cases h
    · obtain ⟨r, hr⟩ := bound_notes_iff.mp (h t (by rw [hroots]; simp))
      rw [map_eq_error.mp ht] at hr
      cases hr
    · obtain rfl := Except.error.inj h
      exact ⟨front, t, back, a, hroots, fun u hu => hbound (hfront u hu).choose_spec, hun, rfl, rfl⟩

end Manifest.Proofs.Composing
