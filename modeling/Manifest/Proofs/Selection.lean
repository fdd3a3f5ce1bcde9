import Manifest.Proofs.Locating
import Mathlib.Data.List.Basic
import Mathlib.Data.Nat.Basic

/-! # Which entry is selected

The search for the entry of a previous selection keeps the best candidate so far and gives it up
only for a nearer one. So among the entries of a name it finds the one that starts nearest to the
old start, and of equally near ones the first (`IsNearest`, `nearest?_eq_some_iff`).

Every rule of `select?` finds the first entry with its name and its start (`IsFirstOfKind`), and
looking for that name and start again finds it once more: selecting is a fixed point of itself
(`chosen_selection?`). -/

namespace Manifest.Proofs.Selection

open Manifest.Locator Manifest.Proofs.Locating

/-! ### The first of the least -/

/-- One step of the search for the first element of least `key`. -/
def keepLess {α : Type} (key : α → Nat) (best next : α) : α :=
  if key next < key best then next else best

/-- **The search finds the first of the least elements**: all in front of it have a greater key, and
none behind it a smaller one. -/
theorem foldl_keepLess {α : Type} (key : α → Nat) : ∀ (l : List α) (a : α),
    ∃ front back, a :: l = front ++ l.foldl (keepLess key) a :: back ∧
      (∀ x ∈ front, key (l.foldl (keepLess key) a) < key x) ∧
      ∀ x ∈ back, key (l.foldl (keepLess key) a) ≤ key x
  | [], a => ⟨[], [], rfl, by simp, by simp⟩
  | b :: l, a => by
    obtain ⟨front, back, heq, hfront, hback⟩ := foldl_keepLess key l (keepLess key a b)
    rw [List.foldl_cons]
    generalize l.foldl (keepLess key) (keepLess key a b) = r at heq hfront hback ⊢
    unfold keepLess at heq
    split_ifs at heq with hlt
    · -- `b` takes the place of `a`, which goes to the front
      have hr : key r ≤ key b := by
        rcases List.append_eq_cons_iff.mp heq.symm with ⟨-, h⟩ | ⟨front', rfl, -⟩
        · exact le_of_eq (congrArg key (List.cons.inj h).1)
        · exact le_of_lt (hfront b (by simp))
      refine ⟨a :: front, back, by rw [heq]; rfl, fun x hx => ?_, hback⟩
      rcases List.mem_cons.mp hx with rfl | hx
      · omega
      · exact hfront x hx
    · -- `a` stays, and `b` stands behind it or behind the head of the front
      rcases List.append_eq_cons_iff.mp heq.symm with ⟨rfl, h⟩ | ⟨front', rfl, h⟩
      · obtain ⟨rfl, rfl⟩ := List.cons.inj h
        refine ⟨[], b :: back, rfl, by simp, fun x hx => ?_⟩
        rcases List.mem_cons.mp hx with rfl | hx
        · omega
        · exact hback x hx
      · have ha := hfront a (by simp)
        refine ⟨a :: b :: front', back, by rw [h]; rfl, fun x hx => ?_, hback⟩
        rcases List.mem_cons.mp hx with rfl | hx
        · exact ha
        · rcases List.mem_cons.mp hx with rfl | hx
          · omega
          · exact hfront x (List.mem_cons_of_mem _ hx)

/-! ### The nearest entry of a name -/

/-- How far an entry starts from an offset. -/
def gap (e : Entry) (offset : Nat) : Nat := ((e.span.start : Int) - offset).natAbs

theorem distance_eq_gap (e : Entry) (offset : Nat) : distance e.span.start offset = gap e offset := by
  unfold distance gap; omega

/-- Entry `i` is the one of a name that starts nearest to an offset, and the first of equally near
ones. -/
structure IsNearest (name : String) (offset : Nat) (es : List Entry) (i : Nat) : Prop where
  named : ∃ e, es[i]? = some e ∧ e.name = name
  le : ∀ (e f : Entry) (j : Nat), es[i]? = some e → es[j]? = some f → f.name = name →
    gap e offset ≤ gap f offset
  lt : ∀ (e f : Entry) (j : Nat), es[i]? = some e → es[j]? = some f → f.name = name → j < i →
    gap e offset < gap f offset

theorem IsNearest.unique {name : String} {offset : Nat} {es : List Entry} {i j : Nat}
    (hi : IsNearest name offset es i) (hj : IsNearest name offset es j) : i = j := by
  obtain ⟨e, he, hen⟩ := hi.named
  obtain ⟨f, hf, hfn⟩ := hj.named
  rcases Nat.lt_trichotomy i j with h | h | h
  · have := hj.lt f e i hf he hen h
    have := hi.le e f j he hf hfn
    omega
  · exact h
  · have := hi.lt e f j he hf hfn h
    have := hj.le f e i hf he hen
    omega

/-- An entry that starts nearer to the offset than half its distance to all others of its name is
the nearest. -/
theorem IsNearest.eq_of_moved {name : String} {start : Nat} {es : List Entry} {i m : Nat} {e : Entry}
    (h : IsNearest name start es i) (he : es[m]? = some e) (hname : e.name = name)
    (hfar : ∀ j f, j ≠ m → es[j]? = some f → f.name = name → 2 * gap e start < gap f e.span.start) :
    i = m := by
  obtain ⟨f, hf, hfn⟩ := h.named
  by_contra hne
  have hle := h.le f e m hf he hname
  have hlt := hfar i f hne hf hfn
  unfold gap at hle hlt
  omega

/-- The entries of a name, each with its index. -/
def candidates (name : String) (es : List Entry) : List (Entry × Nat) :=
  es.zipIdx.filter fun (e, _) => e.name == name

theorem mem_candidates {name : String} {es : List Entry} {e : Entry} {i : Nat} :
    (e, i) ∈ candidates name es ↔ es[i]? = some e ∧ e.name = name := by
  simp [candidates, List.mem_zipIdx_iff_getElem?]

theorem pairwise_candidates (name : String) (es : List Entry) :
    (candidates name es).Pairwise (·.2 < ·.2) := by
  refine List.Pairwise.filter _ ?_
  rw [← List.pairwise_map (f := Prod.snd) (R := (· < ·)), List.zipIdx_map_snd]
  exact List.pairwise_lt_range'

theorem nearest?_eq_match (name : String) (offset : Nat) (es : List Entry) :
    nearest? name offset es =
      match candidates name es with
      | [] => none
      | c :: rest => some (rest.foldl (keepLess fun c => distance c.1.span.start offset) c).2 := rfl

theorem nearest?_eq_none_iff {name : String} {offset : Nat} {es : List Entry} :
    nearest? name offset es = none ↔ ∀ e ∈ es, e.name ≠ name := by
  have hmem : candidates name es = [] ↔ ∀ e ∈ es, e.name ≠ name := by
    rw [List.eq_nil_iff_forall_not_mem]
    constructor
    · intro h e he hn
      obtain ⟨i, hi⟩ := List.mem_iff_getElem?.mp he
      exact h (e, i) (mem_candidates.mpr ⟨hi, hn⟩)
    · rintro h ⟨e, i⟩ hc
      obtain ⟨hi, hn⟩ := mem_candidates.mp hc
      exact h e (List.mem_of_getElem? hi) hn
  rw [← hmem, nearest?_eq_match]
  cases candidates name es <;> simp

theorem isNearest_of_nearest? {name : String} {offset : Nat} {es : List Entry} {i : Nat}
    (h : nearest? name offset es = some i) : IsNearest name offset es i := by
  have hpair := pairwise_candidates name es
  rw [nearest?_eq_match] at h
  cases hc : candidates name es with
  | nil => rw [hc] at h; simp at h
  | cons c rest =>
    rw [hc] at h hpair
    obtain ⟨front, back, heq, hfront, hback⟩ :=
      foldl_keepLess (fun c : Entry × Nat => distance c.1.span.start offset) rest c
    simp only [Option.some.injEq] at h
    generalize rest.foldl (keepLess fun c : Entry × Nat => distance c.1.span.start offset) c = r at *
    obtain ⟨e, k⟩ := r
    obtain rfl : k = i := h
    rw [heq] at hc hpair
    have hr : es[k]? = some e ∧ e.name = name := mem_candidates.mp (by rw [hc]; simp)
    have hall : ∀ f j, es[j]? = some f → f.name = name →
        gap e offset ≤ gap f offset ∧ (j < k → gap e offset < gap f offset) := by
      intro f j hj hn
      rw [← distance_eq_gap, ← distance_eq_gap]
      have hm : (f, j) ∈ front ++ (e, k) :: back := hc ▸ mem_candidates.mpr ⟨hj, hn⟩
      have hback' : ∀ x ∈ back, k < x.2 :=
        fun x hx => (List.pairwise_cons.mp (List.pairwise_append.mp hpair).2.1).1 x hx
      rcases List.mem_append.mp hm with hm | hm
      · have := hfront _ hm
        exact ⟨le_of_lt this, fun _ => this⟩
      · rcases List.mem_cons.mp hm with hm | hm
        · obtain ⟨rfl, rfl⟩ := Prod.mk.inj hm
          exact ⟨le_rfl, fun h => absurd h (lt_irrefl _)⟩
        · have := hback' _ hm
          exact ⟨hback _ hm, fun h => by omega⟩
    refine ⟨⟨e, hr⟩, fun e' f j he' hj hn => ?_, fun e' f j he' hj hn hlt => ?_⟩
    · obtain rfl : e = e' := Option.some.inj (hr.1.symm.trans he')
      exact (hall f j hj hn).1
    · obtain rfl : e = e' := Option.some.inj (hr.1.symm.trans he')
      exact (hall f j hj hn).2 hlt

/-- **The search by name finds exactly the nearest entry.** -/
theorem nearest?_eq_some_iff {name : String} {offset : Nat} {es : List Entry} {i : Nat} :
    nearest? name offset es = some i ↔ IsNearest name offset es i := by
  refine ⟨isNearest_of_nearest?, fun h => ?_⟩
  cases hn : nearest? name offset es with
  | none =>
    obtain ⟨e, he, hname⟩ := h.named
    exact absurd hname (nearest?_eq_none_iff.mp hn e (List.mem_of_getElem? he))
  | some j => rw [h.unique (isNearest_of_nearest? hn)]

/-! ### The rules of selecting -/

/-- Entry `i` is the first one with its name and its start. -/
def IsFirstOfKind (es : List Entry) (i : Nat) : Prop :=
  ∃ e, es[i]? = some e ∧ ∀ j < i, ∀ f, es[j]? = some f → f.selection ≠ e.selection

/-- A search by a property finds an entry with it, and no entry in front of that one has it. -/
theorem first_of_findIdx? {p : Entry → Bool} {es : List Entry} {i : Nat}
    (h : es.findIdx? p = some i) :
    ∃ e, es[i]? = some e ∧ p e = true ∧ ∀ j < i, ∀ f, es[j]? = some f → p f = false := by
  obtain ⟨hi, hpi, hbefore⟩ := List.findIdx?_eq_some_iff_getElem.mp h
  refine ⟨es[i], List.getElem?_eq_getElem hi, hpi, fun j hj f hf => ?_⟩
  obtain ⟨hjl, rfl⟩ := List.getElem?_eq_some_iff.mp hf
  simpa using hbefore j hj

/-- A search by a property of the name and the start finds the first of its kind. -/
theorem isFirstOfKind_of_findIdx? {p : Entry → Bool} {es : List Entry} {i : Nat}
    (hp : ∀ e f : Entry, f.selection = e.selection → p f = p e) (h : es.findIdx? p = some i) :
    IsFirstOfKind es i := by
  obtain ⟨e, he, hpe, hbefore⟩ := first_of_findIdx? h
  refine ⟨e, he, fun j hj f hf hsel => ?_⟩
  rw [← hp e f hsel, hbefore j hj f hf] at hpe
  cases hpe

theorem IsNearest.isFirstOfKind {name : String} {offset : Nat} {es : List Entry} {i : Nat}
    (h : IsNearest name offset es i) : IsFirstOfKind es i := by
  obtain ⟨e, he, hn⟩ := h.named
  refine ⟨e, he, fun j hj f hf hsel => ?_⟩
  obtain ⟨hname, hstart⟩ := Selection.mk.inj hsel
  have hlt := h.lt e f j he hf (hname.trans hn) hj
  unfold gap at hlt
  omega

theorem isFirstOfKind_of_reselect? {previous : Selection} {es : List Entry} {i : Nat}
    (h : reselect? previous es = some i) : IsFirstOfKind es i := by
  unfold reselect? at h
  cases hn : nearest? previous.name previous.start es with
  | some j =>
    rw [hn] at h
    obtain rfl : j = i := Option.some.inj h
    exact (isNearest_of_nearest? hn).isFirstOfKind
  | none =>
    rw [hn] at h
    refine isFirstOfKind_of_findIdx? (fun e f hsel => ?_) h
    rw [show f.span.start = e.span.start from congrArg Selection.start hsel]

theorem isFirstOfKind_zero {es : List Entry} (h : es ≠ []) : IsFirstOfKind es 0 := by
  obtain ⟨e, es, rfl⟩ := List.exists_cons_of_ne_nil h
  exact ⟨e, rfl, fun j hj => absurd hj (Nat.not_lt_zero j)⟩

/-- **Every rule selects the first entry of its kind.** -/
theorem isFirstOfKind_of_select? {l : Locator} {previous? : Option Selection} {es : List Entry}
    {i : Nat} (h : l.select? previous? es = some i) : IsFirstOfKind es i := by
  unfold select? at h
  split_ifs at h with hes
  have hne : es ≠ [] := fun h => hes (by simp [h])
  cases hp : l.pinned? with
  | some name =>
    rw [hp] at h
    refine isFirstOfKind_of_findIdx? (fun e f hsel => ?_) h
    rw [show f.name = e.name from congrArg Selection.name hsel]
  | none =>
    rw [hp] at h
    cases hr : previous?.bind (reselect? · es) with
    | none =>
      rw [hr] at h
      obtain rfl : 0 = i := Option.some.inj h
      exact isFirstOfKind_zero hne
    | some j =>
      rw [hr] at h
      obtain rfl : j = i := Option.some.inj h
      obtain ⟨previous, -, hj⟩ := Option.bind_eq_some_iff.mp hr
      exact isFirstOfKind_of_reselect? hj

/-- The first entry of its kind is found again by its own name and start. -/
theorem reselect?_selection {es : List Entry} {i : Nat} {e : Entry} (he : es[i]? = some e)
    (h : IsFirstOfKind es i) : reselect? e.selection es = some i := by
  obtain ⟨e', he', hfirst⟩ := h
  obtain rfl : e = e' := Option.some.inj (he.symm.trans he')
  have hzero : gap e e.span.start = 0 := by unfold gap; omega
  have hnear : IsNearest e.name e.span.start es i := by
    refine ⟨⟨e, he, rfl⟩, fun f g j hf hg hn => ?_, fun f g j hf hg hn hj => ?_⟩
    · obtain rfl : e = f := Option.some.inj (he.symm.trans hf)
      omega
    · obtain rfl : e = f := Option.some.inj (he.symm.trans hf)
      have hstart : g.span.start ≠ e.span.start := fun hs =>
        hfirst j hj g hg (by unfold Entry.selection; rw [hn, hs])
      unfold gap
      omega
  unfold reselect?
  rw [show nearest? e.selection.name e.selection.start es = some i from
    nearest?_eq_some_iff.mpr hnear]
  rfl

theorem lt_of_select? {l : Locator} {previous? : Option Selection} {es : List Entry} {i : Nat}
    (h : l.select? previous? es = some i) : i < es.length := by
  obtain ⟨e, he, -⟩ := isFirstOfKind_of_select? h
  exact (List.getElem?_eq_some_iff.mp he).1

/-- The index that the rules give is never out of range, so all of it reaches the result. -/
@[simp] theorem selected?_chosen (l : Locator) (previous? : Option Selection) (es : List Entry) :
    (chosen l previous? es).selected? = l.select? previous? es := by
  unfold chosen Located.ofEntries
  cases h : l.select? previous? es with
  | none => rfl
  | some i => simp [Option.filter, lt_of_select? h]

theorem selection?_chosen {l : Locator} {previous? : Option Selection} {es : List Entry} {i : Nat}
    {e : Entry} (h : l.select? previous? es = some i) (he : es[i]? = some e) :
    (chosen l previous? es).selection? = some e.selection := by
  rw [Located.selection?, Located.chosen?, selected?_chosen, h, entries_chosen, Option.bind_some, he]
  rfl

theorem select?_eq_of_pinned {l : Locator} {name : String} (h : l.pinned? = some name)
    (previous? previous'? : Option Selection) (es : List Entry) :
    l.select? previous? es = l.select? previous'? es := by
  unfold select?
  rw [h]

theorem select?_of_unpinned {l : Locator} (h : l.pinned? = none) (previous? : Option Selection)
    {es : List Entry} (hes : es ≠ []) :
    l.select? previous? es = some ((previous?.bind (reselect? · es)).getD 0) := by
  unfold select?
  rw [h, if_neg (by simpa using hes)]

/-- **Selecting is a fixed point of itself**: the selection that it leaves selects the same entry
again. -/
theorem chosen_selection? (l : Locator) (previous? : Option Selection) (es : List Entry) :
    chosen l (chosen l previous? es).selection? es = chosen l previous? es := by
  refine Located.ext rfl ?_
  rw [selected?_chosen, selected?_chosen]
  rcases eq_or_ne es [] with rfl | hes
  · rfl
  · cases hp : l.pinned? with
    | some name => exact select?_eq_of_pinned hp _ _ es
    | none =>
      have hs := select?_of_unpinned hp previous? hes
      have hfirst := isFirstOfKind_of_select? hs
      obtain ⟨e, he, -⟩ := id hfirst
      rw [select?_of_unpinned hp _ hes, selection?_chosen hs he, Option.bind_some,
        reselect?_selection he hfirst, Option.getD_some, hs]

end Manifest.Proofs.Selection
