import Manifest.Proofs.NameList.Text
import Manifest.Yaml.Token.Lexer

/-! # Lexing keys and values

Outside of flow collections the lexer has one candidate, and `inBlock` is a state there. A run is
cut into steps that lead from one such state to another (`Leads`).

* `scan_key` and `scan_line` read a name as a plain scalar, in front of a colon and at the end of
  its line;
* `leads_key`: a key and its colon start a mapping, if the key stands further right than all blocks
  and is short enough to be one still when the colon comes;
* `leads_value`: a value ends its line, however long it is, for it is no candidate. -/

namespace Manifest.Proofs.NameList

open Manifest.Yaml

/-! ### Words -/

theorem IsAppName.ne_nil {w : List Char} (hw : IsAppName w) : w ≠ [] := by
  obtain ⟨c, rest, rfl, -⟩ := hw.letter
  simp

theorem continues_nameChar {c : Char} (hc : IsNameChar c) (rest : List Char) :
    Plain.continues false (c :: rest) = true := by
  have h : c ≠ ':' := hc.ne (by decide)
  simp [Plain.continues, hc.isBlankOrBreak, h]

/-- A word of name characters ends where a word ends. -/
theorem word_append {w rest : List Char} (hw : ∀ c ∈ w, IsNameChar c)
    (hrest : Plain.continues false rest = false) : Plain.word false (w ++ rest) = w := by
  induction w with
  | nil =>
    cases rest with
    | nil => rfl
    | cons c rest => rw [List.nil_append, Plain.word, if_neg (by simp [hrest])]
  | cons c w ih =>
    rw [List.cons_append, Plain.word, if_pos (continues_nameChar (hw c (by simp)) _),
      ih fun d hd => hw d (List.mem_cons_of_mem _ hd)]

theorem not_hash {w : List Char} (hw : IsAppName w) (rest : List Char) :
    nextIs (· == '#') (w ++ rest) = false := by
  obtain ⟨c, w, rfl, hc⟩ := hw.letter
  have h : c ≠ '#' := ne_of_isLower hc (by decide)
  simpa [nextIs] using h

theorem atMarker_cons_of_ne {dash c : Char} (h : c ≠ dash) (rest : List Char) :
    atMarker dash (c :: rest) = false := by
  match rest with
  | [] => rfl
  | [_] => rfl
  | a :: b :: rest => simp [atMarker, h]

theorem not_atDocumentMarker {w : List Char} (hw : IsAppName w) (rest : List Char) :
    atDocumentMarker (w ++ rest) = false := by
  obtain ⟨c, w, rfl, hc⟩ := hw.letter
  have h1 : c ≠ '-' := ne_of_isLower hc (by decide)
  have h2 : c ≠ '.' := ne_of_isLower hc (by decide)
  rw [List.cons_append, atDocumentMarker, atMarker_cons_of_ne h1, atMarker_cons_of_ne h2]
  rfl

/-- A word in front of a colon is a scalar. -/
theorem scan_key {w : List Char} (hw : IsAppName w) {x : Char} (hx : isBlankOrBreak x = true)
    (rest : List Char) (indent : Int) (m : Mark) (leading : Bool) :
    Plain.scan false indent ⟨w ++ ':' :: x :: rest, m, leading⟩ =
      .ok ⟨String.ofList w, m.right w.length, ⟨':' :: x :: rest, m.right w.length, false⟩⟩ := by
  have hword : Plain.word false (w ++ ':' :: x :: rest) = w :=
    word_append hw.chars (by simp [Plain.continues, atBlank, hx])
  have hne := hw.ne_nil
  rw [Plain.scan, Plain.words]
  simp only [hword, not_hash hw, not_atDocumentMarker hw]
  simp [Cursor.take, hne, nextIs, isBlankOrBreak, isBlank, isBreak]
  rfl

/-- The next line starts with a dash, or there is none. -/
def AtItem (rest : List Char) : Prop := ∀ c ∈ rest.head?, c = '-'

theorem passFold_line {rest : List Char} (hrest : AtItem rest) (indent : Int) (start m : Mark)
    (leading : Bool) :
    Plain.passFold indent start ('\n' :: rest) m leading false .none =
      .ok (⟨[], 1⟩, ⟨rest, m.nextLine 1, true⟩) := by
  cases rest with
  | nil => rfl
  | cons c rest =>
    obtain rfl := hrest c rfl
    rfl

/-- A word that ends its line, with nothing but a dash at the start of the next one, is a scalar. -/
theorem scan_line {w : List Char} (hw : IsAppName w) {rest : List Char} (hrest : AtItem rest)
    {indent : Int} (hindent : 0 < indent) (m : Mark) :
    Plain.scan false indent ⟨w ++ '\n' :: rest, m, false⟩ =
      .ok ⟨String.ofList w, m.right w.length,
        ⟨rest, (m.right w.length).nextLine 1, true⟩⟩ := by
  have hword : Plain.word false (w ++ '\n' :: rest) = w := word_append hw.chars rfl
  have hcolumn : (Cursor.mk rest ((m.right w.length).nextLine 1) true).column < indent := hindent
  have hne := hw.ne_nil
  rw [Plain.scan, Plain.words]
  simp only [hword, not_hash hw]
  simp [Cursor.take, hne, nextIs, isBlankOrBreak, isBlank, isBreak, passFold_line hrest, hcolumn]
  rfl

/-! ### States -/

/-- A state outside of flow collections. -/
def inBlock (c : Cursor) (ts : List Token) (k : Candidate) (keyAllowed : Bool) (indent : Int)
    (indents : List Indent) (settled : Nat) : Lexer where
  cursor := c
  tokens := ts
  count := ts.length
  settled
  candidates := [k]
  keyAllowed
  indent
  indents
  flow := 0
  mappingStarted := false
  pairs := []
  adjacent := 0

variable {c : Cursor} {ts : List Token} {k : Candidate} {a : Bool} {i : Int} {is : List Indent}

/-- The candidate is no key any more, or the place `m` is still on its line and near it. -/
def Fresh (k : Candidate) (m : Mark) : Prop :=
  k.possible = true → m.line ≤ k.mark.line ∧ m.index ≤ k.mark.index + 1024

theorem dropStale_inBlock (hk : Fresh k c.mark) (s : Nat) :
    (inBlock c ts k a i is s).dropStale = .ok (inBlock c ts k a i is s) := by
  have hstale : (inBlock c ts k a i is s).isStale k = false := by
    cases hp : k.possible with
    | false => simp [Lexer.isStale, hp]
    | true =>
      obtain ⟨hline, hindex⟩ := hk hp
      have h1 : ¬k.mark.line < c.mark.line := by omega
      have h2 : ¬k.mark.index + 1024 < c.mark.index := by omega
      simp [Lexer.isStale, Lexer.mark, inBlock, h1, h2]
  unfold Lexer.dropStale
  rw [show (inBlock c ts k a i is s).candidates = [k] from rfl]
  simp only [List.any_cons, List.any_nil, List.map_cons, List.map_nil, hstale]
  rfl

/-- `n` tokens further the state `l` has become `l'`. How many tokens are settled is left open. -/
def Leads (n : Nat) (l l' : Nat → Lexer) : Prop :=
  ∀ s, ∃ s', ∀ fuel, (l s).run (fuel + n) = (l' s').run fuel

theorem Leads.trans {n m : Nat} {l l' l'' : Nat → Lexer} (h : Leads n l l')
    (h' : Leads m l' l'') : Leads (n + m) l l'' := by
  intro s
  obtain ⟨s', hs'⟩ := h s
  obtain ⟨s'', hs''⟩ := h' s'
  refine ⟨s'', fun fuel => ?_⟩
  rw [Nat.add_comm n, ← Nat.add_assoc, hs', hs'']

/-- The stream has not ended with the tokens read so far. -/
def Open (ts : List Token) : Prop := ts.head?.any (·.kind == .streamEnd) = false

theorem leads_fetch {l' : Nat → Lexer} (hts : Open ts) (hk : Fresh k c.mark)
    (h : ∀ s, (inBlock c ts k a i is s).fetch = .ok (l' s)) :
    Leads 1 (inBlock c ts k a i is) l' := by
  intro s
  obtain ⟨s', hs'⟩ : ∃ s', (inBlock c ts k a i is s).settle = inBlock c ts k a i is s' := ⟨_, rfl⟩
  have hrunning : ¬(inBlock c ts k a i is s').tokens.head?.any (·.kind == .streamEnd) = true := by
    rw [Bool.not_eq_true]
    exact hts
  refine ⟨s', fun fuel => ?_⟩
  rw [Lexer.run, dropStale_inBlock hk]
  dsimp only
  rw [hs', if_neg hrunning, h]

/-- Once the stream has ended, the run is over. -/
theorem run_inBlock_of_ended (hts : ts.head?.any (·.kind == .streamEnd) = true)
    (hk : Fresh k c.mark) (s fuel : Nat) :
    (inBlock c ts k a i is s).run (fuel + 1) = ⟨ts.reverse, none⟩ := by
  have hended : (inBlock c ts k a i is s).settle.tokens.head?.any (·.kind == .streamEnd) = true :=
    hts
  rw [Lexer.run, dropStale_inBlock hk]
  dsimp only
  rw [if_pos hended]
  rfl

/-- A candidate that is no key. -/
def spent (position : Nat) (m : Mark) : Candidate := ⟨false, false, position, m⟩

theorem fresh_spent (p : Nat) (m n : Mark) : Fresh (spent p m) n := fun h => nomatch h

/-! ### Fetching -/

theorem fetchFrom_of_isLower (l : Lexer) {x : Char} (hx : x.isLower = true) (rest : List Char) :
    l.fetchFrom x rest = l.fetchPlain := by
  unfold Lexer.fetchFrom
  split <;> try exact absurd hx (by decide)
  rfl

theorem closeBlocks_of_le {l : Lexer} {column : Int} (h : l.indent ≤ column) :
    l.closeBlocks column = l := by
  unfold Lexer.closeBlocks
  split
  · rfl
  · cases hi : l.indents with
    | nil => rfl
    | cons i rest => rw [Lexer.closeBlocks.go, if_pos h]

/-- In front of a character that starts no marker and at which no block ends, the character says
which token comes next. -/
theorem fetch_eq_fetchFrom {c : Cursor} {x : Char} {rest : List Char} {m : Mark} {b : Bool}
    (hgap : ∀ indent, c.skipGap indent = .ok ⟨⟨x :: rest, m, b⟩, false⟩)
    (hx : x ≠ '%' ∧ x ≠ '-' ∧ x ≠ '.') (hk : Fresh k m) (hi : i ≤ m.column) (s : Nat) :
    (inBlock c ts k a i is s).fetch =
      (inBlock ⟨x :: rest, m, b⟩ ts k a i is s).fetchFrom x rest := by
  have hskip : (inBlock c ts k a i is s).skipGap =
      .ok (inBlock ⟨x :: rest, m, b⟩ ts k a i is s) := by
    unfold Lexer.skipGap
    rw [show (inBlock c ts k a i is s).cursor = c from rfl, hgap]
    simp [inBlock]
  obtain ⟨h1, h2, h3⟩ := hx
  have hcolumn : ¬(Cursor.mk (x :: rest) m b).column < i := Int.not_lt.mpr hi
  rw [Lexer.fetch, hskip]
  simp only [bind, Except.bind]
  rw [dropStale_inBlock hk]
  dsimp only
  rw [closeBlocks_of_le hi]
  simp [inBlock, Lexer.mark, h1, atMarker_cons_of_ne h2, atMarker_cons_of_ne h3, hcolumn]

/-- The indentation at the top of the stack is that of a block, if there is one. -/
def OnBlock (is : List Indent) : Prop := ∀ j ∈ is.head?, j.block = true

theorem dropLooseIndents_of_block {l : Lexer} (h : OnBlock l.indents) :
    l.dropLooseIndents = l := by
  unfold Lexer.dropLooseIndents
  cases hi : l.indents with
  | nil => rfl
  | cons j rest =>
    have hj : j.block = true := h j (by rw [hi]; rfl)
    rw [Lexer.dropLooseIndents.go, if_pos hj]

theorem fetchPlain_inBlock {c' : Cursor} {k' : Candidate} {j : Int} {js : List Indent}
    {text : String} {stop : Mark} {s : Nat}
    (hsave : (inBlock c ts k a i is s).saveCandidate = inBlock c ts k' a i is s)
    (hdrop : (inBlock c ts k' false i is s).dropLooseIndents = inBlock c ts k' false j js s)
    (hscan : Plain.scan false (j + 1) c = .ok ⟨text, stop, c'⟩) :
    (inBlock c ts k a i is s).fetchPlain =
      .ok (inBlock c' (⟨.scalar .plain text, c.mark, stop⟩ :: ts) k' c'.leading j js s) := by
  have hstart : ({ inBlock c ts k' a i is s with keyAllowed := false } : Lexer) =
      inBlock c ts k' false i is s := rfl
  have hscan' : Plain.scan (inBlock c ts k' false j js s).inFlow
      ((inBlock c ts k' false j js s).indent + 1) (inBlock c ts k' false j js s).cursor =
        .ok ⟨text, stop, c'⟩ := hscan
  unfold Lexer.fetchPlain
  rw [hsave]
  dsimp only
  rw [hstart, hdrop, hscan']
  rfl

/-- A key is a scalar and a candidate, where a key may start. -/
theorem fetchPlain_key {w : List Char} (hw : IsAppName w) {x : Char}
    (hx : isBlankOrBreak x = true) (rest : List Char) (m : Mark) (b : Bool)
    (his : OnBlock is) (hi : i ≠ m.column) (s : Nat) :
    (inBlock ⟨w ++ ':' :: x :: rest, m, b⟩ ts k true i is s).fetchPlain =
      .ok (inBlock ⟨':' :: x :: rest, m.right w.length, false⟩
        (⟨.scalar .plain (String.ofList w), m, m.right w.length⟩ :: ts)
        ⟨true, false, ts.length, m⟩ false i is s) := by
  refine fetchPlain_inBlock ?_ (dropLooseIndents_of_block his) (scan_key hw hx rest _ m b)
  simp [Lexer.saveCandidate, inBlock, Lexer.inFlow, Cursor.column, Lexer.mark, hi]

/-- The value at the end of a line in a mapping that starts in column `j`. -/
theorem fetchPlain_line {w : List Char} (hw : IsAppName w) {rest : List Char} (hrest : AtItem rest)
    {j : Int} (hj : 0 ≤ j) (his : OnBlock is) (m : Mark) (s : Nat) :
    (inBlock ⟨w ++ '\n' :: rest, m, false⟩ ts k false i (⟨j, false⟩ :: is) s).fetchPlain =
      .ok (inBlock ⟨rest, (m.right w.length).nextLine 1, true⟩
        (⟨.scalar .plain (String.ofList w), m, m.right w.length⟩ :: ts) k true j is s) := by
  have hdrop : (inBlock ⟨w ++ '\n' :: rest, m, false⟩ ts k false i
      (⟨j, false⟩ :: is) s).dropLooseIndents =
        (inBlock ⟨w ++ '\n' :: rest, m, false⟩ ts k false j is s).dropLooseIndents := rfl
  exact fetchPlain_inBlock rfl (hdrop.trans (dropLooseIndents_of_block his))
    (scan_line hw hrest (by omega) m)

theorem insert_inBlock (front : List Token) (t : Token) (s : Nat) :
    (inBlock c (front ++ ts) k a i is s).insert ts.length t =
      inBlock c (front ++ t :: ts) k a i is s := by
  simp [Lexer.insert, inBlock, Nat.add_assoc]

theorem openBlock_inBlock {column : Nat} (hi : i < column) (his : OnBlock is)
    (front : List Token) (kind : Token.Kind) (m : Mark) (s : Nat) :
    (inBlock c (front ++ ts) k a i is s).openBlock column (some ts.length) kind m =
      inBlock c (front ++ .point kind m :: ts) k a column (⟨i, true⟩ :: is) s := by
  have hopen : (inBlock c (front ++ ts) k a i is s).openBlock column (some ts.length) kind m =
      (inBlock c (front ++ ts) k a column (⟨i, true⟩ :: is) s).insert ts.length
        (.point kind m) := by
    cases is with
    | nil => simp [Lexer.openBlock, inBlock, Lexer.inFlow, hi]
    | cons j is =>
      have hj : j.block = true := his j rfl
      simp [Lexer.openBlock, inBlock, Lexer.inFlow, hi, hj]
  rw [hopen, insert_inBlock]

/-- The colon behind a key that stands further right than all blocks starts a mapping. -/
theorem fetchValue_key {x : Char} (hx : x = ' ' ∨ x = '\n') (rest : List Char) (t : Token)
    {m : Mark} (hi : i < m.column) (his : OnBlock is) (n : Mark) (b : Bool) (s : Nat) :
    (inBlock ⟨':' :: x :: rest, n, b⟩ (t :: ts) ⟨true, false, ts.length, m⟩ a i is s).fetchValue =
      .ok (inBlock ⟨x :: rest, n.right 1, false⟩
        (.point .value n :: t :: .point .key m :: .point .blockMappingStart m :: ts)
        (spent ts.length m) false (m.column + 1) (⟨m.column, false⟩ :: ⟨i, true⟩ :: is) s) := by
  let k : Candidate := ⟨true, false, ts.length, m⟩
  let l := inBlock ⟨x :: rest, n.right 1, false⟩ ([t] ++ ts) k a i is s
  have hinsert : l.insert ts.length (.point .key m) =
      inBlock ⟨x :: rest, n.right 1, false⟩ ([t, .point .key m] ++ ts) k a i is s :=
    insert_inBlock [t] _ s
  have hvalue : (inBlock ⟨':' :: x :: rest, n, b⟩ (t :: ts) k a i is s).fetchValue =
      let l' := ((l.insert ts.length (.point .key m)).openBlock m.column (some ts.length)
        .blockMappingStart m).indentOne
      .ok (Lexer.push
        { l' with candidates := k.giveUp :: l'.candidates.tail, keyAllowed := false }
        (.point .value n)) := by
    rcases hx with rfl | rfl <;> rfl
  rw [hvalue, hinsert, openBlock_inBlock hi his]
  rfl

/-! ### Steps -/

theorem skipGap_word {w : List Char} (hw : IsAppName w) (rest : List Char) (m : Mark) (b : Bool)
    (indent : Option Int) :
    (Cursor.mk (w ++ rest) m b).skipGap indent = .ok ⟨⟨w ++ rest, m, b⟩, false⟩ := by
  obtain ⟨x, w, rfl, hx⟩ := hw.letter
  have h1 : x ≠ '\n' := ne_of_isLower hx (by decide)
  have h2 : x ≠ '\r' := ne_of_isLower hx (by decide)
  have h3 : x ≠ '#' := ne_of_isLower hx (by decide)
  have h4 : x ≠ ' ' := ne_of_isLower hx (by decide)
  have h5 : x ≠ '\t' := ne_of_isLower hx (by decide)
  simp [Cursor.skipGap, Cursor.passGap, isBreak, h1, h2, h3, h4, h5]

theorem skipGap_space (rest : List Char) (m : Mark) (b : Bool) (indent : Option Int) :
    (Cursor.mk (' ' :: rest) m b).skipGap indent = (Cursor.mk rest (m.right 1) b).skipGap indent :=
  rfl

/-- In front of a word the next token is a plain scalar. -/
theorem fetch_word {w : List Char} (hw : IsAppName w) {rest : List Char} {m : Mark} {b : Bool}
    (hgap : ∀ indent, c.skipGap indent = (Cursor.mk (w ++ rest) m b).skipGap indent)
    (hk : Fresh k m) (hi : i ≤ m.column) (s : Nat) :
    (inBlock c ts k a i is s).fetch =
      (inBlock ⟨w ++ rest, m, b⟩ ts k a i is s).fetchPlain := by
  have hskip : ∀ indent, c.skipGap indent = .ok ⟨⟨w ++ rest, m, b⟩, false⟩ := fun indent => by
    rw [hgap, skipGap_word hw]
  obtain ⟨x, w, rfl, hx⟩ := hw.letter
  have hne : x ≠ '%' ∧ x ≠ '-' ∧ x ≠ '.' :=
    ⟨ne_of_isLower hx (by decide), ne_of_isLower hx (by decide), ne_of_isLower hx (by decide)⟩
  rw [fetch_eq_fetchFrom hskip hne hk hi, fetchFrom_of_isLower _ hx]
  rfl

/-- A key and its colon, further right than all blocks, start a mapping. -/
theorem leads_key {w : List Char} (hw : IsAppName w) (hlength : w.length ≤ 1024) {x : Char}
    (hx : x = ' ' ∨ x = '\n') (rest : List Char) {m : Mark} (b : Bool) (hts : Open ts)
    (hk : Fresh k m) (hi : i < m.column) (his : OnBlock is) :
    Leads 2 (inBlock ⟨w ++ ':' :: x :: rest, m, b⟩ ts k true i is)
      (inBlock ⟨x :: rest, (m.right w.length).right 1, false⟩
        (.point .value (m.right w.length) ::
          ⟨.scalar .plain (String.ofList w), m, m.right w.length⟩ :: .point .key m ::
          .point .blockMappingStart m :: ts)
        (spent ts.length m) false (m.column + 1) (⟨m.column, false⟩ :: ⟨i, true⟩ :: is)) := by
  have hblank : isBlankOrBreak x = true := by rcases hx with rfl | rfl <;> rfl
  have hfresh : Fresh ⟨true, false, ts.length, m⟩ (m.right w.length) := fun _ =>
    ⟨Nat.le_refl _, Nat.add_le_add_left hlength _⟩
  have hcolumn : i ≤ (m.right w.length).column := by
    show i ≤ ((m.column + w.length : Nat) : Int)
    omega
  have hscalar : Leads 1 (inBlock ⟨w ++ ':' :: x :: rest, m, b⟩ ts k true i is)
      (inBlock ⟨':' :: x :: rest, m.right w.length, false⟩
        (⟨.scalar .plain (String.ofList w), m, m.right w.length⟩ :: ts)
        ⟨true, false, ts.length, m⟩ false i is) :=
    leads_fetch hts hk fun s => by
      rw [fetch_word hw (fun _ => rfl) hk (Int.le_of_lt hi),
        fetchPlain_key hw hblank rest m b his (Int.ne_of_lt hi)]
  have hcolon : ∀ l : Lexer, l.fetchFrom ':' (x :: rest) = l.fetchValue := fun l => by
    simp [Lexer.fetchFrom, atBlank, hblank]
  refine hscalar.trans (m := 1) (leads_fetch ?_ hfresh fun s => ?_)
  · rfl
  · rw [fetch_eq_fetchFrom (x := ':') (fun _ => rfl) (by decide) hfresh hcolumn, hcolon,
      fetchValue_key hx rest _ hi his]

/-- The value of a mapping that starts in column `j`, at the end of its line. -/
theorem leads_value {w : List Char} (hw : IsAppName w) {rest : List Char} (hrest : AtItem rest)
    {j : Int} (hj : 0 ≤ j) (his : OnBlock is) {m : Mark} (hts : Open ts)
    (hk : Fresh k (m.right 1)) (hk' : Fresh k m) (hi : i ≤ (m.right 1).column) :
    Leads 1 (inBlock ⟨' ' :: (w ++ '\n' :: rest), m, false⟩ ts k false i (⟨j, false⟩ :: is))
      (inBlock ⟨rest, ((m.right 1).right w.length).nextLine 1, true⟩
        (⟨.scalar .plain (String.ofList w), m.right 1, (m.right 1).right w.length⟩ :: ts) k true j
        is) :=
  leads_fetch hts hk' fun s => by
    rw [fetch_word hw (skipGap_space _ m false) hk hi, fetchPlain_line hw hrest hj his]

end Manifest.Proofs.NameList
