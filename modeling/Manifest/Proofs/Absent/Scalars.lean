import Manifest.Proofs.Absent.Cursors

/-! # The characters of scalars

A text without backslashes has no escapes. So every character of a scalar stands in the text, or it is
the space or the line feed to which a line break is folded (`Over`). One statement for each form of a
scalar says this of the whole scalar and of the cursor behind it: `plain_scan`, `quoted_scan` and
`block_scan`. -/

namespace Manifest.Proofs.Absent

open Manifest.Yaml

/-! ### The characters of scalars -/

/-- The characters of a scalar come from the text, or they are what its line breaks are folded to. -/
def Over (text cs : List Char) : Prop := ∀ c ∈ cs, c ∈ text ∨ c = ' ' ∨ c = '\n'

section

variable {text : List Char}

theorem over_nil : Over text [] := fun _ h => absurd h List.not_mem_nil

theorem over_append {a b : List Char} : Over text (a ++ b) ↔ Over text a ∧ Over text b :=
  List.forall_mem_append

theorem over_reverse {a : List Char} : Over text a.reverse ↔ Over text a := by
  simp [Over]

theorem Over.cons {c : Char} {a : List Char} (hc : c ∈ text) (ha : Over text a) :
    Over text (c :: a) :=
  List.forall_mem_cons.mpr ⟨.inl hc, ha⟩

theorem over_spaces (n : Nat) : Over text (List.replicate n ' ') :=
  fun _ h => .inr (.inl (List.eq_of_mem_replicate h))

theorem over_breaks (n : Nat) : Over text (List.replicate n '\n') :=
  fun _ h => .inr (.inr (List.eq_of_mem_replicate h))

theorem over_of_subset {a : List Char} (h : a ⊆ text) : Over text a := fun _ hc => .inl (h hc)

theorem Over.toList {a : List Char} (h : Over text a) :
    Over text (String.ofList a.reverse).toList := by
  rw [String.toList_ofList]
  exact over_reverse.mpr h

theorem over_fold {fold : Fold} (h : Over text fold.blanks) : Over text fold.text := by
  unfold Fold.text
  split
  · exact h
  · exact over_spaces 1
  · exact over_breaks _

/-! ### Plain scalars -/

theorem word_subset (inFlow : Bool) : ∀ cs : List Char, Plain.word inFlow cs ⊆ cs
  | [] => List.Subset.refl []
  | c :: rest => by
    rw [Plain.word]
    split
    · exact List.cons_subset_cons c (word_subset inFlow rest)
    · exact List.nil_subset _

theorem plain_passFold {indent : Int} {start : Mark} {rest : List Char} {mark : Mark}
    {leading comment : Bool} {fold fold' : Fold} {c : Cursor}
    (h : Plain.passFold indent start rest mark leading comment fold = .ok (fold', c))
    (hrest : rest <:+ text) (hfold : Over text fold.blanks) :
    c.rest <:+ text ∧ Over text fold'.blanks := by
  fun_induction Plain.passFold indent start rest mark leading comment fold with
  | case1 | case9 =>
    cases h
    exact ⟨hrest, hfold⟩
  | case2 rest mark _ _ fold ih => exact ih h (.trans ⟨['\r', '\n'], rfl⟩ hrest) hfold
  | case3 | case4 | case6 | case8 =>
    rename_i ih
    exact ih h (.trans (List.suffix_cons _ _) hrest) hfold
  | case5 =>
    rename_i ih
    exact ih h (.trans (List.suffix_cons _ _) hrest) (.cons (hrest.subset List.mem_cons_self) hfold)
  | case7 => cases h

theorem plain_words {inFlow : Bool} {indent : Int} {start : Mark} : ∀ (fuel : Nat) {c : Cursor}
    {cs : List Char} {fold : Fold} {stop : Mark} {s : Plain.Scanned},
    Plain.words inFlow indent start fuel c cs fold stop = .ok s → c.rest <:+ text →
      Over text cs → Over text fold.blanks → s.cursor.rest <:+ text ∧ Over text s.text.toList
  | 0, c, cs, fold, stop, s, h, hc, hcs, _ => by
    cases h
    exact ⟨hc, hcs.toList⟩
  | fuel + 1, c, cs, fold, stop, s, h, hc, hcs, hfold => by
    rw [Plain.words] at h
    extract_lets word next cs' stop' at h
    have hword : word ⊆ text := List.Subset.trans (word_subset inFlow c.rest) hc.subset
    have hnext : next.rest <:+ text := by
      unfold next
      split
      · exact hc
      · exact (suffix_take c _).trans hc
    have hcs' : Over text cs' := by
      unfold cs'
      split
      · exact hcs
      · exact over_append.mpr ⟨over_reverse.mpr (over_of_subset hword),
          over_append.mpr ⟨over_fold hfold, hcs⟩⟩
    clear_value next cs' stop'
    split at h
    · cases h
      exact ⟨hc, hcs.toList⟩
    split at h
    · cases h
    split at h
    · split at h
      · cases h
      next fold' next' hpass =>
        obtain ⟨hnext', hfold'⟩ := plain_passFold hpass hnext over_nil
        split at h
        · cases h
          exact ⟨hnext', hcs'.toList⟩
        · exact plain_words fuel h hnext' hcs' hfold'
    · cases h
      exact ⟨hnext, hcs'.toList⟩

theorem plain_scan {inFlow : Bool} {indent : Int} {c : Cursor} {s : Plain.Scanned}
    (h : Plain.scan inFlow indent c = .ok s) (hc : c.rest <:+ text) :
    s.cursor.rest <:+ text ∧ Over text s.text.toList := by
  unfold Plain.scan at h
  split at h
  · cases h
  split at h
  · cases h
  next hwords =>
    split at h
    · cases h
    · cases h
      exact plain_words _ hwords hc over_nil over_nil

/-! ### Quoted scalars -/

theorem quoted_passFold {indent : Int} {rest : List Char} {mark : Mark}
    {leading fresh : Bool} {fold fold' : Fold} {c : Cursor}
    (h : Quoted.passFold indent rest mark leading fresh fold = .ok (fold', c))
    (hrest : rest <:+ text) (hfold : Over text fold.blanks) :
    c.rest <:+ text ∧ Over text fold'.blanks := by
  fun_induction Quoted.passFold indent rest mark leading fresh fold with
  | case1 | case7 =>
    cases h
    exact ⟨hrest, hfold⟩
  | case2 rest mark _ _ fold ih => exact ih h (.trans ⟨['\r', '\n'], rfl⟩ hrest) hfold
  | case3 | case6 =>
    rename_i ih
    exact ih h (.trans (List.suffix_cons _ _) hrest) hfold
  | case4 =>
    rename_i ih
    exact ih h (.trans (List.suffix_cons _ _) hrest) (.cons (hrest.subset List.mem_cons_self) hfold)
  | case5 => cases h

/-- Without a backslash there is no escape, and a word is what stands in the text. -/
theorem quoted_word {single : Bool} (htext : '\\' ∉ text) : ∀ (fuel : Nat) {c : Cursor}
    {cs : List Char} {w : Quoted.Word}, Quoted.word single fuel c cs = .ok w → c.rest <:+ text → Over text cs →
      w.cursor.rest <:+ text ∧ Over text w.text
  | 0, c, cs, w, h, hc, hcs => by
    cases h
    exact ⟨hc, hcs⟩
  | fuel + 1, c, cs, w, h, hc, hcs => by
    rw [Quoted.word] at h
    split at h
    · cases h
      exact ⟨hc, hcs⟩
    next x rest hrest =>
      have hx : x ∈ text := hc.subset (by rw [hrest]; exact List.mem_cons_self)
      have htake : ∀ n, (c.take n).rest <:+ text := fun n => (suffix_take c n).trans hc
      split_ifs at h with h1 h2 h3 h4 h5 h6 h7
      · cases h
        exact ⟨hc, hcs⟩
      · have hquote : '\'' ∈ text := by
          rw [← beq_iff_eq.mp h3]
          exact hx
        exact quoted_word htext fuel h (htake 2) (.cons hquote hcs)
      · cases h
        exact ⟨hc, hcs⟩
      · exact quoted_word htext fuel h (htake 1) (.cons hx hcs)
      · cases h
        exact ⟨hc, hcs⟩
      · exact absurd (beq_iff_eq.mp h6 ▸ hx) htext
      · exact absurd (beq_iff_eq.mp h6 ▸ hx) htext
      · exact quoted_word htext fuel h (htake 1) (.cons hx hcs)

theorem quoted_words {single : Bool} {indent : Int} {start : Mark} (htext : '\\' ∉ text) :
    ∀ (fuel : Nat) {c c' : Cursor} {cs cs' : List Char},
    Quoted.words single indent start fuel c cs = .ok (cs', c') → c.rest <:+ text →
      Over text cs → c'.rest <:+ text ∧ Over text cs'
  | 0, c, c', cs, cs', h, hc, hcs => by cases h
  | fuel + 1, c, c', cs, cs', h, hc, hcs => by
    rw [Quoted.words] at h
    split at h
    · cases h
    split at h
    · cases h
    split at h
    · cases h
    split at h
    · cases h
    next w hword =>
      obtain ⟨hw, hcs'⟩ := quoted_word htext _ hword hc hcs
      generalize (if single then '\'' else '"') = quote at h
      split at h
      · cases h
        exact ⟨(suffix_take _ 1).trans hw, hcs'⟩
      split at h
      · cases h
      next fold next hpass =>
        obtain ⟨hnext, hfold⟩ := quoted_passFold hpass hw over_nil
        refine quoted_words htext fuel h hnext (over_append.mpr ⟨?_, hcs'⟩)
        split
        · exact over_breaks _
        · exact over_fold hfold

theorem quoted_scan {single inFlow : Bool} {indent : Int} {c : Cursor} {s : Quoted.Scanned}
    (htext : '\\' ∉ text) (h : Quoted.scan single inFlow indent c = .ok s) (hc : c.rest <:+ text) :
    s.cursor.rest <:+ text ∧ Over text s.text.toList := by
  simp only [Quoted.scan, bind, Except.bind] at h
  split at h
  · cases h
  next p hwords =>
    obtain ⟨hclosed, hcs⟩ := quoted_words htext _ hwords ((suffix_take c 1).trans hc) over_nil
    split at h
    · cases h
    next line hline =>
      split at h
      · cases h
        exact ⟨(suffix_skipLineRest hline).trans hclosed, hcs.toList⟩
      · cases h

/-! ### Block scalars -/

theorem suffix_readHeader {c : Cursor} {header : Block.Header}
    (h : Block.readHeader c = .ok header) : header.cursor.rest <:+ c.rest := by
  unfold Block.readHeader at h
  dsimp only at h
  split at h
  · split at h
    · cases h
    · cases h
      exact (suffix_take _ 1).trans (suffix_take c 1)
    · cases h
      exact suffix_take c 1
  · split at h
    · cases h
    · split at h
      · cases h
        exact (suffix_take _ 1).trans (suffix_take c 1)
      · cases h
        exact suffix_take c 1
    · cases h
      exact List.suffix_rfl

theorem suffix_passMargin (limit : Option Nat) (rest : List Char) (mark : Mark) (leading : Bool)
    (breaks widest : Nat) :
    (Block.passMargin limit rest mark leading breaks widest).cursor.rest <:+ rest := by
  fun_induction Block.passMargin limit rest mark leading breaks widest with
  | case1 | case5 => exact List.suffix_rfl
  | case2 rest mark _ _ _ ih => exact ih.trans ⟨['\r', '\n'], rfl⟩
  | case3 | case4 =>
    rename_i ih
    exact ih.trans (List.suffix_cons _ _)

theorem suffix_skipMargin (c : Cursor) (limit : Option Nat) :
    (Block.skipMargin c limit).cursor.rest <:+ c.rest :=
  suffix_passMargin limit c.rest c.mark c.leading 0 0

theorem over_joint (literal broken : Bool) (breaks : Nat) (afterBlank beforeBlank : Bool) :
    Over text (Block.joint literal broken breaks afterBlank beforeBlank) := by
  unfold Block.joint
  split_ifs
  · exact over_spaces 1
  · exact over_breaks _
  · exact over_breaks _

theorem block_lines (literal : Bool) (indent : Nat) : ∀ (fuel : Nat) (c : Cursor) (cs : List Char)
    (broken : Bool) (breaks : Nat) (afterBlank : Bool), c.rest <:+ text → Over text cs →
      (Block.lines literal indent fuel c cs broken breaks afterBlank).cursor.rest <:+ text ∧
        Over text (Block.lines literal indent fuel c cs broken breaks afterBlank).text
  | 0, c, cs, broken, breaks, afterBlank, hc, hcs => ⟨hc, hcs⟩
  | fuel + 1, c, cs, broken, breaks, afterBlank, hc, hcs => by
    rw [Block.lines]
    split
    · exact ⟨hc, hcs⟩
    · extract_lets blank line cs' c' margin
      have hc' : c'.rest <:+ text := (suffix_skip c _).trans hc
      have hline : line ⊆ text := fun _ hx => hc.subset ((List.takeWhile_prefix _).subset hx)
      have hcs' : Over text cs' := over_append.mpr ⟨over_reverse.mpr (over_of_subset hline),
        over_append.mpr ⟨over_joint _ _ _ _ _, hcs⟩⟩
      split
      · exact ⟨hc', hcs'⟩
      · exact block_lines literal indent fuel _ _ _ _ _
          ((suffix_skipMargin _ _).trans ((suffix_skipBreak c').trans hc')) hcs'

theorem over_emptyText (chomping : Block.Chomping) (sameLine broken : Bool) (breaks : Nat) :
    Over text (Block.emptyText chomping sameLine broken breaks) := by
  unfold Block.emptyText
  split
  · exact over_nil
  · split
    · exact over_nil
    · exact over_breaks 1
  · split_ifs
    · exact over_nil
    · exact over_breaks _
    · exact over_breaks _

theorem over_tail (chomping : Block.Chomping) (indent : Nat) (b : Block.Body) :
    Over text (Block.tail chomping indent b) := by
  have hfinal : Over text (Block.tail.final indent b) := by
    unfold Block.tail.final
    refine over_append.mpr ⟨over_breaks _, ?_⟩
    split
    · exact over_breaks 1
    · exact over_nil
  cases chomping with
  | strip => exact over_nil
  | clip => exact hfinal
  | keep => exact over_append.mpr ⟨hfinal, over_breaks _⟩

theorem block_scan {literal : Bool} {parent : Int} {c : Cursor} {s : Block.Scanned}
    (h : Block.scan literal parent c = .ok s) (hc : c.rest <:+ text) :
    s.cursor.rest <:+ text ∧ Over text s.text.toList := by
  unfold Block.scan at h
  extract_lets start fault at h
  split at h
  · cases h
  next header hheader =>
    simp -zeta only [bind, Except.bind] at h
    split at h
    · cases h
    next line hline =>
      have hline' : line.cursor.rest <:+ text := (suffix_skipLineRest hline).trans
        ((suffix_readHeader hheader).trans ((suffix_take c 1).trans hc))
      extract_lets line' broken first given margin indent c' empty body cs at h
      have hc' : c'.rest <:+ text := (suffix_skipMargin first _).trans
        ((suffix_skipBreak line').trans hline')
      clear_value c' indent
      split at h
      · cases h
      split at h
      · cases h
      split at h
      · cases h
        exact ⟨hc', by simpa using over_emptyText _ _ _ _⟩
      split at h
      · cases h
      · obtain ⟨hbody, hcs⟩ := block_lines literal indent (c'.rest.length + 1) c' [] false
          margin.breaks false hc' over_nil
        have hall : Over text cs := over_append.mpr ⟨over_reverse.mpr hcs, over_tail _ _ _⟩
        cases h
        exact ⟨hbody, by rwa [String.toList_ofList]⟩

end

end Manifest.Proofs.Absent
