import Manifest.Document.Word
import Manifest.Proofs.Lines.Table

/-! # The tables of a document

The look-ups in 64-bit arithmetic find what those of the document find, and the steps that they take
do not fault. The table of byte offsets is strictly increasing (`pairwise_byteStarts`), so an offset
has one place in it (`idxOf?_of_getElem?`); as many line starts lie up to an offset as it has breaks
(`countP_lineStarts`), which makes the search for a line a count. -/

namespace Manifest.Proofs.Lines

open Manifest.Document Manifest.Document.Word

/-! ### Entries of an increasing table -/

theorem idxOf?_of_getElem? : ∀ {table : List Nat} {i a : Nat}, table.Pairwise (· < ·) →
    table[i]? = some a → table.idxOf? a = some i
  | [], _, _, _, h => by simp at h
  | b :: table, 0, a, _, h => by
    rw [List.getElem?_cons_zero, Option.some.injEq] at h
    simp [List.idxOf?_cons, h]
  | b :: table, i + 1, a, hlt, h => by
    obtain ⟨hb, hrest⟩ := List.pairwise_cons.mp hlt
    rw [List.getElem?_cons_succ] at h
    have hne : b ≠ a := (hb a (List.mem_of_getElem? h)).ne
    simp [List.idxOf?_cons, hne, idxOf?_of_getElem? hrest h]

theorem getElem?_of_idxOf? {table : List Nat} {i a : Nat} (h : table.idxOf? a = some i) :
    table[i]? = some a := by
  obtain ⟨hi, rfl, -⟩ := List.idxOf?_eq_some_iff.mp h
  exact List.getElem?_eq_getElem hi

theorem entry_le {table : List Nat} {i j a b : Nat} (hlt : table.Pairwise (· < ·)) (hij : i ≤ j)
    (ha : table[i]? = some a) (hb : table[j]? = some b) : a ≤ b := by
  obtain ⟨hi, rfl⟩ := List.getElem?_eq_some_iff.mp ha
  obtain ⟨hj, rfl⟩ := List.getElem?_eq_some_iff.mp hb
  rcases hij.eq_or_lt with rfl | hij
  · exact le_rfl
  · exact (List.pairwise_iff_getElem.mp hlt i j hi hj hij).le

theorem index_le {table : List Nat} {i j a b : Nat} (hlt : table.Pairwise (· < ·))
    (ha : table[i]? = some a) (hb : table[j]? = some b) (hab : a ≤ b) : i ≤ j := by
  by_contra h
  obtain ⟨hi, rfl⟩ := List.getElem?_eq_some_iff.mp ha
  obtain ⟨hj, rfl⟩ := List.getElem?_eq_some_iff.mp hb
  have := List.pairwise_iff_getElem.mp hlt j i hj hi (Nat.not_le.mp h)
  omega

/-! ### Characters -/

theorem length_byteStarts : ∀ (cs : List Char) (b : Nat), (byteStarts b cs).length = cs.length + 1
  | [], _ => rfl
  | c :: cs, b => by rw [byteStarts, List.length_cons, length_byteStarts cs, List.length_cons]

theorem le_of_mem_byteStarts : ∀ {cs : List Char} {b a : Nat}, a ∈ byteStarts b cs → b ≤ a
  | [], b, a, h => by rw [byteStarts, List.mem_singleton] at h; omega
  | c :: cs, b, a, h => by
    rcases List.mem_cons.mp h with rfl | h
    · exact le_rfl
    · have := le_of_mem_byteStarts h
      omega

theorem pairwise_byteStarts : ∀ (cs : List Char) (b : Nat), (byteStarts b cs).Pairwise (· < ·)
  | [], b => List.pairwise_singleton _ b
  | c :: cs, b => by
    refine List.pairwise_cons.mpr ⟨fun a ha => ?_, pairwise_byteStarts cs _⟩
    have hle := le_of_mem_byteStarts ha
    have hpos := c.utf8Size_pos
    omega

variable (d : Document)

theorem length_tables : (tables d).byteStarts.length = d.size + 1 := length_byteStarts d.chars 0

@[simp] theorem size_tables : (tables d).size = .ok d.size := by
  rw [Tables.size, sub, length_tables, if_pos (by omega), Nat.add_sub_cancel]

/-- The last entry of the table is the end of the text. -/
theorem getElem?_size_byteStarts :
    (tables d).byteStarts[d.size]? = some ((tables d).byteStarts.getLastD 0) := by
  have hlength := length_tables d
  have hne : (tables d).byteStarts ≠ [] := List.ne_nil_of_length_eq_add_one hlength
  rw [List.getLastD_eq_getLast?, List.getLast?_eq_some_getLast hne, Option.getD_some,
    List.getLast_eq_getElem, List.getElem?_eq_getElem (by omega)]
  simp only [hlength, Nat.add_sub_cancel]

/-- A cut at the bytes of two characters is the text from the one to the other. -/
theorem cut_tables {i j b e : Nat} (hij : i ≤ j) (hb : (tables d).byteStarts[i]? = some b)
    (he : (tables d).byteStarts[j]? = some e) :
    (tables d).cut b e = .ok ((d.chars.drop i).take (j - i)) := by
  have hlt : (tables d).byteStarts.Pairwise (· < ·) := pairwise_byteStarts d.chars 0
  rw [Tables.cut, if_neg (Nat.not_lt.mpr (entry_le hlt hij hb he)), idxOf?_of_getElem? hlt hb,
    idxOf?_of_getElem? hlt he]
  rfl

theorem charAt?_tables (i : Nat) : (tables d).charAt? i = .ok (d.charAt? i) := by
  unfold Tables.charAt?
  simp only [size_tables, bind, Except.bind]
  rcases Nat.lt_or_ge i d.size with hi | hi
  · obtain ⟨b, hb⟩ : ∃ b, (tables d).byteStarts[i]? = some b :=
      ⟨_, List.getElem?_eq_getElem (by rw [length_tables]; omega)⟩
    have haccess : access (tables d).byteStarts i = .ok b := by rw [access, hb]
    have hhead : ((d.chars.drop i).take (d.size - i)).head? = d.charAt? i := by
      rw [List.head?_take, if_neg (by omega), List.head?_drop]
      rfl
    simp only [if_neg (Nat.not_le.mpr hi), haccess,
      cut_tables d hi.le hb (getElem?_size_byteStarts d), hhead]
    rfl
  · have hnone : d.charAt? i = none := List.getElem?_eq_none_iff.mpr hi
    rw [if_pos hi, hnone]
    rfl

/-- The byte offset of a character offset is in the table, where the character begins or the text
ends. -/
theorem getElem?_toByte (i : Nat) :
    (tables d).byteStarts[min i d.size]? = some ((tables d).toByte i) := by
  have hlength := length_tables d
  unfold Tables.toByte
  rcases Nat.lt_or_ge d.size i with hi | hi
  · have hnone : (tables d).byteStarts[i]? = none := List.getElem?_eq_none (by omega)
    rw [Nat.min_eq_right hi.le, hnone, Option.getD_none]
    exact getElem?_size_byteStarts d
  · rw [Nat.min_eq_left hi, List.getElem?_eq_getElem (show i < (tables d).byteStarts.length by omega),
      Option.getD_some]

/-- The text between the bytes of two offsets is the text between the offsets, whatever their order,
with those beyond the end brought back to the end. -/
theorem textBetween_tables (start stop : Nat) :
    (tables d).textBetween start stop =
      .ok ((d.chars.take (min stop d.size)).drop (min start d.size)) := by
  have hlt : (tables d).byteStarts.Pairwise (· < ·) := pairwise_byteStarts d.chars 0
  have hb := getElem?_toByte d start
  have he := getElem?_toByte d stop
  have hmax : (tables d).byteStarts[max (min stop d.size) (min start d.size)]? =
      some (max ((tables d).toByte stop) ((tables d).toByte start)) := by
    rcases Nat.le_total (min stop d.size) (min start d.size) with h | h
    · rw [Nat.max_eq_right h, Nat.max_eq_right (entry_le hlt h he hb), hb]
    · rw [Nat.max_eq_left h, Nat.max_eq_left (entry_le hlt h hb he), he]
  rw [Tables.textBetween, cut_tables d (Nat.le_max_right _ _) hb hmax, List.drop_take]
  congr 2
  omega

/-- The text under a span is that of the document. -/
theorem slice_tables (s : Span) : (tables d).slice s = .ok (d.sliceChars s) := by
  have hordered := s.ordered
  have hdrop : d.chars.drop (min s.start d.size) = d.chars.drop s.start := by
    rw [List.drop_eq_drop_iff]
    unfold Document.size
    omega
  have htake : (d.chars.drop s.start).take (min s.stop d.size - min s.start d.size) =
      (d.chars.drop s.start).take s.size := by
    rw [List.take_eq_take_iff, List.length_drop]
    unfold Document.size Span.size
    omega
  rw [Tables.slice, textBetween_tables, List.drop_take, hdrop, htake]
  rfl

/-! ### Lines -/

theorem countP_startsAfter (i : Nat) : ∀ (cs : List Char) (b : Nat),
    (startsAfter b cs).countP (· ≤ i) = (cs.take (i - b)).count '\n'
  | [], b => by simp [startsAfter]
  | c :: cs, b => by
    have ih := countP_startsAfter i cs (b + 1)
    rcases Nat.lt_or_ge b i with hb | hb
    · rw [show i - b = i - (b + 1) + 1 by omega, List.take_succ_cons]
      unfold startsAfter
      split_ifs with hc
      · rw [List.countP_cons, if_pos (decide_eq_true (Nat.succ_le_of_lt hb)), ih, hc,
          List.count_cons_self]
      · rw [ih, List.count_cons_of_ne hc]
    · rw [show i - b = 0 by omega, List.take_zero, List.count_nil]
      rw [show i - (b + 1) = 0 by omega, List.take_zero, List.count_nil] at ih
      unfold startsAfter
      split_ifs with hc
      · rw [List.countP_cons, if_neg (by rw [decide_eq_true_eq]; omega), ih]
      · exact ih

/-- As many lines start up to an offset as there are breaks in front of it, and the first one. -/
theorem countP_lineStarts (i : Nat) : d.lineStarts.countP (· ≤ i) = breaks d i + 1 := by
  rw [lineStarts, List.countP_cons_of_pos (by simp), countP_startsAfter]
  rfl

theorem lineOf?_tables (i : Nat) : (tables d).lineOf? i = .ok (d.lineOf? i) := by
  unfold Tables.lineOf?
  simp only [size_tables, bind, Except.bind]
  rcases Nat.lt_or_ge d.size i with hi | hi
  · rw [if_pos hi, lineOf?_eq_none hi]
    rfl
  · rw [if_neg (Nat.not_lt.mpr hi), lineOf?_eq hi]
    cases hfound : (tables d).lineStarts.idxOf? i with
    | some line =>
      -- a line starts right there
      have hstart : IsLineStart d line i := getElem?_lineStarts.mp (getElem?_of_idxOf? hfound)
      rw [hstart.breaks_eq]
      rfl
    | none =>
      have hnot : i ∉ d.lineStarts := List.idxOf?_eq_none_iff.mp hfound
      have hcount : d.lineStarts.countP (· < i) = breaks d i + 1 := by
        rw [← countP_lineStarts]
        refine List.countP_congr fun start hmem => ?_
        have hne : start ≠ i := fun h => hnot (h ▸ hmem)
        simp only [decide_eq_true_eq]
        omega
      have hsub : sub ((tables d).lineStarts.countP (· < i)) 1 = .ok (breaks d i) := by
        rw [show (tables d).lineStarts = d.lineStarts from rfl, hcount]
        rfl
      rw [hsub]
      rfl

theorem lineColumn?_tables (i : Nat) : (tables d).lineColumn? i = .ok (d.lineColumn? i) := by
  unfold Tables.lineColumn?
  simp only [lineOf?_tables, bind, Except.bind]
  rcases Nat.lt_or_ge d.size i with hi | hi
  · rw [lineOf?_eq_none hi, lineColumn?_eq_none hi]
    rfl
  · obtain ⟨start, hstart⟩ := exists_lineStart_of d i
    have haccess : access (tables d).lineStarts (breaks d i) = .ok start := by
      rw [access, show (tables d).lineStarts = d.lineStarts from rfl, getElem?_lineStarts.mpr hstart]
    have hsub : sub i start = .ok (i - start) := if_pos ((hstart.le_iff i).mpr le_rfl)
    rw [lineOf?_eq hi, lineColumn?_eq hi hstart]
    simp only [haccess, hsub]
    rfl

/-- The text fits into memory: the length of the longer one of its tables is a word. -/
def Fits (d : Document) : Prop := d.size + 1 < Text.wordCount

variable {d}

theorem lineStop_tables (hd : Fits d) {line : Nat} (hline : line < d.lineCount) :
    (tables d).lineStop line = .ok (stopIn d line) := by
  have hsum : add line 1 = .ok (line + 1) := by
    have hcount : d.lineCount ≤ d.size + 1 := Nat.succ_le_succ List.count_le_length
    unfold Fits at hd
    exact if_pos (by omega)
  unfold Tables.lineStop stopIn
  simp only [hsum, size_tables, bind, Except.bind]
  cases hnext : d.lineStarts[line + 1]? with
  | none => rw [show (tables d).lineStarts[line + 1]? = none from hnext]; rfl
  | some next =>
    have hpos : 1 ≤ next := by
      have hstart := getElem?_lineStarts.mp hnext
      have := (hstart.le_iff 0).not
      rw [breaks_zero] at this
      omega
    have hsub : sub next 1 = .ok (next - 1) := if_pos hpos
    rw [show (tables d).lineStarts[line + 1]? = some next from hnext]
    exact hsub

theorem regionEnd_tables (start stop : Nat) :
    (tables d).regionEnd start stop = .ok (d.regionEnd start stop) := by
  unfold Tables.regionEnd Document.regionEnd
  by_cases hlt : start < stop
  · have hsub : sub stop 1 = .ok (stop - 1) := if_pos (by omega)
    simp only [hlt, if_true, hsub, charAt?_tables, bind, Except.bind, true_and]
    split_ifs <;> rfl
  · simp only [hlt, if_false, false_and]
    rfl

theorem lineRegion?_tables (hd : Fits d) (line : Nat) :
    (tables d).lineRegion? line = .ok (d.lineRegion? line) := by
  unfold Tables.lineRegion?
  rcases Nat.lt_or_ge line d.lineCount with hline | hline
  · obtain ⟨start, hstart⟩ := exists_lineStart hline
    rw [show (tables d).lineStarts[line]? = some start from getElem?_lineStarts.mpr hstart,
      lineRegion?_eq hstart (isLineStop_stopIn hline)]
    simp only [lineStop_tables hd hline, regionEnd_tables, bind, Except.bind]
    rfl
  · have hnone : (tables d).lineStarts[line]? = none :=
      List.getElem?_eq_none_iff.mpr (length_lineStarts d ▸ hline)
    rw [hnone, lineRegion?_eq_none_iff.mpr hline]
    rfl

end Manifest.Proofs.Lines
