import Manifest.Proofs.Lines.Words
import Manifest.Proofs.Slices

/-! # Where a text is cut

Offsets count characters, and a text is cut between its bytes. The table of byte offsets holds, for
every character, how many bytes the characters in front of it have (`getElem?_byteStarts`), so it holds
the places between characters and no others (`mem_byteStarts_iff`), and a cut succeeds exactly there
and gives the characters with these bytes (`cut_tables_iff`). One pass over the text fills both tables
(`ofText_eq_tables`). -/

namespace Manifest.Proofs.Lines

open Manifest.Document Manifest.Document.Word

/-! ### Bytes of characters -/

theorem utf8ByteSize_cons (c : Char) (cs : List Char) :
    (String.ofList (c :: cs)).utf8ByteSize = c.utf8Size + (String.ofList cs).utf8ByteSize := by
  rw [← List.singleton_append, String.ofList_append, String.utf8ByteSize_append]
  congr 1
  exact String.utf8ByteSize_singleton

theorem getElem?_byteStarts : ∀ (cs : List Char) (b i : Nat), i ≤ cs.length →
    (byteStarts b cs)[i]? = some (b + (String.ofList (cs.take i)).utf8ByteSize)
  | [], b, i, h => by
    obtain rfl : i = 0 := Nat.le_zero.mp h
    rfl
  | c :: cs, b, 0, _ => rfl
  | c :: cs, b, i + 1, h => by
    rw [byteStarts, List.getElem?_cons_succ, getElem?_byteStarts cs _ i (Nat.le_of_succ_le_succ h),
      List.take_succ_cons, utf8ByteSize_cons, Nat.add_assoc]

variable (d : Document)

theorem getElem?_tables {i : Nat} (h : i ≤ d.size) :
    (tables d).byteStarts[i]? = some (String.ofList (d.chars.take i)).utf8ByteSize := by
  rw [← Nat.zero_add (String.utf8ByteSize _)]
  exact getElem?_byteStarts d.chars 0 i h

/-- The byte offset of a character offset is the size of the text in front of it. -/
theorem toByte_tables (i : Nat) :
    (tables d).toByte i = (String.ofList (d.chars.take i)).utf8ByteSize := by
  have htake : d.chars.take (min i d.size) = d.chars.take i := by
    rw [List.take_eq_take_iff]
    unfold Document.size
    omega
  have h := getElem?_toByte d i
  rw [getElem?_tables d (Nat.min_le_right i d.size), htake] at h
  exact (Option.some.inj h).symm

/-- The table holds the places between characters. -/
theorem mem_byteStarts_iff {b : Nat} :
    (∃ i, i ≤ d.size ∧ (tables d).byteStarts[i]? = some b) ↔
      (String.Pos.Raw.mk b).IsValid d.text := by
  rw [Document.text, String.Pos.Raw.isValid_ofList]
  constructor
  · rintro ⟨i, hi, hb⟩
    rw [getElem?_tables d hi] at hb
    exact ⟨i, (Option.some.inj hb).symm⟩
  · rintro ⟨i, hi⟩
    refine ⟨min i d.size, Nat.min_le_right i d.size, ?_⟩
    rw [getElem?_toByte, toByte_tables]
    exact congrArg some hi.symm

/-! ### Cuts -/

/-- The characters `cs` are what the text `s` holds between two of its bytes, and both bytes are places
between characters. -/
structure IsCut (s : String) (start stop : Nat) (cs : List Char) : Prop where
  ordered : start ≤ stop
  start_valid : (String.Pos.Raw.mk start).IsValid s
  stop_valid : (String.Pos.Raw.mk stop).IsValid s
  bytes : s.toByteArray.extract start stop = (String.ofList cs).toByteArray

theorem extract_append (front middle back : String) :
    (front ++ middle ++ back).toByteArray.extract front.utf8ByteSize
        (front ++ middle).utf8ByteSize = middle.toByteArray := by
  have hsize : (front ++ middle).utf8ByteSize =
      (front.toByteArray ++ middle.toByteArray).size := by
    rw [← String.toByteArray_append, String.size_toByteArray]
  rw [String.toByteArray_append, String.toByteArray_append, hsize, ByteArray.extract_append_size_left,
    ByteArray.extract_append_eq_right String.size_toByteArray.symm ByteArray.size_append]

theorem extract_bytes {cs : List Char} {i j : Nat} (h : i ≤ j) :
    (String.ofList cs).toByteArray.extract (String.ofList (cs.take i)).utf8ByteSize
        (String.ofList (cs.take j)).utf8ByteSize =
      (String.ofList ((cs.drop i).take (j - i))).toByteArray := by
  have hfront : cs.take j = cs.take i ++ (cs.drop i).take (j - i) := by
    rw [← List.take_add, Nat.add_sub_cancel' h]
  have hwhole : String.ofList cs = String.ofList (cs.take i) ++
      String.ofList ((cs.drop i).take (j - i)) ++ String.ofList (cs.drop j) := by
    rw [← String.ofList_append, ← String.ofList_append, ← hfront, List.take_append_drop]
  rw [hwhole, hfront, String.ofList_append]
  exact extract_append _ _ _

/-- Between the bytes of two characters are those of the text from the one to the other. -/
theorem extract_tables {i j start stop : Nat} (hij : i ≤ j) (hj : j ≤ d.size)
    (hstart : (tables d).byteStarts[i]? = some start)
    (hstop : (tables d).byteStarts[j]? = some stop) :
    d.text.toByteArray.extract start stop =
      (String.ofList ((d.chars.drop i).take (j - i))).toByteArray := by
  rw [getElem?_tables d (hij.trans hj)] at hstart
  rw [getElem?_tables d hj] at hstop
  rw [← Option.some.inj hstart, ← Option.some.inj hstop]
  exact extract_bytes hij

/-- **A cut succeeds between characters**, and gives the characters with the bytes that it cuts out. -/
theorem cut_tables_iff {start stop : Nat} {cs : List Char} :
    (tables d).cut start stop = .ok cs ↔ IsCut d.text start stop cs := by
  have hlt : (tables d).byteStarts.Pairwise (· < ·) := pairwise_byteStarts d.chars 0
  constructor
  · intro h
    unfold Tables.cut at h
    split_ifs at h with hordered
    split at h
    next i j hi hj =>
      have hstart := getElem?_of_idxOf? hi
      have hstop := getElem?_of_idxOf? hj
      have hij := index_le hlt hstart hstop (Nat.not_lt.mp hordered)
      have hle : j ≤ d.size := by
        have := (List.getElem?_eq_some_iff.mp hstop).1
        rw [length_tables] at this
        omega
      obtain rfl := Except.ok.inj h
      exact ⟨Nat.not_lt.mp hordered, (mem_byteStarts_iff d).mp ⟨i, hij.trans hle, hstart⟩,
        (mem_byteStarts_iff d).mp ⟨j, hle, hstop⟩, extract_tables d hij hle hstart hstop⟩
    next => cases h
  · rintro ⟨hordered, hstart, hstop, hcs⟩
    obtain ⟨i, -, hstart⟩ := (mem_byteStarts_iff d).mpr hstart
    obtain ⟨j, hj, hstop⟩ := (mem_byteStarts_iff d).mpr hstop
    have hij := index_le hlt hstart hstop hordered
    rw [extract_tables d hij hj hstart hstop, String.toByteArray_inj, String.ofList_inj] at hcs
    rw [cut_tables d hij hstart hstop, hcs]

/-! ### The tables in one pass -/

/-- The pass over characters adds their bytes and the starts of the lines that begin behind them. -/
theorem foldl_take : ∀ (cs : List Char) (p : Pass),
    (cs.foldl Pass.take p).byte = p.byte + (String.ofList cs).utf8ByteSize ∧
    ((cs.foldl Pass.take p).byteStarts.push (cs.foldl Pass.take p).byte).toList =
      p.byteStarts.toList ++ byteStarts p.byte cs ∧
    (cs.foldl Pass.take p).lineStarts.toList = p.lineStarts.toList ++ startsAfter p.offset cs
  | [], p => by simp [byteStarts, startsAfter]
  | c :: cs, p => by
    obtain ⟨hbyte, hbytes, hlines⟩ := foldl_take cs (p.take c)
    rw [List.foldl_cons]
    refine ⟨?_, ?_, ?_⟩
    · rw [hbyte, utf8ByteSize_cons, ← Nat.add_assoc]
      rfl
    · rw [hbytes, byteStarts]
      simp [Pass.take]
    · rw [hlines, startsAfter]
      unfold Pass.take
      dsimp only
      split_ifs <;> simp

theorem ofText_eq_tables (s : String) : Tables.ofText s = tables (.ofText s) := by
  obtain ⟨hbyte, hbytes, hlines⟩ := foldl_take (Document.ofText s).chars .start
  have hsize : (Document.ofText s).text.utf8ByteSize =
      ((Document.ofText s).chars.foldl Pass.take .start).byte := by
    rw [hbyte]
    exact (Nat.zero_add _).symm
  unfold Tables.ofText tables
  dsimp only
  rw [hsize, hbytes, hlines]
  rfl

/-! ### Offsets -/

/-- One byte order mark in front of the text is dropped, and no other. -/
theorem ofText_chars (s : String) :
    s.toList = byteOrderMark :: (Document.ofText s).chars ∨
      s.toList = (Document.ofText s).chars ∧ s.toList.head? ≠ some byteOrderMark := by
  unfold Document.ofText Document.ofChars
  cases s.toList with
  | nil => exact .inr ⟨rfl, by simp⟩
  | cons c cs =>
    dsimp only
    split_ifs with hc
    · exact .inl (by rw [hc])
    · exact .inr ⟨rfl, by simpa using hc⟩

/-- **Offsets count characters.** The document of a text has its characters, without one byte order
mark in front. With the tables that one pass fills,

* the size is the number of characters, and every offset below it, and no other, has the character
  there;
* the byte offset of an offset is the number of bytes in front of it;
* the text between two offsets, in any order and beyond the end, is cut between characters, and is the
  characters from the one to the other after both have been brought back to the end;
* texts of spans side by side, one behind the other, are the text of both, and the span of all offsets
  has the whole text. -/
theorem offsets_count_characters (s : String) {d : Document} {t : Tables}
    (hd : d = Document.ofText s) (ht : t = Tables.ofText s) :
    (s.toList = byteOrderMark :: d.chars ∨
      s.toList = d.chars ∧ s.toList.head? ≠ some byteOrderMark) ∧
    t.size = .ok d.size ∧ d.size = d.chars.length ∧
    (∀ i, t.charAt? i = .ok (d.charAt? i) ∧ d.charAt? i = d.chars[i]? ∧
      ((d.charAt? i).isSome ↔ i < d.size)) ∧
    (∀ i, t.toByte i = (String.ofList (d.chars.take i)).utf8ByteSize) ∧
    (∀ start stop cs, cs = (d.chars.take (min stop d.size)).drop (min start d.size) →
      t.textBetween start stop = .ok cs ∧
        IsCut d.text (t.toByte start) (max (t.toByte stop) (t.toByte start)) cs) ∧
    (∀ span, t.slice span = .ok (d.slice span).toList ∧
      t.textBetween span.start span.stop = .ok (d.slice span).toList) ∧
    (∀ i j k, i ≤ j → j ≤ k →
      d.slice (.between i j) ++ d.slice (.between j k) = d.slice (.between i k)) ∧
    d.slice (.between 0 d.size) = d.text := by
  obtain rfl : t = tables d := by rw [ht, hd, ofText_eq_tables]
  have hslice : ∀ span, (tables d).slice span = .ok (d.slice span).toList := fun span => by
    rw [slice_tables, Document.slice, String.toList_ofList]
  refine ⟨hd ▸ ofText_chars s, size_tables d, rfl, fun i => ⟨charAt?_tables d i, rfl, ?_⟩,
    toByte_tables d, ?_, fun span => ⟨hslice span, hslice span⟩, fun i j k hij hjk => ?_, ?_⟩
  · simp [Document.charAt?, Document.size]
  · rintro start stop cs rfl
    have hbetween := textBetween_tables d start stop
    exact ⟨hbetween, (cut_tables_iff d).mp hbetween⟩
  · rw [Document.slice, Document.slice, ← String.ofList_append, Slices.sliceChars_append d hij hjk]
    rfl
  · rw [Document.slice, Slices.sliceChars_zero, Document.size, List.take_length]
    rfl

/-- A text with a byte order mark in front and another one inside, and characters of one to four
bytes. -/
def wideText : String := String.ofList ['\ufeff', 'h', 'é', '\ufeff', '€', '😀', '\n']

/-- Its offsets count the six characters behind the first byte order mark. -/
theorem offsets_count_characters_wide :
    (Tables.ofText wideText).size = .ok 6 ∧
      (Tables.ofText wideText).charAt? 1 = .ok (some 'é') ∧
      (Tables.ofText wideText).charAt? 6 = .ok none ∧
      (Tables.ofText wideText).slice (.between 40 3) = .ok ['€', '😀', '\n'] ∧
      (Tables.ofText wideText).textBetween 4 2 = .ok [] ∧
      (Document.ofText wideText).slice (.between 0 2) ++
        (Document.ofText wideText).slice (.between 2 6) =
          (Document.ofText wideText).slice (.between 0 6) := by
  have hd : ⟨['h', 'é', '\ufeff', '€', '😀', '\n']⟩ = Document.ofText wideText := by
    rw [wideText, Document.ofText, String.toList_ofList]
    rfl
  obtain ⟨-, hsize, -, hchar, -, hbetween, -, hbeside, -⟩ :=
    offsets_count_characters wideText hd rfl
  rw [← hd]
  exact ⟨hsize, (hchar 1).1, (hchar 6).1, (hbetween 3 40 _ rfl).1, (hbetween 4 2 _ rfl).1,
    hbeside 0 2 6 (by decide) (by decide)⟩

end Manifest.Proofs.Lines
