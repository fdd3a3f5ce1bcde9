/-! # Bytes of texts

The UTF-8 form of a text, and the text that is shown for bytes that need not be UTF-8. Bytes that
write a character are shown as that character. Where no character is written, the bytes that could be
the start of one, at least a single byte, are shown as one replacement character. -/

namespace Manifest.Text

/-- The bytes of characters. -/
def bytesOf (cs : List Char) : List UInt8 := cs.flatMap String.utf8EncodeChar

/-- The bytes of a text. -/
def bytes (s : String) : List UInt8 := bytesOf s.toList

/-- The byte of a slash. -/
def slash : UInt8 := 0x2f

/-- The byte of a dot. -/
def dot : UInt8 := 0x2e

/-! ### Showing bytes -/

/-- The character that bytes start with. -/
def firstChar? (bs : List UInt8) : Option Char := (bs.take 4).toByteArray.utf8DecodeChar? 0

/-- The bytes that can follow a first one in a character, each as a range. -/
def furtherBytes (first : UInt8) : List (UInt8 × UInt8) :=
  let further : UInt8 × UInt8 := (0x80, 0xbf)
  if first < 0xc2 then []
  else if first < 0xe0 then [further]
  else if first = 0xe0 then [(0xa0, 0xbf), further]
  else if first = 0xed then [(0x80, 0x9f), further]
  else if first < 0xf0 then [further, further]
  else if first = 0xf0 then [(0x90, 0xbf), further, further]
  else if first < 0xf4 then [further, further, further]
  else if first = 0xf4 then [(0x80, 0x8f), further, further]
  else []

/-- The bytes behind those that lie in some ranges, one behind the other. -/
def behindRanges : List (UInt8 × UInt8) → List UInt8 → List UInt8
  | r :: ranges, b :: bs => if r.1 ≤ b && b ≤ r.2 then behindRanges ranges bs else b :: bs
  | _, bs => bs

theorem length_behindRanges_le (ranges : List (UInt8 × UInt8)) (bs : List UInt8) :
    (behindRanges ranges bs).length ≤ bs.length := by
  induction ranges generalizing bs with
  | nil => simp [behindRanges]
  | cons r ranges ih =>
    cases bs with
    | nil => simp [behindRanges]
    | cons b bs =>
      rw [behindRanges]
      split
      · exact Nat.le_succ_of_le (ih bs)
      · exact Nat.le_refl _

/-- The characters that are shown for bytes. -/
def shownChars (bs : List UInt8) : List Char :=
  match bs with
  | [] => []
  | b :: rest =>
    match firstChar? (b :: rest) with
    | some c => c :: shownChars (rest.drop (c.utf8Size - 1))
    | none => '\ufffd' :: shownChars (behindRanges (furtherBytes b) rest)
termination_by bs.length
decreasing_by
  · simp only [List.length_drop, List.length_cons]; omega
  · exact Nat.lt_succ_of_le (length_behindRanges_le _ _)

/-- The text that is shown for bytes. -/
def shown (bs : List UInt8) : String := String.ofList (shownChars bs)

/-! ### What is shown for a text -/

theorem bytesOf_cons (c : Char) (cs : List Char) :
    bytesOf (c :: cs) = String.utf8EncodeChar c ++ bytesOf cs := List.flatMap_cons

theorem bytesOf_append (cs more : List Char) : bytesOf (cs ++ more) = bytesOf cs ++ bytesOf more :=
  List.flatMap_append

theorem firstChar?_utf8EncodeChar (c : Char) (rest : List UInt8) :
    firstChar? (String.utf8EncodeChar c ++ rest) = some c := by
  have hlength : (String.utf8EncodeChar c).length ≤ 4 := by
    rw [String.length_utf8EncodeChar]
    exact c.utf8Size_le_four
  rw [firstChar?, List.take_append, List.take_of_length_le hlength, List.toByteArray_append]
  exact ByteArray.utf8DecodeChar?_utf8EncodeChar_append

theorem shownChars_utf8EncodeChar (c : Char) (rest : List UInt8) :
    shownChars (String.utf8EncodeChar c ++ rest) = c :: shownChars rest := by
  have hlength := String.length_utf8EncodeChar c
  have hfirst := firstChar?_utf8EncodeChar c rest
  obtain ⟨b, more, hbytes⟩ : ∃ b more, String.utf8EncodeChar c = b :: more := by
    cases hbytes : String.utf8EncodeChar c with
    | nil =>
      rw [hbytes] at hlength
      exact absurd hlength.symm (Nat.ne_of_gt c.utf8Size_pos)
    | cons b more => exact ⟨b, more, rfl⟩
  rw [hbytes] at hfirst hlength ⊢
  have hdrop : (more ++ rest).drop (c.utf8Size - 1) = rest := by
    rw [← hlength, List.length_cons, Nat.add_sub_cancel, List.drop_left]
  rw [List.cons_append] at hfirst ⊢
  rw [shownChars, hfirst]
  dsimp only
  rw [hdrop]

theorem shownChars_bytesOf (cs : List Char) : shownChars (bytesOf cs) = cs := by
  induction cs with
  | nil => rw [bytesOf, List.flatMap_nil, shownChars]
  | cons c cs ih => rw [bytesOf_cons, shownChars_utf8EncodeChar, ih]

theorem shownChars_slash (rest : List UInt8) :
    shownChars (slash :: rest) = '/' :: shownChars rest := by
  have hslash : String.utf8EncodeChar '/' = [slash] := by decide
  have hcons := shownChars_utf8EncodeChar '/' rest
  rwa [hslash, List.singleton_append] at hcons

/-- **A text is shown as it is.** -/
theorem shown_bytes (s : String) : shown (bytes s) = s := by
  rw [shown, bytes, shownChars_bytesOf, String.ofList_toList]

/-- Two broken characters and a whole one: the first two bytes could start a character of three. -/
example : shown [0xe2, 0x82, 0xff, 0x61] = "\ufffd\ufffda" := by decide +kernel

end Manifest.Text
