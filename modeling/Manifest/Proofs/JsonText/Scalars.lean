import Manifest.Json.Parse
import Manifest.Json.Print
import Mathlib.Data.List.TakeWhile

/-! # Reading printed numbers and strings

The digits of a number are those it is read from (`number?_toDigits`), as long as nothing behind them
goes on with a number (`Ends`). A number that does not fit into 64 bits comes back as it was written
(`seenNat`). Strings are unescaped one character at a time (`stringBody?_quote`). -/

namespace Manifest.Proofs.JsonText

open Manifest.Json

/-! ### Spaces -/

/-- The text does not go on with a number in front of it. -/
def Ends (cs : List Char) : Prop := ∀ c ∈ cs.head?, c = ',' ∨ c = '\n'

theorem ends_nil : Ends [] := by simp [Ends]

theorem ends_comma (cs : List Char) : Ends (',' :: cs) := by simp [Ends]

theorem ends_newline (depth : Nat) (cs : List Char) : Ends (newline depth ++ cs) := by
  simp [Ends, newline]

theorem Ends.not_isDigit {cs : List Char} (h : Ends cs) : ∀ c ∈ cs.head?, ¬ c.isDigit = true := by
  intro c hc
  rcases h c hc with rfl | rfl <;> decide

/-- There are only spaces. -/
def AllSpace (cs : List Char) : Prop := ∀ c ∈ cs, isSpace c = true

theorem allSpace_nil : AllSpace [] := by simp [AllSpace]

theorem allSpace_space : AllSpace [' '] := by simp [AllSpace, isSpace]

theorem allSpace_newline (depth : Nat) : AllSpace (newline depth) := by
  intro c hc
  rcases List.mem_cons.mp hc with rfl | hc
  · rfl
  · rw [List.eq_of_mem_replicate hc]
    rfl

theorem skipSpace_append {gap : List Char} (h : AllSpace gap) {c : Char} (hc : isSpace c = false)
    (cs : List Char) : skipSpace (gap ++ c :: cs) = c :: cs := by
  rw [skipSpace, List.dropWhile_append_of_pos h, List.dropWhile_cons_of_neg (by simp [hc])]

/-! ### Numbers -/

theorem isDigit_of_mem_toDigits {n : Nat} {c : Char} (h : c ∈ Nat.toDigits 10 n) :
    c.isDigit = true := Nat.isDigit_of_mem_toDigits (by decide) (by decide) h

theorem exists_toDigits_eq_cons (n : Nat) :
    ∃ d ds, Nat.toDigits 10 n = d :: ds ∧ d.isDigit = true := by
  obtain ⟨d, ds, hd⟩ := List.exists_cons_of_ne_nil (Nat.toDigits_ne_nil (n := n) (b := 10))
  exact ⟨d, ds, hd, isDigit_of_mem_toDigits (hd ▸ List.mem_cons_self)⟩

theorem hexValue_of_isDigit {c : Char} (h : c.isDigit = true) :
    Text.hexValue c = c.toNat - '0'.toNat := by
  rw [Text.hexValue, if_pos h]

theorem number_toDigits (n : Nat) : Text.number 10 (Nat.toDigits 10 n) = n := by
  have hfold : ∀ (ds : List Char) (m : Nat), (∀ c ∈ ds, c.isDigit = true) →
      ds.foldl (fun n c => n * 10 + Text.hexValue c) m = Nat.ofDigitChars 10 ds m := by
    intro ds
    induction ds with
    | nil => intro m _; rfl
    | cons c ds ih =>
      intro m hds
      rw [List.foldl_cons, ih _ fun c hc => hds c (List.mem_cons_of_mem _ hc),
        Nat.ofDigitChars_cons, hexValue_of_isDigit (hds c (by simp)), Nat.mul_comm]
  rw [Text.number, hfold _ _ fun c hc => isDigit_of_mem_toDigits hc, Nat.ofDigitChars_ten_toDigits]

/-- Only zero starts with a zero. -/
theorem head?_toDigits {n : Nat} (h : 0 < n) : (Nat.toDigits 10 n).head? ≠ some '0' := by
  induction n using Nat.strongRecOn with
  | ind n ih =>
    have hsmall : ∀ m < 10, 0 < m → [m.digitChar].head? ≠ some '0' := by decide
    rw [Nat.toDigits_eq_if (by decide)]
    split
    · exact hsmall n ‹_› h
    · obtain ⟨d, ds, hd, -⟩ := exists_toDigits_eq_cons (n / 10)
      have hlarge := ih (n / 10) (by omega) (by omega)
      rw [hd] at hlarge ⊢
      exact hlarge

theorem isSpace_of_isDigit {c : Char} (h : c.isDigit = true) : isSpace c = false := by
  cases hspace : isSpace c with
  | false => rfl
  | true =>
    simp only [isSpace, Bool.or_eq_true, beq_iff_eq] at hspace
    rcases hspace with ((rfl | rfl) | rfl) | rfl <;> exact absurd h (by decide)

/-- What a number is read back as. -/
def seenNat (n : Nat) : Json := if n < Text.wordCount then .nat n else .number (toString n)

theorem fraction?_of_ends {rest : List Char} (h : Ends rest) : fraction? rest = some ([], rest) := by
  unfold fraction?
  split
  · exact absurd (h '.' rfl) (by decide)
  · rfl

theorem exponent?_of_ends {rest : List Char} (h : Ends rest) : exponent? rest = some ([], rest) := by
  cases rest with
  | nil => rfl
  | cons c rest =>
    have hc : (c == 'e' || c == 'E') = false := by
      rcases h c rfl with rfl | rfl <;> rfl
    unfold exponent?
    dsimp only
    rw [hc]
    rfl

theorem takeWhile_toDigits (n : Nat) {rest : List Char} (hrest : Ends rest) :
    (Nat.toDigits 10 n ++ rest).takeWhile Char.isDigit = Nat.toDigits 10 n := by
  rw [List.takeWhile_append_of_pos fun c hc => isDigit_of_mem_toDigits hc]
  cases rest with
  | nil => simp
  | cons c rest => rw [List.takeWhile_cons_of_neg (hrest.not_isDigit c rfl), List.append_nil]

theorem dropWhile_toDigits (n : Nat) {rest : List Char} (hrest : Ends rest) :
    (Nat.toDigits 10 n ++ rest).dropWhile Char.isDigit = rest := by
  rw [List.dropWhile_append_of_pos fun c hc => isDigit_of_mem_toDigits hc]
  cases rest with
  | nil => rfl
  | cons c rest => rw [List.dropWhile_cons_of_neg (hrest.not_isDigit c rfl)]

theorem number?_toDigits (n : Nat) {rest : List Char} (hrest : Ends rest) :
    number? (Nat.toDigits 10 n ++ rest) = some (seenNat n, rest) := by
  have hsign : ∀ cs, Nat.toDigits 10 n ++ rest ≠ '-' :: cs := by
    intro cs h
    obtain ⟨d, ds, hd, hdigit⟩ := exists_toDigits_eq_cons n
    rw [hd, List.cons_append] at h
    rw [(List.cons.inj h).1] at hdigit
    exact absurd hdigit (by decide)
  have hzero : ¬ ((Nat.toDigits 10 n).isEmpty = true ∨
      ((Nat.toDigits 10 n).head? = some '0' ∧ (Nat.toDigits 10 n).length ≠ 1)) := by
    rintro (h | ⟨h, hlength⟩)
    · exact Nat.toDigits_ne_nil (List.isEmpty_iff.mp h)
    · rcases Nat.eq_zero_or_pos n with rfl | hpos
      · exact hlength rfl
      · exact head?_toDigits hpos h
  unfold number?
  split
  next sign unsigned hmatch =>
    obtain ⟨rfl, rfl⟩ : [] = sign ∧ Nat.toDigits 10 n ++ rest = unsigned := by
      split at hmatch
      · exact absurd ‹_› (hsign _)
      · exact Prod.mk.inj hmatch
    rw [takeWhile_toDigits n hrest, dropWhile_toDigits n hrest, fraction?_of_ends hrest]
    dsimp only
    rw [if_neg hzero]
    simp only [Option.bind_eq_bind, Option.bind_some, exponent?_of_ends hrest, List.isEmpty_nil,
      number_toDigits, true_and, List.nil_append, List.append_nil, seenNat,
      Nat.toString_eq_ofList_toDigits]
    split <;> rfl

/-! ### Strings -/

/-- The character that a hexadecimal escape of a printed control character stands for. -/
theorem unicodeEscape?_control : ∀ n < 0x20, ∀ rest : List Char,
    unicodeEscape? ('0' :: '0' :: hexDigit (n / 16) :: hexDigit n :: rest) =
      some (Char.ofNat n, rest) := by
  have hnumber : ∀ n < 0x20, Text.hexNumber? 4 ['0', '0', hexDigit (n / 16), hexDigit n] = some n ∧
      ¬ (0xd800 ≤ n ∧ n < 0xdc00) ∧ ¬ (0xdc00 ≤ n ∧ n < 0xe000) := by decide
  intro n hn rest
  obtain ⟨hread, hlow, hhigh⟩ := hnumber n hn
  have hhex : hex4? ('0' :: '0' :: hexDigit (n / 16) :: hexDigit n :: rest) = some (n, rest) := by
    change (Text.hexNumber? 4 ['0', '0', hexDigit (n / 16), hexDigit n]).map (·, rest) = _
    rw [hread]
    rfl
  rw [unicodeEscape?, hhex]
  dsimp only [Option.bind_eq_bind, Option.bind_some]
  rw [if_neg hlow, if_neg hhigh]
  rfl

/-- **An escaped character is read as one.** -/
theorem stringBody?_escapeChar (fuel : Nat) (c : Char) (rest read : List Char) :
    stringBody? (fuel + 1) (escapeChar c ++ rest) read = stringBody? fuel rest (c :: read) := by
  unfold escapeChar
  split
  iterate 7 rfl
  next h1 h2 h3 h4 h5 h6 h7 =>
  split_ifs with hcontrol
  · have hchar := unicodeEscape?_control c.toNat hcontrol rest
    rw [Char.ofNat_toNat] at hchar
    simp only [List.cons_append, List.nil_append, stringBody?, hchar]
  · -- an ordinary character is neither of those that the reader stops at
    rw [List.singleton_append, stringBody?, if_neg (by simpa [hcontrol] using h2)]
    · exact h1
    · exact fun _ h _ => h2 h
    · exact fun _ _ h _ => h2 h

theorem length_escapeChar_pos (c : Char) : 0 < (escapeChar c).length := by
  unfold escapeChar
  split
  iterate 7 exact Nat.succ_pos _
  split <;> exact Nat.succ_pos _

/-- **A quoted string is read back.** -/
theorem stringBody?_flatMap : ∀ (cs : List Char) (fuel : Nat) (rest read : List Char),
    (cs.flatMap escapeChar).length < fuel →
      stringBody? fuel (cs.flatMap escapeChar ++ '"' :: rest) read =
        some (String.ofList (read.reverse ++ cs), rest)
  | _, 0, _, _, h => absurd h (Nat.not_lt_zero _)
  | [], fuel + 1, rest, read, _ => by
    rw [List.append_nil]
    rfl
  | c :: cs, fuel + 1, rest, read, h => by
    have hpos := length_escapeChar_pos c
    rw [List.flatMap_cons, List.length_append] at h
    rw [List.flatMap_cons, List.append_assoc, stringBody?_escapeChar,
      stringBody?_flatMap cs fuel rest (c :: read) (by omega), List.reverse_cons, List.append_assoc,
      List.singleton_append]

theorem stringBody?_quote (s : String) (rest : List Char) :
    stringBody? ((s.toList.flatMap escapeChar ++ '"' :: rest).length + 1)
        (s.toList.flatMap escapeChar ++ '"' :: rest) [] = some (s, rest) := by
  rw [stringBody?_flatMap _ _ _ _ (by rw [List.length_append]; omega), List.reverse_nil,
    List.nil_append, String.ofList_toList]

end Manifest.Proofs.JsonText
