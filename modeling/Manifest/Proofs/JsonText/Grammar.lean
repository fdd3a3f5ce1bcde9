import Manifest.Proofs.JsonText.Values

/-! # The grammar of JSON

`Denotes` says, without a reader, which texts stand for which value: the grammar of the standard with
spaces allowed around every value, strings given character by character (`CharText`), numbers with an
optional sign, fraction and exponent and no needless zero in front (`NumberText`). What the printer
writes is such a text of what is read back (`denotes_printAt`). -/

namespace Manifest.Proofs.JsonText

open Manifest.Json

/-! ### Strings and numbers -/

/-- The letters behind a backslash and the characters that they stand for. -/
def shortEscapes : List (Char × Char) :=
  [('"', '"'), ('\\', '\\'), ('/', '/'), ('b', '\x08'), ('f', '\x0c'), ('n', '\n'), ('r', '\r'),
    ('t', '\t')]

/-- Four hexadecimal digits write the number. -/
def Hex4 (digits : List Char) (n : Nat) : Prop :=
  digits.length = 4 ∧ digits.all Text.isHex = true ∧ Text.number 16 digits = n

/-- Inside quotes the text stands for the character. -/
inductive CharText : List Char → Char → Prop
  | plain {c : Char} (hcontrol : 0x20 ≤ c.toNat) (hquote : c ≠ '"') (hbackslash : c ≠ '\\') :
      CharText [c] c
  | short {letter c : Char} (h : (letter, c) ∈ shortEscapes) : CharText ['\\', letter] c
  | unicode {digits : List Char} {n : Nat} (h : Hex4 digits n) (hn : n.isValidChar) :
      CharText ('\\' :: 'u' :: digits) (Char.ofNat n)
  /-- A character beyond the first plane, by the two halves of a surrogate pair. -/
  | pair {high low : List Char} {n m : Nat} (hhigh : Hex4 high (0xd800 + n)) (hn : n < 0x400)
      (hlow : Hex4 low (0xdc00 + m)) (hm : m < 0x400) :
      CharText ('\\' :: 'u' :: high ++ '\\' :: 'u' :: low) (Char.ofNat (0x10000 + n * 0x400 + m))

/-- The text stands for the characters, one behind the other. -/
inductive CharsText : List Char → List Char → Prop
  | nil : CharsText [] []
  | cons {cs rest read : List Char} {c : Char} (h : CharText cs c) (hrest : CharsText rest read) :
      CharsText (cs ++ rest) (c :: read)

/-- There are digits and nothing else. -/
def Digits (cs : List Char) : Prop := cs ≠ [] ∧ ∀ c ∈ cs, c.isDigit = true

/-- Nothing, or a point and the digits behind it. -/
def Fraction (cs : List Char) : Prop := cs = [] ∨ ∃ ds, Digits ds ∧ cs = '.' :: ds

/-- Nothing, or an exponent. -/
def Exponent (cs : List Char) : Prop :=
  cs = [] ∨ ∃ e ∈ ['e', 'E'], ∃ sign ∈ [[], ['+'], ['-']], ∃ ds, Digits ds ∧ cs = e :: (sign ++ ds)

/-- The text stands for the number: a whole number that fits into 64 bits, or the text itself. -/
inductive NumberText : List Char → Json → Prop
  | nat {n : Nat} (h : n < Text.wordCount) : NumberText (Nat.toDigits 10 n) (.nat n)
  | large {n : Nat} (h : Text.wordCount ≤ n) :
      NumberText (Nat.toDigits 10 n) (.number (String.ofList (Nat.toDigits 10 n)))
  | other {sign fraction exponent : List Char} (n : Nat) (hsign : sign ∈ [[], ['-']])
      (hfraction : Fraction fraction) (hexponent : Exponent exponent)
      (h : ¬ (sign = [] ∧ fraction = [] ∧ exponent = [])) :
      NumberText (sign ++ Nat.toDigits 10 n ++ fraction ++ exponent)
        (.number (String.ofList (sign ++ Nat.toDigits 10 n ++ fraction ++ exponent)))

/-! ### Values -/

mutual

/-- The text, which may have spaces around it, stands for the value. -/
inductive Denotes : List Char → Json → Prop
  | spaced {before cs after : List Char} {j : Json} (hbefore : AllSpace before) (h : Denotes cs j)
      (hafter : AllSpace after) : Denotes (before ++ (cs ++ after)) j
  | null : Denotes "null".toList .null
  | bool (b : Bool) : Denotes (if b then "true".toList else "false".toList) (.bool b)
  | number {cs : List Char} {j : Json} (h : NumberText cs j) : Denotes cs j
  | string {cs : List Char} {s : String} (h : CharsText cs s.toList) :
      Denotes ('"' :: (cs ++ ['"'])) (.string s)
  | emptyArray {gap : List Char} (h : AllSpace gap) : Denotes ('[' :: (gap ++ [']'])) (.array [])
  | array {cs : List Char} {items : List Json} (h : DenotesItems cs items) :
      Denotes ('[' :: (cs ++ [']'])) (.array items)
  | emptyObject {gap : List Char} (h : AllSpace gap) : Denotes ('{' :: (gap ++ ['}'])) (.object [])
  | object {cs : List Char} {fields : List (String × Json)} (h : DenotesFields cs fields) :
      Denotes ('{' :: (cs ++ ['}'])) (.object fields)

/-- The text stands for the items, of which there are some, with commas between them. -/
inductive DenotesItems : List Char → List Json → Prop
  | last {cs : List Char} {item : Json} (h : Denotes cs item) : DenotesItems cs [item]
  | more {cs rest : List Char} {item : Json} {items : List Json} (h : Denotes cs item)
      (hrest : DenotesItems rest items) : DenotesItems (cs ++ ',' :: rest) (item :: items)

/-- The text stands for the fields, of which there are some, with commas between them. A key is a
string with a colon behind it. -/
inductive DenotesFields : List Char → List (String × Json) → Prop
  | last {name cs : List Char} {key : String} {value : Json} (hkey : Denotes name (.string key))
      (h : Denotes cs value) : DenotesFields (name ++ ':' :: cs) [(key, value)]
  | more {name cs rest : List Char} {key : String} {value : Json} {fields : List (String × Json)}
      (hkey : Denotes name (.string key)) (h : Denotes cs value)
      (hrest : DenotesFields rest fields) :
      DenotesFields (name ++ ':' :: (cs ++ ',' :: rest)) ((key, value) :: fields)

end

/-! ### What is printed -/

/-- The escape of a control character writes its code point. -/
theorem hex4_control : ∀ n < 0x20, Hex4 ['0', '0', hexDigit (n / 16), hexDigit n] n := by
  unfold Hex4
  decide

theorem charText_escapeChar (c : Char) : CharText (escapeChar c) c := by
  unfold escapeChar
  split
  iterate 7 exact .short (by decide)
  next hquote hbackslash _ _ _ _ _ =>
  split_ifs with hcontrol
  · have hchar := CharText.unicode (hex4_control c.toNat hcontrol)
      (.inl (Nat.lt_of_lt_of_le hcontrol (by decide)))
    rwa [Char.ofNat_toNat] at hchar
  · exact .plain (Nat.not_lt.mp hcontrol) (fun h => hquote h) fun h => hbackslash h

theorem charsText_flatMap : ∀ cs : List Char, CharsText (cs.flatMap escapeChar) cs
  | [] => .nil
  | c :: cs => .cons (charText_escapeChar c) (charsText_flatMap cs)

theorem denotes_quote (s : String) : Denotes (quote s) (.string s) :=
  .string (charsText_flatMap s.toList)

theorem denotes_toDigits (n : Nat) : Denotes (Nat.toDigits 10 n) (seenNat n) := by
  rw [seenNat]
  split_ifs with hfits
  · exact .number (.nat hfits)
  · rw [Nat.toString_eq_ofList_toDigits]
    exact .number (.large (Nat.not_lt.mp hfits))

mutual

/-- **A printed value is a text of it**, if the value holds no number that does not fit into 64 bits,
and otherwise of the value with such numbers kept as they are written. -/
theorem denotes_printAt : ∀ (j : Json) (depth : Nat), Plain j → Denotes (printAt depth j) (seen j)
  | .null, _, _ => .null
  | .bool true, _, _ => .bool true
  | .bool false, _, _ => .bool false
  | .nat n, depth, _ => by
    rw [printAt, Nat.toString_eq_ofList_toDigits, String.toList_ofList]
    exact denotes_toDigits n
  | .number _, _, hj => absurd hj id
  | .string s, _, _ => denotes_quote s
  | .array [], _, _ => .emptyArray allSpace_nil
  | .array (item :: items), depth, hj => by
    rw [printAt_array depth (List.cons_ne_nil _ _), ← List.append_assoc, ← List.append_assoc,
      List.append_assoc (newline (depth + 1))]
    exact .array (denotesItems_joinItems (item :: items) (depth + 1) (List.cons_ne_nil _ _) hj
      (allSpace_newline _) (allSpace_newline _))
  | .object [], _, _ => .emptyObject allSpace_nil
  | .object (field :: fields), depth, hj => by
    rw [printAt_object depth (List.cons_ne_nil _ _), ← List.append_assoc, ← List.append_assoc,
      List.append_assoc (newline (depth + 1))]
    exact .object (denotesFields_joinFields (field :: fields) (depth + 1) (List.cons_ne_nil _ _) hj
      (allSpace_newline _) (allSpace_newline _))

theorem denotesItems_joinItems : ∀ (items : List Json) (depth : Nat) {before after : List Char},
    items ≠ [] → PlainItems items → AllSpace before → AllSpace after →
      DenotesItems (before ++ (joinItems depth items ++ after)) (seenItems items)
  | [], _, _, _, hne, _, _, _ => absurd rfl hne
  | [item], depth, _, _, _, hitems, hbefore, hafter => by
    rw [joinItems, printItems, List.append_nil]
    exact .last (.spaced hbefore (denotes_printAt item depth hitems.1) hafter)
  | item :: next :: items, depth, before, after, _, hitems, hbefore, hafter => by
    -- the line break behind the comma stands in front of the next item
    have hitem := Denotes.spaced hbefore (denotes_printAt item depth hitems.1) allSpace_nil
    have hrest := denotesItems_joinItems (next :: items) depth (List.cons_ne_nil _ _) hitems.2
      (allSpace_newline depth) hafter
    rw [joinItems, printItems_cons, seenItems]
    simpa using DenotesItems.more hitem hrest

theorem denotesFields_joinFields : ∀ (fields : List (String × Json)) (depth : Nat)
    {before after : List Char}, fields ≠ [] → PlainFields fields → AllSpace before →
      AllSpace after →
      DenotesFields (before ++ (joinFields depth fields ++ after)) (seenFields fields)
  | [], _, _, _, hne, _, _, _ => absurd rfl hne
  | [(key, value)], depth, _, _, _, hfields, hbefore, hafter => by
    have hkey := Denotes.spaced hbefore (denotes_quote key) allSpace_nil
    have hvalue := Denotes.spaced allSpace_space (denotes_printAt value depth hfields.1) hafter
    rw [joinFields, printFields, List.append_nil, colon_append, seenFields, seenFields]
    simpa using DenotesFields.last hkey hvalue
  | (key, value) :: next :: fields, depth, _, after, _, hfields, hbefore, hafter => by
    have hkey := Denotes.spaced hbefore (denotes_quote key) allSpace_nil
    have hvalue := Denotes.spaced allSpace_space (denotes_printAt value depth hfields.1) allSpace_nil
    have hrest := denotesFields_joinFields (next :: fields) depth (List.cons_ne_nil _ _) hfields.2
      (allSpace_newline depth) hafter
    rw [joinFields, printFields_cons, colon_append, seenFields]
    simpa using DenotesFields.more hkey hvalue hrest

end

end Manifest.Proofs.JsonText
