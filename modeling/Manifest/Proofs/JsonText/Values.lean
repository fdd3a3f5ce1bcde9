import Manifest.Proofs.JsonText.Scalars

/-! # Reading printed JSON

What has been printed is read back (`parse?_print`): the layout between the tokens is passed over as
space. A number that does not fit into 64 bits is the one exception, it comes back as it was written
(`seen`). Values that hold such writings themselves are left out (`Plain`), as nothing is known of
their text.

The printed value may stand behind spaces and in front of any text that does not go on with a number,
and the reader has enough fuel if it has as much as there are characters. -/

namespace Manifest.Proofs.JsonText

open Manifest.Json

/-! ### Values and what they are read back as -/

mutual

/-- The value holds no number that is kept as it was written. -/
def Plain : Json → Prop
  | .number _ => False
  | .array items => PlainItems items
  | .object fields => PlainFields fields
  | .null | .bool _ | .nat _ | .string _ => True

/-- `Plain` of all items. -/
def PlainItems : List Json → Prop
  | [] => True
  | item :: items => Plain item ∧ PlainItems items

/-- `Plain` of the values of all fields. -/
def PlainFields : List (String × Json) → Prop
  | [] => True
  | (_, value) :: fields => Plain value ∧ PlainFields fields

end

mutual

/-- What a printed value is read back as. -/
def seen : Json → Json
  | .nat n => seenNat n
  | .array items => .array (seenItems items)
  | .object fields => .object (seenFields fields)
  | .null => .null
  | .bool b => .bool b
  | .number text => .number text
  | .string s => .string s

/-- `seen` of all items. -/
def seenItems : List Json → List Json
  | [] => []
  | item :: items => seen item :: seenItems items

/-- `seen` of the values of all fields. -/
def seenFields : List (String × Json) → List (String × Json)
  | [] => []
  | (key, value) :: fields => (key, seen value) :: seenFields fields

end

/-- Items with commas and line breaks between them. -/
def joinItems (depth : Nat) : List Json → List Char
  | [] => []
  | item :: items => printAt depth item ++ printItems depth items

/-- Fields with commas and line breaks between them. -/
def joinFields (depth : Nat) : List (String × Json) → List Char
  | [] => []
  | (key, value) :: fields =>
    quote key ++ (": ".toList ++ (printAt depth value ++ printFields depth fields))

theorem printAt_array (depth : Nat) {items : List Json} (h : items ≠ []) :
    printAt depth (.array items) =
      '[' :: (newline (depth + 1) ++ (joinItems (depth + 1) items ++ (newline depth ++ [']']))) := by
  obtain ⟨item, items, rfl⟩ := List.exists_cons_of_ne_nil h
  simp only [printAt, joinItems, List.append_assoc]

theorem printAt_object (depth : Nat) {fields : List (String × Json)} (h : fields ≠ []) :
    printAt depth (.object fields) =
      '{' :: (newline (depth + 1) ++ (joinFields (depth + 1) fields ++ (newline depth ++ ['}']))) := by
  obtain ⟨⟨key, value⟩, fields, rfl⟩ := List.exists_cons_of_ne_nil h
  simp only [printAt, joinFields, List.append_assoc]

theorem printItems_cons (depth : Nat) (item : Json) (items : List Json) :
    printItems depth (item :: items) = ',' :: (newline depth ++ joinItems depth (item :: items)) := by
  simp only [printItems, joinItems, List.append_assoc]

theorem printFields_cons (depth : Nat) (field : String × Json) (fields : List (String × Json)) :
    printFields depth (field :: fields) =
      ',' :: (newline depth ++ joinFields depth (field :: fields)) := by
  obtain ⟨key, value⟩ := field
  simp only [printFields, joinFields, List.append_assoc]

/-- A printed value starts with a character that is neither a space nor a closing bracket. -/
theorem exists_head_printAt (depth : Nat) {j : Json} (h : Plain j) :
    ∃ c cs, printAt depth j = c :: cs ∧ isSpace c = false ∧ c ≠ ']' := by
  cases j with
  | null => exact ⟨'n', _, rfl, rfl, by decide⟩
  | bool b => cases b with
    | true => exact ⟨'t', _, rfl, rfl, by decide⟩
    | false => exact ⟨'f', _, rfl, rfl, by decide⟩
  | nat n =>
    obtain ⟨d, ds, hd, hdigit⟩ := exists_toDigits_eq_cons n
    refine ⟨d, ds, ?_, ?_, ?_⟩
    · rw [printAt, Nat.toString_eq_ofList_toDigits, String.toList_ofList, hd]
    · exact isSpace_of_isDigit hdigit
    · rintro rfl
      exact absurd hdigit (by decide)
  | number text => exact absurd h id
  | string s => exact ⟨'"', _, rfl, rfl, by decide⟩
  | array items => cases items with
    | nil => exact ⟨'[', _, rfl, rfl, by decide⟩
    | cons item items => exact ⟨'[', _, rfl, rfl, by decide⟩
  | object fields => cases fields with
    | nil => exact ⟨'{', _, rfl, rfl, by decide⟩
    | cons field fields => exact ⟨'{', _, rfl, rfl, by decide⟩

/-! ### The reader at the start of a value -/

theorem value?_nat (fuel : Nat) {gap rest : List Char} (hgap : AllSpace gap) (n : Nat)
    (hrest : Ends rest) :
    value? (fuel + 1) (gap ++ (Nat.toDigits 10 n ++ rest)) = some (seenNat n, rest) := by
  obtain ⟨d, ds, hd, hdigit⟩ := exists_toDigits_eq_cons n
  have hnumber := number?_toDigits n hrest
  rw [hd, List.cons_append] at hnumber ⊢
  rw [value?, skipSpace_append hgap (isSpace_of_isDigit hdigit)]
  split
  case h_7 => exact hnumber
  all_goals
    rename_i heq
    exact absurd hdigit (by rw [(List.cons.inj heq).1]; decide)

theorem value?_string (fuel : Nat) {gap : List Char} (hgap : AllSpace gap) (rest : List Char) :
    value? (fuel + 1) (gap ++ '"' :: rest) =
      (stringBody? (rest.length + 1) rest []).map fun r => (.string r.1, r.2) := by
  rw [value?, skipSpace_append hgap rfl]
  rfl

theorem value?_emptyArray (fuel : Nat) {gap : List Char} (hgap : AllSpace gap) (rest : List Char) :
    value? (fuel + 1) (gap ++ '[' :: ']' :: rest) = some (.array [], rest) := by
  rw [value?, skipSpace_append hgap rfl]
  rfl

theorem value?_emptyObject (fuel : Nat) {gap : List Char} (hgap : AllSpace gap) (rest : List Char) :
    value? (fuel + 1) (gap ++ '{' :: '}' :: rest) = some (.object [], rest) := by
  rw [value?, skipSpace_append hgap rfl]
  rfl

theorem value?_array (fuel : Nat) {gap rest cs : List Char} {c : Char} (hgap : AllSpace gap)
    (hrest : skipSpace rest = c :: cs) (hc : c ≠ ']') :
    value? (fuel + 1) (gap ++ '[' :: rest) =
      (items? fuel (c :: cs) []).map fun r => (.array r.1, r.2) := by
  rw [value?, skipSpace_append hgap rfl]
  simp only [hrest]
  split
  · exact absurd (List.cons.inj ‹_›).1 hc
  · rfl

theorem value?_object (fuel : Nat) {gap rest cs : List Char} {c : Char} (hgap : AllSpace gap)
    (hrest : skipSpace rest = c :: cs) (hc : c ≠ '}') :
    value? (fuel + 1) (gap ++ '{' :: rest) =
      (fields? fuel (c :: cs) []).map fun r => (.object r.1, r.2) := by
  rw [value?, skipSpace_append hgap rfl]
  simp only [hrest]
  split
  · exact absurd (List.cons.inj ‹_›).1 hc
  · rfl

theorem items?_last {fuel : Nat} {cs rest rest' : List Char} {item : Json}
    (hitem : value? fuel cs = some (item, rest)) (hrest : skipSpace rest = ']' :: rest')
    (read : List Json) : items? (fuel + 1) cs read = some ((item :: read).reverse, rest') := by
  rw [items?, hitem]
  simp only [hrest]

theorem items?_more {fuel : Nat} {cs rest rest' : List Char} {item : Json}
    (hitem : value? fuel cs = some (item, rest)) (hrest : skipSpace rest = ',' :: rest')
    (read : List Json) : items? (fuel + 1) cs read = items? fuel rest' (item :: read) := by
  rw [items?, hitem]
  simp only [hrest]

theorem colon_append (cs : List Char) : ": ".toList ++ cs = ':' :: ([' '] ++ cs) := rfl

theorem fields?_last {fuel : Nat} {gap cs rest rest' : List Char} {key : String} {value : Json}
    (hgap : AllSpace gap) (hkey : stringBody? (cs.length + 1) cs [] = some (key, ':' :: rest))
    {behind : List Char} (hvalue : value? fuel rest = some (value, behind))
    (hbehind : skipSpace behind = '}' :: rest') (read : List (String × Json)) :
    fields? (fuel + 1) (gap ++ '"' :: cs) read = some (((key, value) :: read).reverse, rest') := by
  have hcolon : skipSpace (':' :: rest) = ':' :: rest := rfl
  rw [fields?, skipSpace_append hgap rfl]
  simp only [hkey, hcolon, hvalue, hbehind]

theorem fields?_more {fuel : Nat} {gap cs rest rest' : List Char} {key : String} {value : Json}
    (hgap : AllSpace gap) (hkey : stringBody? (cs.length + 1) cs [] = some (key, ':' :: rest))
    {behind : List Char} (hvalue : value? fuel rest = some (value, behind))
    (hbehind : skipSpace behind = ',' :: rest') (read : List (String × Json)) :
    fields? (fuel + 1) (gap ++ '"' :: cs) read = fields? fuel rest' ((key, value) :: read) := by
  have hcolon : skipSpace (':' :: rest) = ':' :: rest := rfl
  rw [fields?, skipSpace_append hgap rfl]
  simp only [hkey, hcolon, hvalue, hbehind]

/-! ### Reading back -/

mutual

/-- **A printed value is read back.** -/
theorem value?_printAt : ∀ (j : Json) (depth fuel : Nat) (gap rest : List Char), Plain j →
    AllSpace gap → Ends rest → (printAt depth j).length ≤ fuel →
      value? fuel (gap ++ (printAt depth j ++ rest)) = some (seen j, rest)
  | j, depth, 0, _, _, hj, _, _, hfuel => by
    obtain ⟨c, cs, hc, -, -⟩ := exists_head_printAt depth hj
    rw [hc] at hfuel
    exact absurd hfuel (Nat.not_succ_le_zero _)
  | .null, depth, fuel + 1, gap, rest, _, hgap, _, _ => by
    change value? (fuel + 1) (gap ++ 'n' :: ("ull".toList ++ rest)) = _
    rw [value?, skipSpace_append hgap rfl]
    rfl
  | .bool true, depth, fuel + 1, gap, rest, _, hgap, _, _ => by
    change value? (fuel + 1) (gap ++ 't' :: ("rue".toList ++ rest)) = _
    rw [value?, skipSpace_append hgap rfl]
    rfl
  | .bool false, depth, fuel + 1, gap, rest, _, hgap, _, _ => by
    change value? (fuel + 1) (gap ++ 'f' :: ("alse".toList ++ rest)) = _
    rw [value?, skipSpace_append hgap rfl]
    rfl
  | .nat n, depth, fuel + 1, gap, rest, _, hgap, hrest, _ => by
    rw [printAt, Nat.toString_eq_ofList_toDigits, String.toList_ofList]
    exact value?_nat fuel hgap n hrest
  | .number text, _, _ + 1, _, _, hj, _, _, _ => absurd hj id
  | .string s, depth, fuel + 1, gap, rest, _, hgap, _, _ => by
    rw [printAt, quote, List.cons_append, List.cons_append, List.append_assoc, List.singleton_append,
      value?_string fuel hgap, stringBody?_quote]
    rfl
  | .array [], depth, fuel + 1, gap, rest, _, hgap, _, _ => value?_emptyArray fuel hgap rest
  | .array (item :: items), depth, fuel + 1, gap, rest, hj, hgap, _, hfuel => by
    rw [printAt_array depth (List.cons_ne_nil _ _)] at hfuel ⊢
    simp only [List.length_cons, List.length_append] at hfuel
    have hitems := items?_joinItems (item :: items) (depth + 1) fuel depth [] rest []
      (List.cons_ne_nil _ _) hj allSpace_nil (by omega)
    obtain ⟨c, cs, hc, hspace, hbracket⟩ := exists_head_printAt (depth + 1) hj.1
    rw [joinItems, hc] at hitems ⊢
    simp only [List.cons_append, List.append_assoc, List.nil_append] at hitems ⊢
    rw [value?_array fuel hgap (skipSpace_append (allSpace_newline _) hspace _) hbracket, hitems]
    rfl
  | .object [], depth, fuel + 1, gap, rest, _, hgap, _, _ => value?_emptyObject fuel hgap rest
  | .object ((key, value) :: fields), depth, fuel + 1, gap, rest, hj, hgap, _, hfuel => by
    rw [printAt_object depth (List.cons_ne_nil _ _)] at hfuel ⊢
    simp only [List.length_cons, List.length_append] at hfuel
    have hfields := fields?_joinFields ((key, value) :: fields) (depth + 1) fuel depth [] rest []
      (List.cons_ne_nil _ _) hj allSpace_nil (by omega)
    rw [joinFields, quote] at hfields ⊢
    simp only [List.cons_append, List.append_assoc, List.nil_append] at hfields ⊢
    rw [value?_object fuel hgap (skipSpace_append (allSpace_newline _) rfl _) (by decide), hfields]
    rfl

theorem items?_joinItems : ∀ (items : List Json) (depth fuel outer : Nat) (gap rest : List Char)
    (read : List Json), items ≠ [] → PlainItems items → AllSpace gap →
    (joinItems depth items).length < fuel →
      items? fuel (gap ++ (joinItems depth items ++ (newline outer ++ ']' :: rest))) read =
        some (read.reverse ++ seenItems items, rest)
  | _, _, 0, _, _, _, _, _, _, _, hfuel => absurd hfuel (Nat.not_lt_zero _)
  | [], _, _, _, _, _, _, hne, _, _, _ => absurd rfl hne
  | [item], depth, fuel + 1, outer, gap, rest, read, _, hitems, hgap, hfuel => by
    rw [joinItems, printItems, List.append_nil] at hfuel ⊢
    have hitem := value?_printAt item depth fuel gap (newline outer ++ ']' :: rest) hitems.1 hgap
      (ends_newline outer _) (by omega)
    rw [items?_last hitem (skipSpace_append (allSpace_newline outer) rfl rest), List.reverse_cons]
    rfl
  | item :: next :: items, depth, fuel + 1, outer, gap, rest, read, _, hitems, hgap, hfuel => by
    rw [joinItems, printItems_cons] at hfuel ⊢
    simp only [List.length_cons, List.length_append] at hfuel
    simp only [List.cons_append, List.append_assoc]
    have hitem := value?_printAt item depth fuel gap
      (',' :: (newline depth ++ (joinItems depth (next :: items) ++ (newline outer ++ ']' :: rest))))
      hitems.1 hgap (ends_comma _) (by omega)
    rw [items?_more hitem rfl, items?_joinItems (next :: items) depth fuel outer (newline depth) rest
      (seen item :: read) (List.cons_ne_nil _ _) hitems.2 (allSpace_newline depth) (by omega),
      List.reverse_cons, List.append_assoc]
    rfl

theorem fields?_joinFields : ∀ (fields : List (String × Json)) (depth fuel outer : Nat)
    (gap rest : List Char) (read : List (String × Json)), fields ≠ [] → PlainFields fields →
    AllSpace gap → (joinFields depth fields).length < fuel →
      fields? fuel (gap ++ (joinFields depth fields ++ (newline outer ++ '}' :: rest))) read =
        some (read.reverse ++ seenFields fields, rest)
  | _, _, 0, _, _, _, _, _, _, _, hfuel => absurd hfuel (Nat.not_lt_zero _)
  | [], _, _, _, _, _, _, hne, _, _, _ => absurd rfl hne
  | [(key, value)], depth, fuel + 1, outer, gap, rest, read, _, hfields, hgap, hfuel => by
    rw [joinFields, printFields, List.append_nil] at hfuel ⊢
    simp only [List.length_append] at hfuel
    simp only [quote, List.cons_append, List.append_assoc, List.nil_append]
    have hvalue := value?_printAt value depth fuel [' '] (newline outer ++ '}' :: rest) hfields.1
      allSpace_space (ends_newline outer _) (by omega)
    rw [colon_append, fields?_last hgap (stringBody?_quote key _) hvalue
      (skipSpace_append (allSpace_newline outer) rfl rest), List.reverse_cons]
    rfl
  | (key, value) :: next :: fields, depth, fuel + 1, outer, gap, rest, read, _, hfields, hgap,
      hfuel => by
    rw [joinFields, printFields_cons] at hfuel ⊢
    simp only [List.length_cons, List.length_append] at hfuel
    simp only [quote, List.cons_append, List.append_assoc, List.nil_append]
    have hvalue := value?_printAt value depth fuel [' ']
      (',' :: (newline depth ++ (joinFields depth (next :: fields) ++ (newline outer ++ '}' :: rest))))
      hfields.1 allSpace_space (ends_comma _) (by omega)
    rw [colon_append, fields?_more hgap (stringBody?_quote key _) hvalue rfl,
      fields?_joinFields (next :: fields) depth fuel outer (newline depth) rest
        ((key, seen value) :: read) (List.cons_ne_nil _ _) hfields.2 (allSpace_newline depth)
        (by omega), List.reverse_cons, List.append_assoc]
    rfl

end

/-- **What has been printed is read back.** -/
theorem parse?_print {j : Json} (h : Plain j) : Json.parse? j.print = some (seen j) := by
  have hvalue := value?_printAt j 0 ((printAt 0 j).length + 1) [] [] h allSpace_nil ends_nil (by omega)
  rw [List.nil_append, List.append_nil] at hvalue
  rw [Json.parse?, Json.print, String.toList_ofList, hvalue]
  rfl

end Manifest.Proofs.JsonText
