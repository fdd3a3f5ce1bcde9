import Manifest.Proofs.NameList.Lexing
import Mathlib.Data.List.TakeWhile

/-! # The tokens of a list of names

The marks of the tokens are those of the text: an item at offset `o` on line `L` has its mapping at
`o + 2` and its name at `o + 8`, and the mapping ends where the next item starts, or with the text.
The items stand no further right than the key in front of them, so no token starts their sequence.

* `listTokens` writes the tokens down;
* `leads_mapping` is one item of the lexer's run and `run_behindItem` all items behind the first;
* `tokens_ofText`: these are the tokens that the lexer reads. -/

namespace Manifest.Proofs.NameList

open Manifest.Yaml

/-! ### The tokens -/

/-- The tokens of the line in front of the items. -/
def headerTokens : List Token :=
  [.point .streamStart .origin, .point .blockMappingStart .origin, .point .key .origin,
    ⟨.scalar .plain "applications", .origin, ⟨12, 1, 12⟩⟩, .point .value ⟨12, 1, 12⟩]

/-- The tokens of the item at offset `o` on line `L`, without the end of its mapping. -/
def itemTokens (o L : Nat) (n : List Char) : List Token :=
  [.point .blockEntry ⟨o + 2, L, 2⟩, .point .blockMappingStart ⟨o + 2, L, 2⟩,
    .point .key ⟨o + 2, L, 2⟩, ⟨.scalar .plain "name", ⟨o + 2, L, 2⟩, ⟨o + 6, L, 6⟩⟩,
    .point .value ⟨o + 6, L, 6⟩,
    ⟨.scalar .plain (String.ofList n), ⟨o + 8, L, 8⟩, ⟨o + 8 + n.length, L, 8 + n.length⟩⟩]

/-- The tokens from offset `o` and line `L` on, in front of the items of some names. -/
def tokensFrom (o L : Nat) : List (List Char) → List Token
  | [] => [.point .blockEnd ⟨o, L, 0⟩, .point .streamEnd ⟨o, L, 0⟩]
  | n :: ns =>
    itemTokens o L n ++ .point .blockEnd ⟨o + 8 + n.length + 1, L + 1, 0⟩ ::
      tokensFrom (o + 8 + n.length + 1) (L + 1) ns

/-- The tokens of a list of names. -/
def listTokens (ns : List (List Char)) : List Token := headerTokens ++ tokensFrom 14 2 ns

/-! ### The run -/

theorem atItem_items (ns : List (List Char)) : AtItem (items ns) := by
  intro c hc
  rw [head?_items] at hc
  obtain ⟨n, -, rfl⟩ := Option.map_eq_some_iff.mp hc
  rfl

theorem items_cons (n : List Char) (ns : List (List Char)) :
    items (n :: ns) =
      '-' :: ' ' :: (['n', 'a', 'm', 'e'] ++ ':' :: ' ' :: (n ++ '\n' :: items ns)) := by
  simp [items, item]

/-- Behind an item, the mapping of which is still open. -/
def behindItem (ns : List (List Char)) (ts : List Token) (p : Nat) (m : Mark) (o L : Nat) :
    Nat → Lexer :=
  inBlock ⟨items ns, ⟨o, L, 0⟩, true⟩ ts (spent p m) true 2 [⟨0, true⟩, ⟨-1, true⟩]

/-- Behind the dash of an item, `rest` being what follows its line. -/
def behindDash (n rest : List Char) (ts : List Token) (p : Nat) (m : Mark) (o L : Nat) :
    Nat → Lexer :=
  inBlock ⟨['n', 'a', 'm', 'e'] ++ ':' :: ' ' :: (n ++ '\n' :: rest), ⟨o + 2, L, 2⟩, false⟩
    (.point .blockEntry ⟨o + 2, L, 2⟩ :: ts) (spent p m) true 0 [⟨-1, true⟩]

/-- **An item behind its dash is three tokens of the lexer's run.** -/
theorem leads_mapping {n : List Char} (hn : IsAppName n) (ns : List (List Char)) (ts : List Token)
    (p : Nat) (m : Mark) (o L : Nat) :
    Leads 3 (behindDash n (items ns) ts p m o L)
      (behindItem ns ((itemTokens o L n).reverse ++ ts) (ts.length + 1) ⟨o + 2, L, 2⟩
        (o + 8 + n.length + 1) (L + 1)) := by
  have hindents : OnBlock [⟨-1, true⟩] := by rintro j ⟨⟩; rfl
  have hindents' : OnBlock [⟨0, true⟩, ⟨-1, true⟩] := by rintro j ⟨⟩; rfl
  have hkey := leads_key (show IsAppName ['n', 'a', 'm', 'e'] by decide) (by decide) (.inl rfl)
    (n ++ '\n' :: items ns) (m := ⟨o + 2, L, 2⟩) false
    (show Open (.point .blockEntry ⟨o + 2, L, 2⟩ :: ts) from rfl) (fresh_spent p m _)
    (show (0 : Int) < (2 : Nat) by decide) hindents
  have hcolumn : ((2 : Nat) : Int) + 1 ≤ (8 : Nat) := by decide
  exact hkey.trans (m := 1) (leads_value (j := 2) hn (atItem_items ns) (by decide) hindents' rfl
    (fresh_spent _ _ _) (fresh_spent _ _ _) hcolumn)

theorem leads_dash (n : List Char) (ns : List (List Char)) {ts : List Token} (hts : Open ts)
    (p : Nat) (m : Mark) (o L : Nat) :
    Leads 1 (behindItem (n :: ns) ts p m o L)
      (behindDash n (items ns) (.point .blockEnd ⟨o, L, 0⟩ :: ts) p m o L) := by
  refine leads_fetch hts (fresh_spent p m _) fun s => ?_
  rw [items_cons]
  rfl

/-- **Behind an item the lexer reads the tokens of all further items**, and nothing goes wrong. -/
theorem run_behindItem : ∀ (ns : List (List Char)) (ts : List Token) (p : Nat) (m : Mark)
    (o L : Nat), (∀ n ∈ ns, IsAppName n) → Open ts → ∀ s fuel,
      (behindItem ns ts p m o L s).run (fuel + (4 * ns.length + 2)) =
        ⟨ts.reverse ++ .point .blockEnd ⟨o, L, 0⟩ :: tokensFrom o L ns, none⟩
  | [], ts, p, m, o, L, _, hts, s, fuel => by
    have hend : Leads 1 (behindItem [] ts p m o L)
        (inBlock ⟨[], ⟨o, L, 0⟩, true⟩
          (.point .streamEnd ⟨o, L, 0⟩ :: .point .blockEnd ⟨o, L, 0⟩ ::
            .point .blockEnd ⟨o, L, 0⟩ :: ts)
          (spent p m) false (-1) []) :=
      leads_fetch hts (fresh_spent p m _) fun s => rfl
    obtain ⟨s', hs'⟩ := hend s
    have hfuel : fuel + (4 * ([] : List (List Char)).length + 2) = (fuel + 1) + 1 := rfl
    rw [hfuel, hs', run_inBlock_of_ended rfl (fresh_spent p m _)]
    simp [tokensFrom]
  | n :: ns, ts, p, m, o, L, hns, hts, s, fuel => by
    have hn : IsAppName n := hns n (by simp)
    have hmapping := leads_mapping hn ns (.point .blockEnd ⟨o, L, 0⟩ :: ts) p m o L
    obtain ⟨s', hs'⟩ := (leads_dash n ns hts p m o L).trans hmapping s
    have hfuel : fuel + (4 * (n :: ns).length + 2) = fuel + (4 * ns.length + 2) + (1 + 3) := by
      rw [List.length_cons]
      omega
    rw [hfuel, hs', run_behindItem ns _ _ _ _ _ (fun m hm => hns m (List.mem_cons_of_mem _ hm))
      (by rfl)]
    simp [tokensFrom]

/-- **The key of the list and the dash of its first item are three tokens of the lexer's run.** -/
theorem leads_header (n : List Char) (ns : List (List Char)) :
    Leads 3 (inBlock ⟨header ++ items (n :: ns), .origin, true⟩ [.point .streamStart .origin] .none
        true (-1) [])
      (behindDash n (items ns) headerTokens.reverse 1 .origin 14 2) := by
  have hindents : OnBlock [] := by rintro j ⟨⟩
  have hkey := leads_key (k := .none) (show IsAppName (header.take 12) by decide) (by decide)
    (.inr rfl) (items (n :: ns)) (m := .origin) true
    (show Open [.point .streamStart .origin] from rfl) (fresh_spent 0 ⟨0, 0, 0⟩ _)
    (show (-1 : Int) < (0 : Nat) by decide) hindents
  refine hkey.trans (m := 1) (leads_fetch (by rfl) (fresh_spent _ _ _) fun s => ?_)
  rw [items_cons]
  rfl

theorem length_le_length_items (ns : List (List Char)) : 4 * ns.length ≤ (items ns).length := by
  induction ns with
  | nil => exact Nat.le_refl 0
  | cons n ns ih =>
    rw [length_items_cons, List.length_cons]
    omega

theorem ne_nul_of_mem {ns : List (List Char)} (hns : ∀ n ∈ ns, IsAppName n) {c : Char}
    (hc : c ∈ header ++ items ns) : c ≠ '\x00' := by
  rcases List.mem_append.mp hc with hc | hc
  · rintro rfl
    revert hc
    decide
  · obtain ⟨n, hn, hc⟩ := List.mem_flatMap.mp hc
    have hchars := (hns n hn).chars
    rintro rfl
    simp only [item, List.mem_cons, List.mem_append, List.not_mem_nil] at hc
    have hname : '\x00' ∈ n := by simpa using hc
    exact (hchars _ hname).ne (by decide) rfl

theorem lexer_ofText {s : String} {ns : List (List Char)} (hns : ∀ n ∈ ns, IsAppName n)
    (hs : s.toList = header ++ items ns) :
    Lexer.ofText s = inBlock ⟨header ++ items ns, .origin, true⟩ [.point .streamStart .origin] .none
      true (-1) [] 0 := by
  have htext : (header ++ items ns).takeWhile (· != '\x00') = header ++ items ns :=
    List.takeWhile_eq_self_iff.mpr fun c hc => by simpa using ne_nul_of_mem hns hc
  have hcursor : Cursor.ofText s = ⟨header ++ items ns, .origin, true⟩ := by
    rw [Cursor.ofText, hs, htext]
  rw [Lexer.ofText, hcursor]
  rfl

/-- **The lexer reads the tokens of a list of names.** -/
theorem tokens_ofText {s : String} {n : List Char} {ns : List (List Char)}
    (hns : ∀ m ∈ n :: ns, IsAppName m) (hs : s.toList = header ++ items (n :: ns)) :
    TokenStream.ofText s = ⟨listTokens (n :: ns), none⟩ := by
  have hmapping := leads_mapping (hns n (by simp)) ns headerTokens.reverse 1 .origin 14 2
  obtain ⟨s', hs'⟩ := (leads_header n ns).trans hmapping 0
  obtain ⟨fuel, hfuel⟩ : ∃ fuel, (header ++ items (n :: ns)).length + 2 =
      fuel + (4 * ns.length + 2) + (3 + 3) := by
    have hitems := length_le_length_items (n :: ns)
    have hheader : header.length = 14 := rfl
    rw [List.length_cons] at hitems
    rw [List.length_append, hheader]
    exact ⟨(items (n :: ns)).length - 4 * ns.length + 8, by omega⟩
  have hrest : (Lexer.ofText s).cursor.rest = header ++ items (n :: ns) := by
    rw [lexer_ofText hns hs]
    rfl
  have htail : ∀ m ∈ ns, IsAppName m := fun m hm => hns m (List.mem_cons_of_mem _ hm)
  rw [TokenStream.ofText, hrest, hfuel, lexer_ofText hns hs, hs',
    run_behindItem ns _ _ _ _ _ htail (by rfl), listTokens]
  simp [tokensFrom]

end Manifest.Proofs.NameList
