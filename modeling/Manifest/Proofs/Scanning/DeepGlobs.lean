import Manifest.Proofs.Scanning.LiteralGlobs

/-! # Globs in braces

A name in braces is a glob for the name alone, however many braces there are (`parse?_braced`). Each of
them is one level of the expression that the glob is matched with, so with as many as an expression may
be deep no set can hold the glob (`isShallow_nested`), and a scan with such a glob for the names of
manifests finds nothing (`wanted_of_deep`). -/

namespace Manifest.Proofs.Scanning.DeepGlobs

open Manifest.Glob Manifest.Scan Manifest.Proofs.Scanning.Globs Manifest.Proofs.Scanning.LiteralGlobs

/-! ### Reading -/

/-- A text in some braces. -/
def braced (n : Nat) (cs : List Char) : List Char :=
  List.replicate n '{' ++ (cs ++ List.replicate n '}')

/-- The tokens in some groups of one branch. -/
def nested : Nat → List Token → List Token
  | 0, ts => ts
  | n + 1, ts => nested n [.either [ts]]

section

variable {style : Style} {fuel : Nat} {previous : Option Char} {tokens : List Token} {loose : Bool}

/-- Groups that hold nothing yet. -/
def opened (n : Nat) : List Group := List.replicate n ⟨[], []⟩

/-- Braces are opened one by one. -/
theorem readTokens_opening (n m : Nat) (cs : List Char) : ∃ last,
    readTokens style (n + fuel) ⟨opened m, [], loose⟩ previous (List.replicate n '{' ++ cs) =
      readTokens style fuel ⟨opened (n + m), [], loose⟩ last cs := by
  induction n generalizing m previous with
  | zero => exact ⟨previous, by simp⟩
  | succ n ih =>
    obtain ⟨last, hrest⟩ := @ih (some '{') (m + 1)
    refine ⟨last, ?_⟩
    rw [Nat.add_right_comm, List.replicate_succ, List.cons_append, readTokens]
    have hopen : (⟨opened m, [], loose⟩ : Draft).openGroup = ⟨opened (m + 1), [], loose⟩ := by
      rw [opened, opened, List.replicate_succ]
      rfl
    rw [hopen, hrest, Nat.add_right_comm n 1 m, Nat.add_assoc]

/-- Closing them puts what stands between into a group each time. -/
theorem readTokens_closing (n : Nat) :
    readTokens style (n + (fuel + 1)) ⟨opened n, tokens, loose⟩ previous (List.replicate n '}') =
      some ⟨[], (nested n tokens.reverse).reverse, loose⟩ := by
  induction n generalizing tokens previous with
  | zero => rw [Nat.zero_add, List.replicate_zero, readTokens, nested, List.reverse_reverse]; rfl
  | succ n ih =>
    have hclose : (⟨opened (n + 1), tokens, loose⟩ : Draft).closeGroup? =
        some ⟨opened n, [.either [tokens.reverse]], loose⟩ := by
      rw [opened, opened, List.replicate_succ]
      rfl
    rw [Nat.add_right_comm, List.replicate_succ, readTokens, hclose, Option.bind_some, ih, nested]
    rfl

/-- **A text in braces is read as what it is read as without them**, in as many groups. -/
theorem parse?_braced (n : Nat) {cs : List Char} (hcs : ∀ c ∈ cs, IsPlain c) (hcomma : ',' ∉ cs) :
    parse? style (String.ofList (braced n cs)) = some ⟨nested n (literals cs), style.separate⟩ := by
  have hfuel : (braced n cs).length + 1 = n + (cs.length + (n + (0 + 1))) := by
    simp only [braced, List.length_append, List.length_replicate]
    omega
  have hread : readTokens style (n + (cs.length + (n + (0 + 1)))) .empty none (braced n cs) =
      some ⟨[], (nested n (literals cs)).reverse, false⟩ := by
    obtain ⟨last, hopening⟩ := @readTokens_opening style (cs.length + (n + (0 + 1))) none false n 0
      (cs ++ List.replicate n '}')
    have hempty : (⟨opened 0, [], false⟩ : Draft) = .empty := rfl
    rw [hempty] at hopening
    rw [braced, hopening, readTokens_append hcs fun hmem => (hcomma hmem).elim]
    exact (readTokens_closing n).trans (by simp)
  rw [parse?_of_read String.toList_ofList hfuel hread, List.reverse_reverse]

end

/-! ### Depth -/

/-- Each group is one level. -/
theorem depthOfSequence_nested (separate : Bool) (n : Nat) {ts : List Token}
    (hts : isNothing ts = false) :
    depthOfSequence (depths separate (nested n ts)) = n + depthOfSequence (depths separate ts) := by
  induction n generalizing ts with
  | zero => rw [nested, Nat.zero_add]
  | succ n ih =>
    have hgroup : isNothing [.either [ts]] = false := by
      simp [isNothing, isNothing.allNothing, hts]
    have hdepth : depths separate [.either [ts]] = [1 + depthOfSequence (depths separate ts)] := by
      simp [depths, depthsOfToken, depthsOfBranches, hts]
    rw [nested, ih hgroup, hdepth, depthOfSequence]
    omega

theorem depthOfSequence_le (depths : List Nat) :
    depthOfSequence depths ≤ 1 + depths.foldl max 0 := by
  match depths with
  | [] => exact Nat.zero_le _
  | [n] => simp [depthOfSequence]
  | _ :: _ :: _ => exact Nat.le_refl _

/-- **In too many groups a glob is too deep**, unless it stands for nothing. -/
theorem isShallow_nested (separate : Bool) {n : Nat} {ts : List Token} (hts : isNothing ts = false)
    (hn : depthLimit < n) : isShallow ⟨nested n ts, separate⟩ = false := by
  have hdepth := depthOfSequence_nested separate n hts
  have hle := depthOfSequence_le (depths separate (nested n ts))
  rw [isShallow, depth, decide_eq_false_iff_not]
  change ¬ 1 + (depths separate (nested n ts)).foldl max 0 ≤ depthLimit
  omega

/-! ### Scans -/

/-- Globs for the names of manifests one of which is too deep are refused as a whole. -/
theorem wanted_of_deep {c : Config} {text : String} {g : Glob}
    (hglobs : ∀ text ∈ c.patterns, (Glob.parse? globStyle text).isSome) (htext : text ∈ c.patterns)
    (hparse : Glob.parse? globStyle text = some g) (hdeep : g.isShallow = false) :
    wanted c = .error .deepPattern := by
  have hmem : g ∈ c.patterns.filterMap (Glob.parse? globStyle) :=
    List.mem_filterMap.mpr ⟨text, htext, hparse⟩
  rw [wanted, mapM_glob .badPattern hglobs]
  refine if_neg fun hall => ?_
  rw [List.all_eq_true.mp hall g hmem] at hdeep
  cases hdeep

end Manifest.Proofs.Scanning.DeepGlobs
