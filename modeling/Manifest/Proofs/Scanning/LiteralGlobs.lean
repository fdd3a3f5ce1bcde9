import Mathlib.Data.List.Infix
import Mathlib.Data.List.TakeWhile
import Manifest.Proofs.Scanning.Globs

/-! # Globs of plain names

A name to pass over that holds no special character is read as the literals of its characters
(`parse?_plain`), and the globs that it stands for put `**/` in front of them or `/**` behind. What the
four of them stand for is a matter of whole parts: the parts of the name occur in the parts of the path
as a run, at any depth (`stands_expand_iff`). Matching counts in bytes, where a slash is the byte of
nothing but a slash (`slash_notMem_utf8EncodeChar`). None of these globs is nested deep
(`isShallow_of_literals`). -/

namespace Manifest.Proofs.Scanning.LiteralGlobs

open Manifest.Glob Manifest.Path Manifest.Scan Manifest.Proofs.Scanning.Globs
open Manifest.Text (slash)

/-! ### Reading -/

/-- A character that stands for itself in a glob, outside of groups and classes. -/
def IsPlain (c : Char) : Prop := c ∉ ['?', '*', '[', '{', '}', '\\']

instance (c : Char) : Decidable (IsPlain c) := inferInstanceAs (Decidable (c ∉ _))

/-- The tokens of characters that stand for themselves. -/
def literals (cs : List Char) : List Token := cs.map .literal

/-- A draft with some more tokens of characters that stand for themselves. -/
def pushAll (d : Draft) (cs : List Char) : Draft :=
  { d with tokens := (literals cs).reverse ++ d.tokens }

section

variable {style : Style} {d : Draft} {previous : Option Char} {fuel : Nat} {cs rest : List Char}

theorem readTokens_cons {c : Char} (hc : IsPlain c) (hgroups : c = ',' → d.groups = []) :
    readTokens style (fuel + 1) d previous (c :: rest) =
      readTokens style fuel (d.push (.literal c)) (some c) rest := by
  simp only [IsPlain, List.mem_cons, List.not_mem_nil, or_false, not_or] at hc
  obtain ⟨hany, hmany, hclass, hopen, hclose, hescape⟩ := hc
  by_cases hcomma : c = ','
  · subst hcomma
    rw [readTokens]
    simp [Draft.comma, hgroups rfl]
  · rw [readTokens.eq_11 _ _ _ _ _ _ hany (fun _ h _ => hmany h) hmany hopen hclose hcomma
      (fun _ _ h _ => hescape h) (fun h _ => hescape h), if_neg fun h => hclass h.1]

/-- Characters that stand for themselves are read one by one. -/
theorem readTokens_append (hcs : ∀ c ∈ cs, IsPlain c) (hgroups : ',' ∈ cs → d.groups = []) :
    readTokens style (cs.length + fuel) d previous (cs ++ rest) =
      readTokens style fuel (pushAll d cs) (cs.getLast?.or previous) rest := by
  induction cs generalizing d previous with
  | nil => simp [pushAll, literals]
  | cons c cs ih =>
    obtain ⟨hc, hrest⟩ := List.forall_mem_cons.mp hcs
    have hdraft : pushAll (d.push (.literal c)) cs = pushAll d (c :: cs) := by
      simp [pushAll, literals, Draft.push]
    have hfirst : c = ',' → d.groups = [] := fun heq => hgroups (heq ▸ List.mem_cons_self)
    have hpushed : ',' ∈ cs → (d.push (.literal c)).groups = [] :=
      fun hmem => hgroups (List.mem_cons_of_mem c hmem)
    rw [List.length_cons, Nat.add_right_comm, List.cons_append, readTokens_cons hc hfirst,
      ih hrest hpushed, hdraft, List.getLast?_cons]
    cases cs.getLast? <;> rfl

/-- `**/` at the start. -/
theorem readTokens_leading :
    readTokens style (fuel + 1) .empty previous ('*' :: '*' :: '/' :: rest) =
      readTokens style fuel (Draft.empty.push .leading) (some '/') rest := by
  rw [readTokens]
  rfl

theorem stars_trailing : (d.push (.literal '/')).stars (some '/') [] = (d.push .trailing, '*', []) :=
  rfl

/-- `/**` at the end. -/
theorem readTokens_trailing (hgroups : d.groups = []) :
    readTokens style (fuel + 3) d previous ['/', '*', '*'] = some (d.push .trailing) := by
  rw [readTokens_cons (by decide) fun _ => hgroups, readTokens, stars_trailing]
  rfl

theorem parse?_of_read {text : String} {tokens : List Token} {loose : Bool} (htext : text.toList = cs)
    (hfuel : cs.length + 1 = fuel)
    (hread : readTokens style fuel .empty none cs = some ⟨[], tokens, loose⟩) :
    parse? style text = some ⟨tokens.reverse, style.separate⟩ := by
  rw [parse?, htext, hfuel, hread]

theorem readTokens_plain (hcs : ∀ c ∈ cs, IsPlain c) (hgroups : d.groups = []) :
    readTokens style (cs.length + (fuel + 1)) d previous cs = some (pushAll d cs) := by
  have hread : readTokens style (cs.length + (fuel + 1)) d previous (cs ++ []) = _ :=
    readTokens_append hcs fun _ => hgroups
  rw [List.append_nil] at hread
  rw [hread, readTokens]

theorem readTokens_closed (hcs : ∀ c ∈ cs, IsPlain c) (hgroups : d.groups = []) :
    readTokens style (cs.length + (fuel + 3)) d previous (cs ++ ['/', '*', '*']) =
      some ((pushAll d cs).push .trailing) := by
  have hpushed : (pushAll d cs).groups = [] := hgroups
  rw [readTokens_append hcs fun _ => hgroups, readTokens_trailing hpushed]

end

variable {style : Style} {name : String}

/-- A name without special characters is read as it stands. -/
theorem parse?_plain (h : ∀ c ∈ name.toList, IsPlain c) :
    parse? style name = some ⟨literals name.toList, style.separate⟩ := by
  rw [parse?_of_read rfl rfl (readTokens_plain h rfl)]
  simp [Draft.empty, literals]

theorem parse?_trailing (h : ∀ c ∈ name.toList, IsPlain c) :
    parse? style (name ++ "/**") = some ⟨literals name.toList ++ [.trailing], style.separate⟩ := by
  have htext : (name ++ "/**").toList = name.toList ++ ['/', '*', '*'] := by simp
  rw [parse?_of_read htext (by simp; rfl) (readTokens_closed h rfl)]
  simp [pushAll, Draft.empty, literals]

theorem parse?_leading (h : ∀ c ∈ name.toList, IsPlain c) :
    parse? style ("**/" ++ name) = some ⟨.leading :: literals name.toList, style.separate⟩ := by
  have htext : ("**/" ++ name).toList = '*' :: '*' :: '/' :: name.toList := by simp
  rw [parse?_of_read htext (by simp; rfl) (readTokens_leading.trans (readTokens_plain h rfl))]
  simp [Draft.empty, Draft.push, literals]

theorem parse?_both (h : ∀ c ∈ name.toList, IsPlain c) :
    parse? style ("**/" ++ name ++ "/**") =
      some ⟨.leading :: (literals name.toList ++ [.trailing]), style.separate⟩ := by
  have htext : ("**/" ++ name ++ "/**").toList =
      '*' :: '*' :: '/' :: (name.toList ++ ['/', '*', '*']) := by simp
  rw [parse?_of_read htext (by simp; rfl) (readTokens_leading.trans (readTokens_closed h rfl))]
  simp [pushAll, Draft.empty, Draft.push, literals]

/-! ### Depth -/

theorem foldl_max_le {bound start : Nat} {depths : List Nat} (hstart : start ≤ bound)
    (h : ∀ n ∈ depths, n ≤ bound) : depths.foldl max start ≤ bound := by
  induction depths generalizing start with
  | nil => exact hstart
  | cons n depths ih =>
    obtain ⟨hn, hrest⟩ := List.forall_mem_cons.mp h
    exact ih (max_le hstart hn) hrest

theorem depths_append (separate : Bool) (ts us : List Token) :
    depths separate (ts ++ us) = depths separate ts ++ depths separate us := by
  induction ts with
  | nil => rfl
  | cons t ts ih => rw [List.cons_append, depths, depths, ih, List.append_assoc]

theorem depths_literals (separate : Bool) (cs : List Char) :
    ∀ n ∈ depths separate (literals cs), n = 0 := by
  induction cs with
  | nil => simp [literals, depths]
  | cons c cs ih =>
    rw [literals, List.map_cons, depths, depthsOfToken]
    intro n hn
    rcases List.mem_append.mp hn with hn | hn
    · obtain ⟨-, -, hzero⟩ := List.mem_map.mp hn
      exact hzero.symm
    · exact ih n hn

/-- A set can hold a glob of literals with something that is not deep in front of them and behind. -/
theorem isShallow_of_literals (separate : Bool) (cs : List Char) {front back : List Token}
    (hfront : ∀ n ∈ depths separate front, n ≤ 4) (hback : ∀ n ∈ depths separate back, n ≤ 4) :
    (⟨front ++ (literals cs ++ back), separate⟩ : Glob).isShallow = true := by
  have hbound : ∀ n ∈ depths separate (front ++ (literals cs ++ back)), n ≤ 4 := by
    simp only [depths_append, List.mem_append]
    rintro n (hn | hn | hn)
    · exact hfront n hn
    · exact (depths_literals separate cs n hn).symm ▸ Nat.zero_le 4
    · exact hback n hn
  have hdepth := foldl_max_le (Nat.zero_le 4) hbound
  rw [isShallow, Glob.depth, decide_eq_true_iff]
  exact Nat.le_trans (Nat.add_le_add_left hdepth 1) (by decide)

/-! ### Matching -/

section

variable {separate : Bool} {ts : List Token} {bs r : List UInt8}

theorem mem_rests_cons {t : Token} :
    r ∈ rests separate (t :: ts) bs ↔ ∃ mid ∈ restsOfToken separate t bs, r ∈ rests separate ts mid := by
  rw [rests, List.mem_flatMap]

theorem afterBytes?_eq_some_iff {ws : List UInt8} : afterBytes? ws bs = some r ↔ bs = ws ++ r := by
  induction ws generalizing bs with
  | nil => simp [afterBytes?]
  | cons w ws ih =>
    cases bs with
    | nil => simp [afterBytes?]
    | cons b bs =>
      rw [afterBytes?]
      split_ifs with hb
      · simp [ih, hb]
      · simp [Ne.symm hb]

theorem mem_rests_literals {cs : List Char} :
    r ∈ rests separate (literals cs ++ ts) bs ↔
      ∃ mid, bs = Text.bytesOf cs ++ mid ∧ r ∈ rests separate ts mid := by
  induction cs generalizing bs with
  | nil => simp [literals, Text.bytesOf]
  | cons c cs ih =>
    have hhead : literals (c :: cs) ++ ts = .literal c :: (literals cs ++ ts) := rfl
    have hbytes : Text.bytesOf (c :: cs) = String.utf8EncodeChar c ++ Text.bytesOf cs := rfl
    rw [hhead, mem_rests_cons, hbytes]
    simp only [restsOfToken, Option.mem_toList, afterBytes?_eq_some_iff, ih]
    constructor
    · rintro ⟨_, rfl, mid, rfl, hmid⟩
      exact ⟨mid, by rw [List.append_assoc], hmid⟩
    · rintro ⟨mid, rfl, hmid⟩
      exact ⟨_, List.append_assoc .., mid, rfl, hmid⟩

theorem nil_mem_restsOfMany : ∀ bs, [] ∈ restsOfMany false bs
  | [] => List.mem_singleton_self []
  | _ :: bs => List.mem_cons_of_mem _ (nil_mem_restsOfMany bs)

theorem nil_mem_rests_nil : [] ∈ rests separate [] bs ↔ bs = [] := by
  rw [rests, List.mem_singleton, eq_comm]

theorem nil_mem_rests_trailing : [] ∈ rests separate [.trailing] bs ↔ ∃ more, bs = slash :: more := by
  simp only [mem_rests_cons, nil_mem_rests_nil, exists_eq_right]
  cases bs with
  | nil => simp [restsOfToken]
  | cons b bs =>
    rw [restsOfToken]
    split_ifs with hb
    · simp [hb, nil_mem_restsOfMany]
    · simp [hb]

theorem mem_restsOfToken_leading :
    r ∈ restsOfToken separate .leading bs ↔ r ∈ bs :: afterSlashes bs := by
  rw [restsOfToken]

end

theorem stands_cons {text : String} {g : Glob} (h : parse? globStyle text = some g) {texts : List String}
    {path : List UInt8} : Stands (text :: texts) path ↔ g.isMatch path = true ∨ Stands texts path := by
  simp [Stands, h]

theorem isMatch_iff {g : Glob} (hlone : g.isEverything = false) {path : List UInt8} :
    g.isMatch path = true ↔ [] ∈ rests g.separate g.tokens path := by
  rw [Glob.isMatch, hlone, Bool.false_or, List.any_eq_true]
  simp

/-- Of the texts of a path from its start or from behind one of its slashes, one is the name or goes on
with a slash behind the name. -/
def RunsAlong (name path : List UInt8) : Prop :=
  ∃ text ∈ path :: afterSlashes path, text = name ∨ ∃ more, text = name ++ slash :: more

/-- What the globs of a plain name stand for, in bytes. -/
theorem stands_iff_runsAlong (hname : name ≠ "") (h : ∀ c ∈ name.toList, IsPlain c)
    {path : List UInt8} :
    Stands [name, name ++ "/**", "**/" ++ name, "**/" ++ name ++ "/**"] path ↔
      RunsAlong (Text.bytes name) path := by
  obtain ⟨c, cs, hcs⟩ : ∃ c cs, name.toList = c :: cs :=
    List.exists_cons_of_ne_nil (by simpa using hname)
  have hexact : (⟨literals name.toList ++ [], globStyle.separate⟩ : Glob).isMatch path = true ↔
      path = Text.bytes name := by
    rw [isMatch_iff (by rw [hcs]; rfl), mem_rests_literals]
    simp [nil_mem_rests_nil, Text.bytes]
  have hbelow : (⟨literals name.toList ++ [.trailing], globStyle.separate⟩ : Glob).isMatch path =
      true ↔ ∃ more, path = Text.bytes name ++ slash :: more := by
    rw [isMatch_iff (by rw [hcs]; rfl), mem_rests_literals]
    simp [nil_mem_rests_trailing, Text.bytes]
  have hdeep : (⟨.leading :: (literals name.toList ++ []), globStyle.separate⟩ : Glob).isMatch path =
      true ↔ ∃ text ∈ path :: afterSlashes path, text = Text.bytes name := by
    rw [isMatch_iff (by rw [hcs]; rfl), mem_rests_cons]
    simp only [mem_restsOfToken_leading, mem_rests_literals, nil_mem_rests_nil, Text.bytes]
    simp
  have hunder : (⟨.leading :: (literals name.toList ++ [.trailing]), globStyle.separate⟩ : Glob).isMatch
      path = true ↔ ∃ text ∈ path :: afterSlashes path, ∃ more, text = Text.bytes name ++ slash :: more := by
    rw [isMatch_iff (by rw [hcs]; rfl), mem_rests_cons]
    simp only [mem_restsOfToken_leading, mem_rests_literals, nil_mem_rests_trailing, Text.bytes]
    simp
  rw [List.append_nil] at hexact hdeep
  rw [stands_cons (parse?_plain h), stands_cons (parse?_trailing h), stands_cons (parse?_leading h),
    stands_cons (parse?_both h), hexact, hbelow, hdeep, hunder]
  constructor
  · rintro (heq | hmore | ⟨text, hmem, heq⟩ | ⟨text, hmem, hmore⟩ | ⟨_, hnil, -⟩)
    · exact ⟨_, List.mem_cons_self, .inl heq⟩
    · exact ⟨_, List.mem_cons_self, .inr hmore⟩
    · exact ⟨text, hmem, .inl heq⟩
    · exact ⟨text, hmem, .inr hmore⟩
    · cases hnil
  · rintro ⟨text, hmem, heq | hmore⟩
    · exact .inr (.inr (.inl ⟨text, hmem, heq⟩))
    · exact .inr (.inr (.inr (.inl ⟨text, hmem, hmore⟩)))

/-! ### Parts -/

/-- Only a slash has the byte of a slash. -/
theorem slash_notMem_utf8EncodeChar {c : Char} (h : c ≠ '/') : slash ∉ String.utf8EncodeChar c := by
  have hbyte : ∀ n, slash = UInt8.ofNat n → n % 256 = 47 := fun n hn => by
    simpa [slash] using (congrArg UInt8.toNat hn).symm
  have hcode : c.val.toNat ≠ 47 := fun heq => h (Char.ext (UInt32.toNat_inj.mp heq))
  intro hmem
  simp only [String.utf8EncodeChar] at hmem
  split_ifs at hmem with hone htwo hthree <;>
    simp only [List.mem_cons, List.not_mem_nil, or_false] at hmem
  · have := hbyte _ hmem
    omega
  · rcases hmem with hmem | hmem <;> have := hbyte _ hmem <;> omega
  · rcases hmem with hmem | hmem | hmem <;> have := hbyte _ hmem <;> omega
  · rcases hmem with hmem | hmem | hmem | hmem <;> have := hbyte _ hmem <;> omega

theorem slash_notMem_bytes {s : String} (h : '/' ∉ s.toList) : slash ∉ Text.bytes s := by
  rw [Text.bytes, Text.bytesOf, List.mem_flatMap]
  rintro ⟨c, hc, hmem⟩
  refine slash_notMem_utf8EncodeChar ?_ hmem
  rintro rfl
  exact h hc

/-- The parts of a text of parts with slashes between them. -/
theorem bytes_intercalate (run : List String) :
    Text.bytes ("/".intercalate run) = joinSlash (run.map Part.ofText) := by
  have happend : ∀ s t, Text.bytes (s ++ t) = Text.bytes s ++ Text.bytes t := fun s t => by
    rw [Text.bytes, String.toList_append, Text.bytesOf_append]
    rfl
  have hslash : Text.bytes "/" = [slash] := by decide
  induction run with
  | nil => rfl
  | cons part rest ih =>
    cases rest with
    | nil => simp [joinSlash, Part.ofText]
    | cons next rest =>
      have hne : (next :: rest).map Part.ofText ≠ [] := List.cons_ne_nil _ _
      rw [String.intercalate_cons_cons, happend, happend, hslash, ih, List.map_cons (a := part),
        joinSlash_cons _ hne, List.append_assoc]
      rfl

/-- The bytes of some parts with a slash behind each of them. -/
def closed (parts : List Part) : List UInt8 := parts.flatMap fun part => part.bytes ++ [slash]

theorem closed_cons (part : Part) (rest : List Part) :
    closed (part :: rest) = part.bytes ++ slash :: closed rest := by
  simp [closed]

theorem closed_eq {parts : List Part} (hne : parts ≠ []) :
    closed parts = joinSlash parts ++ [slash] := by
  induction parts with
  | nil => exact absurd rfl hne
  | cons part rest ih =>
    by_cases hrest : rest = []
    · subst hrest
      simp [closed, joinSlash]
    · rw [closed_cons, ih hrest, joinSlash_cons _ hrest, List.append_assoc, List.cons_append]

theorem eq_of_append_slash {front front' rest rest' : List UInt8} (h : slash ∉ front)
    (h' : slash ∉ front') (heq : front ++ slash :: rest = front' ++ slash :: rest') :
    front = front' ∧ rest = rest' := by
  have htake : ∀ (front rest : List UInt8), slash ∉ front →
      (front ++ slash :: rest).takeWhile (· != slash) = front := fun front rest h => by
    rw [List.takeWhile_append_of_pos fun b hb => by simpa using fun hslash : b = slash => h (hslash ▸ hb)]
    simp
  have hfront : front = front' := by
    rw [← htake front rest h, heq, htake front' rest' h']
  subst hfront
  exact ⟨rfl, (List.cons.inj (List.append_cancel_left heq)).2⟩

/-- Parts can be compared one by one in their closed bytes. -/
theorem prefix_closed_iff {run parts : List Part} (hrun : ∀ part ∈ run, slash ∉ part.bytes)
    (hparts : ∀ part ∈ parts, slash ∉ part.bytes) : closed run <+: closed parts ↔ run <+: parts := by
  induction run generalizing parts with
  | nil => simp [closed]
  | cons first run ih =>
    cases parts with
    | nil => simp [closed]
    | cons part parts =>
      obtain ⟨hfirst, hrun⟩ := List.forall_mem_cons.mp hrun
      obtain ⟨hpart, hparts⟩ := List.forall_mem_cons.mp hparts
      rw [closed_cons, closed_cons, List.cons_prefix_cons, ← ih hrun hparts]
      constructor
      · rintro ⟨more, hmore⟩
        rw [List.append_assoc, List.cons_append] at hmore
        obtain ⟨hbytes, hmore⟩ := eq_of_append_slash hfirst hpart hmore
        exact ⟨congrArg Part.mk hbytes, more, hmore⟩
      · rintro ⟨rfl, more, hmore⟩
        exact ⟨more, by rw [List.append_assoc, List.cons_append, hmore]⟩

/-! ### Runs of parts -/

theorem afterSlashes_of_notMem {bs : List UInt8} (h : slash ∉ bs) : afterSlashes bs = [] := by
  induction bs with
  | nil => rfl
  | cons b bs ih =>
    obtain ⟨hb, hbs⟩ : slash ≠ b ∧ slash ∉ bs := by simpa using h
    rw [afterSlashes, if_neg hb.symm, ih hbs]

theorem afterSlashes_append {bs : List UInt8} (h : slash ∉ bs) (rest : List UInt8) :
    afterSlashes (bs ++ slash :: rest) = rest :: afterSlashes rest := by
  induction bs with
  | nil => rw [List.nil_append, afterSlashes, if_pos rfl]
  | cons b bs ih =>
    obtain ⟨hb, hbs⟩ : slash ≠ b ∧ slash ∉ bs := by simpa using h
    rw [List.cons_append, afterSlashes, if_neg hb.symm, ih hbs]

/-- The texts of a path from its start and from behind its slashes are those of its last parts. -/
theorem mem_texts_iff {parts : List Part} (hne : parts ≠ []) (h : ∀ part ∈ parts, slash ∉ part.bytes)
    {text : List UInt8} : text ∈ joinSlash parts :: afterSlashes (joinSlash parts) ↔
      ∃ last, last ≠ [] ∧ last <:+ parts ∧ text = joinSlash last := by
  induction parts with
  | nil => exact absurd rfl hne
  | cons part rest ih =>
    obtain ⟨hpart, hrest⟩ := List.forall_mem_cons.mp h
    have hcons : ∀ last, last ≠ [] ∧ last <:+ part :: rest ∧ text = joinSlash last ↔
        last = part :: rest ∧ text = joinSlash (part :: rest) ∨
          last ≠ [] ∧ last <:+ rest ∧ text = joinSlash last := by
      intro last
      rw [List.suffix_cons_iff]
      constructor
      · rintro ⟨hne, rfl | hlast, htext⟩
        · exact .inl ⟨rfl, htext⟩
        · exact .inr ⟨hne, hlast, htext⟩
      · rintro (⟨rfl, htext⟩ | ⟨hne, hlast, htext⟩)
        · exact ⟨List.cons_ne_nil _ _, .inl rfl, htext⟩
        · exact ⟨hne, .inr hlast, htext⟩
    simp only [hcons, exists_or, exists_eq_left, List.mem_cons]
    refine or_congr_right ?_
    by_cases hnil : rest = []
    · subst hnil
      rw [joinSlash, afterSlashes_of_notMem hpart]
      simp
    · rw [joinSlash_cons _ hnil, afterSlashes_append hpart]
      exact ih hnil hrest

/-- In bytes a name runs along a path if its parts are a run of the parts of the path. -/
theorem runsAlong_iff {run parts : List Part} (hrunNe : run ≠ []) (hne : parts ≠ [])
    (hrun : ∀ part ∈ run, slash ∉ part.bytes) (hparts : ∀ part ∈ parts, slash ∉ part.bytes) :
    RunsAlong (joinSlash run) (joinSlash parts) ↔ run <:+: parts := by
  have halong : ∀ last, last ≠ [] → last <:+ parts →
      ((joinSlash last = joinSlash run ∨ ∃ more, joinSlash last = joinSlash run ++ slash :: more) ↔
        run <+: last) := by
    intro last hlastNe hlast
    rw [← prefix_closed_iff hrun fun part hmem => hparts part (hlast.subset hmem), closed_eq hrunNe,
      closed_eq hlastNe, List.prefix_concat_iff]
    refine or_congr ?_ ?_
    · rw [List.append_left_inj, eq_comm]
    · simp [List.IsPrefix, eq_comm]
  rw [RunsAlong, List.infix_iff_prefix_suffix]
  constructor
  · rintro ⟨text, hmem, htext⟩
    obtain ⟨last, hlastNe, hlast, rfl⟩ := (mem_texts_iff hne hparts).mp hmem
    exact ⟨last, (halong last hlastNe hlast).mp htext, hlast⟩
  · rintro ⟨last, hrunLast, hlast⟩
    have hlastNe : last ≠ [] := by
      rintro rfl
      exact hrunNe (List.prefix_nil.mp hrunLast)
    exact ⟨_, (mem_texts_iff hne hparts).mpr ⟨last, hlastNe, hlast, rfl⟩,
      (halong last hlastNe hlast).mpr hrunLast⟩

/-! ### Names to pass over -/

/-- A part of a name that stands for itself. -/
structure IsLiteral (part : String) : Prop where
  nonempty : part ≠ ""
  noSlash : '/' ∉ part.toList
  plain : ∀ c ∈ part.toList, IsPlain c

-- the characters are those of the part: deciding it for every character would take too long
instance (part : String) : Decidable (IsLiteral part) :=
  have : Decidable (∀ c ∈ part.toList, IsPlain c) := List.decidableBAll IsPlain part.toList
  decidable_of_iff (part ≠ "" ∧ '/' ∉ part.toList ∧ ∀ c ∈ part.toList, IsPlain c)
    ⟨fun ⟨hne, hslash, hplain⟩ => ⟨hne, hslash, hplain⟩, fun h => ⟨h.nonempty, h.noSlash, h.plain⟩⟩

/-- Nothing is left of a name that is blank or has nothing but slashes between its blanks. -/
theorem trimName_eq_empty_iff (s : String) :
    trimName s = "" ↔ ∀ c ∈ Text.trimBlank s.toList, c = '/' := by
  have hempty : ∀ cs : List Char, String.ofList cs = "" ↔ cs = [] := fun cs => by simp
  rw [trimName, hempty, List.reverse_eq_nil_iff, List.dropWhile_eq_nil_iff]
  constructor
  · intro h
    have hnil : (Text.trimBlank s.toList).dropWhile (· == '/') = [] := by
      by_contra hne
      have hhead := List.head_dropWhile_not (· == '/') hne
      rw [h _ (List.mem_reverse.mpr (List.head_mem hne))] at hhead
      cases hhead
    simpa using List.dropWhile_eq_nil_iff.mp hnil
  · intro h
    have hnil : (Text.trimBlank s.toList).dropWhile (· == '/') = [] :=
      List.dropWhile_eq_nil_iff.mpr fun c hc => by simpa using h c hc
    simp [hnil]

variable {entry : String} {run : List String}

theorem toList_intercalate (part next : String) (rest : List String) :
    ("/".intercalate (part :: next :: rest)).toList =
      part.toList ++ '/' :: ("/".intercalate (next :: rest)).toList := by
  simp [String.intercalate_cons_cons]

theorem plain_intercalate (hrun : ∀ part ∈ run, IsLiteral part) :
    ∀ c ∈ ("/".intercalate run).toList, IsPlain c := by
  induction run with
  | nil => simp
  | cons part rest ih =>
    obtain ⟨hpart, hrest⟩ := List.forall_mem_cons.mp hrun
    cases rest with
    | nil => simpa using hpart.plain
    | cons next rest =>
      rw [toList_intercalate]
      intro c hc
      rcases List.mem_append.mp hc with hc | hc
      · exact hpart.plain c hc
      · rcases List.mem_cons.mp hc with rfl | hc
        · decide
        · exact ih hrest c hc

theorem intercalate_eq_empty_iff (hrun : ∀ part ∈ run, IsLiteral part) :
    "/".intercalate run = "" ↔ run = [] := by
  cases run with
  | nil => simp
  | cons part rest =>
    have hpart := (hrun part List.mem_cons_self).nonempty
    cases rest with
    | nil => simpa using hpart
    | cons next rest =>
      refine iff_of_false (fun hempty => ?_) (List.cons_ne_nil _ _)
      have hchars := toList_intercalate part next rest
      rw [hempty] at hchars
      simp at hchars

/-- The texts of a plain name are globs that a set can hold. -/
theorem valid_expand (hname : trimName entry = "/".intercalate run)
    (hrun : ∀ part ∈ run, IsLiteral part) : Valid (expand entry) := by
  have hplain := plain_intercalate hrun
  have hnone : ∀ n ∈ depths globStyle.separate [], n ≤ 4 := by simp [depths]
  have hleading : ∀ n ∈ depths globStyle.separate [.leading], n ≤ 4 := by
    simp [depths, depthsOfToken]
  have htrailing : ∀ n ∈ depths globStyle.separate [.trailing], n ≤ 4 := by
    simp [depths, depthsOfToken]
  have hshallow := isShallow_of_literals globStyle.separate ("/".intercalate run).toList hnone hnone
  have hshallow' := isShallow_of_literals globStyle.separate ("/".intercalate run).toList hleading hnone
  rw [List.append_nil] at hshallow hshallow'
  rw [expand, hname]
  split_ifs
  · exact fun text htext => by cases htext
  · intro text htext
    simp only [List.mem_cons, List.not_mem_nil, or_false] at htext
    rcases htext with rfl | rfl | rfl | rfl
    · exact ⟨_, parse?_plain hplain, hshallow⟩
    · exact ⟨_, parse?_trailing hplain, isShallow_of_literals _ _ hnone htrailing⟩
    · exact ⟨_, parse?_leading hplain, hshallow'⟩
    · exact ⟨_, parse?_both hplain, isShallow_of_literals _ _ hleading htrailing⟩

/-- **The globs of a plain name stand for the paths in which its parts occur as a run.** -/
theorem stands_expand_iff {parts : List Part} (hname : trimName entry = "/".intercalate run)
    (hrun : ∀ part ∈ run, IsLiteral part) (hne : parts ≠ [])
    (hparts : ∀ part ∈ parts, slash ∉ part.bytes) :
    Stands (expand entry) (joinSlash parts) ↔ run ≠ [] ∧ run.map Part.ofText <:+: parts := by
  by_cases hrunNe : run = []
  · subst hrunNe
    have hexpand : expand entry = [] := by
      rw [expand, hname]
      rfl
    simp [hexpand, Stands]
  · have hjoin : "/".intercalate run ≠ "" := fun hjoin =>
      hrunNe ((intercalate_eq_empty_iff hrun).mp hjoin)
    have hexpand : expand entry = ["/".intercalate run, "/".intercalate run ++ "/**",
        "**/" ++ "/".intercalate run, "**/" ++ "/".intercalate run ++ "/**"] := by
      simp [expand, hname, hjoin]
    have hslash : ∀ part ∈ run.map Part.ofText, slash ∉ part.bytes :=
      List.forall_mem_map.mpr fun part hpart => slash_notMem_bytes (hrun part hpart).noSlash
    rw [hexpand, stands_iff_runsAlong hjoin (plain_intercalate hrun), bytes_intercalate,
      runsAlong_iff (by simpa using hrunNe) hne hslash hparts, and_iff_right hrunNe]

end Manifest.Proofs.Scanning.LiteralGlobs
