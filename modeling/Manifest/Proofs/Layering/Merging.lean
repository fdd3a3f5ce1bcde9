import Mathlib.Data.List.Induction
import Mathlib.Data.List.Sort
import Manifest.Proofs.Layering

/-! # Layers on top of each other

Putting layers on top of each other is associative (`merge_assoc`), so a row of layers gives the same
settings however it is put together in pairs (`Grouping.value_eq`). Each setting is that of the last layer
where it is not the built-in one (`get_stack`), and the names to pass over are those of all layers
(`mem_ignorePaths_stack`). Main statement: `merging_accumulates`. -/

namespace Manifest.Proofs.Layering.Merging

open Manifest.Config Manifest.Proofs.Layering

/-! ### Sets of names -/

/-- A list of names in order, each once, that holds those with a property. -/
structure IsSetOf (names : List String) (P : String → Prop) : Prop where
  increasing : names.Pairwise (· < ·)
  mem_iff : ∀ name, name ∈ names ↔ P name

theorem IsSetOf.unique {names names' : List String} {P : String → Prop} (h : IsSetOf names P)
    (h' : IsSetOf names' P) : names = names' :=
  h.increasing.eq_of_mem_iff h'.increasing fun name => (h.mem_iff name).trans (h'.mem_iff name).symm

theorem isSetOf_unionNames (a b : List String) : IsSetOf (unionNames a b) fun name => name ∈ a ∨ name ∈ b :=
  ⟨pairwise_unionNames a b, fun _ => mem_unionNames⟩

theorem unionNames_assoc (a b c : List String) :
    unionNames (unionNames a b) c = unionNames a (unionNames b c) := by
  refine (isSetOf_unionNames (unionNames a b) c).unique
    ⟨pairwise_unionNames _ _, fun name => ?_⟩
  simp only [mem_unionNames, or_assoc]

/-! ### Merging -/

theorem prefer_assoc {α : Type} [DecidableEq α] (builtIn a b c : α) :
    prefer builtIn (prefer builtIn a b) c = prefer builtIn a (prefer builtIn b c) := by
  by_cases hc : c = builtIn
  · simp [prefer, hc]
  · simp [prefer, hc]

/-- **Layers can be put on top of each other in any order of pairs.** -/
theorem merge_assoc (a b c : Config) : (a.merge b).merge c = a.merge (b.merge c) := by
  refine Config.ext ?_ ?_ ?_ ?_ ?_ ?_ ?_ ?_ ?_
  · exact prefer_assoc _ _ _ _
  · change (c.app? <|> (b.app? <|> a.app?)) = ((c.app? <|> b.app?) <|> a.app?)
    cases c.app? <;> rfl
  · exact (Bool.or_assoc ..).symm
  · exact prefer_assoc _ _ _ _
  · exact prefer_assoc _ _ _ _
  · exact (Bool.or_assoc ..).symm
  · exact unionNames_assoc _ _ _
  · exact unionNames_assoc _ _ _
  · exact prefer_assoc _ _ _ _

/-- A way to put a row of layers together in pairs. -/
inductive Grouping
  | layer (c : Config)
  | pair (lower upper : Grouping)

namespace Grouping

/-- The layers, from the lowest to the highest. -/
def layers : Grouping → List Config
  | layer c => [c]
  | pair lower upper => lower.layers ++ upper.layers

/-- What they come to. -/
def value : Grouping → Config
  | layer c => c
  | pair lower upper => lower.value.merge upper.value

theorem merge_stack (a b : Config) (uppers : List Config) :
    a.merge (b.stack uppers) = (a.merge b).stack uppers := by
  induction uppers generalizing b with
  | nil => rfl
  | cons c uppers ih =>
    change a.merge ((b.merge c).stack uppers) = ((a.merge b).merge c).stack uppers
    rw [ih, merge_assoc]

theorem exists_layers_eq (g : Grouping) : ∃ base uppers, g.layers = base :: uppers ∧
    g.value = base.stack uppers := by
  induction g with
  | layer c => exact ⟨c, [], rfl, rfl⟩
  | pair lower upper ihLower ihUpper =>
    obtain ⟨base, uppers, hlayers, hvalue⟩ := ihLower
    obtain ⟨base', uppers', hlayers', hvalue'⟩ := ihUpper
    refine ⟨base, uppers ++ base' :: uppers', ?_, ?_⟩
    · rw [layers, hlayers, hlayers', List.cons_append]
    · rw [value, hvalue, hvalue', merge_stack, stack, stack, stack, List.foldl_append]
      rfl

/-- **What a row of layers comes to does not depend on how it is put together.** -/
theorem value_eq {g : Grouping} {base : Config} {uppers : List Config}
    (h : g.layers = base :: uppers) : g.value = base.stack uppers := by
  obtain ⟨base', uppers', hlayers, hvalue⟩ := g.exists_layers_eq
  obtain ⟨rfl, rfl⟩ := List.cons.inj (h.symm.trans hlayers)
  exact hvalue

end Grouping

/-! ### What a row of layers comes to -/

section

variable {α : Type} [DecidableEq α]

/-- The value of the last layer where it is not the built-in one, or else that of the lowest layer. -/
def lastOther (get : Config → α) (base : Config) (uppers : List Config) : α :=
  (((base :: uppers).reverse.map get).find? (· ≠ get builtIn)).getD (get base)

theorem stack_concat (base : Config) (uppers : List Config) (c : Config) :
    base.stack (uppers ++ [c]) = (base.stack uppers).merge c := by
  rw [stack, List.foldl_append]
  rfl

theorem get_stack {get : Config → α} (base : Config) (uppers : List Config)
    (hget : ∀ a b : Config, get (a.merge b) = prefer (get builtIn) (get a) (get b)) :
    get (base.stack uppers) = lastOther get base uppers := by
  induction uppers using List.reverseRecOn with
  | nil =>
    by_cases hbase : get base = get builtIn <;> simp [lastOther, stack, hbase]
  | append_singleton uppers c ih =>
    rw [stack_concat, hget, ih]
    by_cases hc : get c = get builtIn <;> simp [lastOther, prefer, hc]

theorem app?_stack (base : Config) (uppers : List Config) :
    (base.stack uppers).app? = (base :: uppers).reverse.findSome? Config.app? := by
  induction uppers using List.reverseRecOn with
  | nil =>
    change base.app? = _
    cases happ : base.app? <;> simp [happ]
  | append_singleton uppers c ih =>
    have hmerge : ((base.stack uppers).merge c).app? = (c.app? <|> (base.stack uppers).app?) := rfl
    rw [stack_concat, hmerge, ih]
    cases happ : c.app? <;> simp [happ]

theorem any_stack {get : Config → Bool} (base : Config) (uppers : List Config)
    (hget : ∀ a b : Config, get (a.merge b) = (get b || get a)) :
    get (base.stack uppers) = (base :: uppers).any get := by
  induction uppers using List.reverseRecOn with
  | nil => simp [stack]
  | append_singleton uppers c ih =>
    rw [stack_concat, hget, ih, ← List.cons_append, List.any_append]
    simp [Bool.or_comm]

theorem mem_stack {get : Config → List String} (base : Config) (uppers : List Config)
    (hget : ∀ a b : Config, get (a.merge b) = unionNames (get a) (get b)) (name : String) :
    name ∈ get (base.stack uppers) ↔ ∃ c ∈ base :: uppers, name ∈ get c := by
  induction uppers using List.reverseRecOn with
  | nil => simp [stack]
  | append_singleton uppers c ih =>
    rw [stack_concat, hget, mem_unionNames, ih, ← List.cons_append]
    simp only [List.mem_append, List.mem_singleton, or_and_right, exists_or, exists_eq_left]

theorem isSetOf_stack {get : Config → List String} (base : Config) {uppers : List Config}
    (hget : ∀ a b : Config, get (a.merge b) = unionNames (get a) (get b)) (hne : uppers ≠ []) :
    IsSetOf (get (base.stack uppers)) fun name => ∃ c ∈ base :: uppers, name ∈ get c := by
  refine ⟨?_, mem_stack base uppers hget⟩
  rw [← List.dropLast_concat_getLast hne, stack_concat, hget]
  exact pairwise_unionNames _ _

end

/-- What a row of layers comes to, setting by setting. -/
structure IsStackOf (base : Config) (uppers : List Config) (c : Config) : Prop where
  format : c.format = lastOther Config.format base uppers
  logLevel : c.logLevel = lastOther Config.logLevel base uppers
  patterns : c.patterns = lastOther Config.patterns base uppers
  debounce : c.debounce = lastOther Config.debounce base uppers
  app : c.app? = (base :: uppers).reverse.findSome? Config.app?
  includeSource : c.includeSource = (base :: uppers).any Config.includeSource
  showHidden : c.showHidden = (base :: uppers).any Config.showHidden
  ignorePaths : uppers ≠ [] →
    IsSetOf c.ignorePaths fun name => ∃ l ∈ base :: uppers, name ∈ l.ignorePaths
  ignoreGlobs : uppers ≠ [] →
    IsSetOf c.ignoreGlobs fun name => ∃ l ∈ base :: uppers, name ∈ l.ignoreGlobs

theorem isStackOf_stack (base : Config) (uppers : List Config) :
    IsStackOf base uppers (base.stack uppers) where
  format := get_stack base uppers fun _ _ => rfl
  logLevel := get_stack base uppers fun _ _ => rfl
  patterns := get_stack base uppers fun _ _ => rfl
  debounce := get_stack base uppers fun _ _ => rfl
  app := app?_stack base uppers
  includeSource := any_stack base uppers fun _ _ => rfl
  showHidden := any_stack base uppers fun _ _ => rfl
  ignorePaths := isSetOf_stack base fun _ _ => rfl
  ignoreGlobs := isSetOf_stack base fun _ _ => rfl

/-! ### Files -/

/-- The names that the layers of a file pass over, with the built-in ones, are the built-in ones and those
that the file lists. -/
theorem mem_layersOf_iff {t : Toml} {files : List Config} {get : Config → List String} {key : String}
    (h : LayersOf t files)
    (hget : ∀ c, ofToml? t = some c → get c =
      (valueAt? tableKeys "ignore" t).elim (get builtIn) fun _ => ignoredIn key t) (name : String) :
    (name ∈ get builtIn ∨ ∃ c ∈ files, name ∈ get c) ↔ name ∈ get builtIn ∨ name ∈ ignoredIn key t := by
  cases h with
  | missing h =>
    subst h
    have hnone : ignoredIn key (.table .header []) = [] := rfl
    simp [hnone]
  | @there c h =>
    have hc := hget c h
    cases hignore : valueAt? tableKeys "ignore" t with
    | none =>
      have hnone : ignoredIn key t = [] := by
        rw [ignoredIn, hignore]
        rfl
      rw [hignore, Option.elim_none] at hc
      simp [hc, hnone]
    | some ignore =>
      rw [hignore, Option.elim_some] at hc
      simp [hc]

/-- A configuration passes over what is built in and what either of two files lists. -/
structure Gathers (c : Config) (user workspace : Toml) : Prop where
  ignorePaths : IsSetOf c.ignorePaths fun name => name ∈ builtIn.ignorePaths ∨
    name ∈ ignoredIn "paths" user ∨ name ∈ ignoredIn "paths" workspace
  ignoreGlobs : IsSetOf c.ignoreGlobs fun name =>
    name ∈ ignoredIn "globs" user ∨ name ∈ ignoredIn "globs" workspace

theorem isSetOf_files (get : Config → List String) {user workspace : Toml} {lower upper : List Config}
    {key : String} (hmerge : ∀ a b : Config, get (a.merge b) = unionNames (get a) (get b))
    (hget : ∀ t c, ofToml? t = some c → get c =
      (valueAt? tableKeys "ignore" t).elim (get builtIn) fun _ => ignoredIn key t)
    (huser : LayersOf user lower) (hworkspace : LayersOf workspace upper) (hne : lower ++ upper ≠ []) :
    IsSetOf (get (builtIn.stack (lower ++ upper))) fun name => name ∈ get builtIn ∨
      name ∈ ignoredIn key user ∨ name ∈ ignoredIn key workspace := by
  have hset := isSetOf_stack builtIn hmerge hne
  refine ⟨hset.increasing, fun name => ?_⟩
  have hlower := mem_layersOf_iff huser (hget user) name
  have hupper := mem_layersOf_iff hworkspace (hget workspace) name
  rw [hset.mem_iff]
  simp only [List.mem_cons, List.mem_append, or_and_right, exists_or, exists_eq_left]
  rw [or_or_distrib_left, hlower, hupper, ← or_or_distrib_left]

theorem gathers_stack {user workspace : Toml} {lower upper : List Config}
    (huser : LayersOf user lower) (hworkspace : LayersOf workspace upper) (hne : lower ++ upper ≠ []) :
    Gathers (builtIn.stack (lower ++ upper)) user workspace where
  ignorePaths := isSetOf_files Config.ignorePaths (fun _ _ => rfl)
    (fun _ _ h => (settings_of_ofToml? h).2.1) huser hworkspace hne
  ignoreGlobs := by
    have hset := isSetOf_files Config.ignoreGlobs (fun _ _ => rfl)
      (fun _ _ h => (settings_of_ofToml? h).2.2) huser hworkspace hne
    exact ⟨hset.increasing, fun name => (hset.mem_iff name).trans (or_iff_right List.not_mem_nil)⟩

/-! ### The environment -/

/-- The environment replaces the format and the log level where it sets them, and the application if the
name that it gives is not blank. -/
structure IsOverride (old new : Config) (o : Overrides) : Prop where
  format : new.format = o.format?.getD old.format
  logLevel : new.logLevel = o.logLevel?.getD old.logLevel
  app_of_name : ∀ name, o.app? = some name → (∃ c ∈ name.toList, Text.isBlank c = false) →
    new.app? = some name
  app_of_blank : (∀ name, o.app? = some name → ∀ c ∈ name.toList, Text.isBlank c = true) →
    new.app? = old.app?
  others : new = { old with format := new.format, app? := new.app?, logLevel := new.logLevel }

theorem isOverride_override (c : Config) (o : Overrides) : IsOverride c (c.override o) o where
  format := rfl
  logLevel := rfl
  app_of_name := by
    rintro name hname ⟨ch, hch, hink⟩
    have hblank : Text.allBlank name = false := List.all_eq_false.mpr ⟨ch, hch, by simp [hink]⟩
    simp [override, hname, hblank]
  app_of_blank := by
    intro hblank
    have hnone : o.app?.filter (fun name => !Text.allBlank name) = none := by
      refine Option.filter_eq_none_iff.mpr fun name hname => ?_
      have hall : Text.allBlank name = true := List.all_eq_true.mpr (hblank name hname)
      simp [hall]
    simp [override, hnone]
  others := rfl

/-- **Layers accumulate.** Putting layers on top of each other is associative, so a row of layers comes to
the same however it is put together. Of the settings with one value it has that of the last layer where it
is not the built-in one, or else that of the lowest layer; of the applications that of the last layer that
names one; flags that one layer raises are up; and the names to pass over are those of all layers, in order
and each once. With a user's file and a file of the workspace that are valid or missing, but not both
missing, the configuration is loaded, and it passes over what is built in and what either file lists. Then
the environment replaces the format, the log level and the application, and nothing else. -/
theorem merging_accumulates :
    (∀ a b c : Config, (a.merge b).merge c = a.merge (b.merge c)) ∧
    (∀ (g : Grouping) (base : Config) (uppers : List Config), g.layers = base :: uppers →
      g.value = base.stack uppers ∧ IsStackOf base uppers g.value) ∧
    ∀ (d : Disk) (env : Environment) (user workspace : Toml), UserSays d env user →
      Says d (workspaceFile d) workspace →
      (∃ path ∈ userFile? env, d.pathExists path = true) ∨ d.pathExists (workspaceFile d) = true →
      ∃ layered loaded, Config.layered d env = .ok layered ∧ Config.load d env none = .ok loaded ∧
        Gathers loaded user workspace ∧ IsOverride layered loaded env.overrides := by
  refine ⟨merge_assoc, fun g base uppers hlayers => ?_, ?_⟩
  · rw [Grouping.value_eq hlayers]
    exact ⟨rfl, isStackOf_stack base uppers⟩
  · intro d env user workspace huser hworkspace hthere
    obtain ⟨lower, hlower, hlayers, hlowerThere⟩ := exists_userLayer huser
    obtain ⟨upper, hupper, hlayers', hupperThere⟩ := exists_layer hworkspace
    have hlayered : Config.layered d env = .ok (builtIn.stack (lower ++ upper)) := by
      simp only [Config.layered, hlower, hupper]
    have hne : lower ++ upper ≠ [] := by
      intro hnil
      obtain ⟨hlowerNil, hupperNil⟩ := List.append_eq_nil_iff.mp hnil
      exact hthere.elim (fun h => hlowerThere h hlowerNil) fun h => hupperThere h hupperNil
    have hgathers := gathers_stack hlayers hlayers' hne
    refine ⟨_, (builtIn.stack (lower ++ upper)).override env.overrides, hlayered, ?_, ?_,
      isOverride_override _ _⟩
    · simp only [Config.load, hlayered, Except.map]
    · exact ⟨hgathers.ignorePaths, hgathers.ignoreGlobs⟩

/-! ### Two files and an environment -/

/-- The settings of a user, with globs only to pass over. -/
def globsText : String := "[ignore]\nglobs = [\"*.bak\"]\n"

/-- The settings of a workspace, with names only to pass over. -/
def pathsText : String := "[ignore]\npaths = [\"generated/\", \".git/\"]\n"

/-- The names and the globs that a file lists. -/
def ignoredLists (t : Toml) : List String × List String := (ignoredIn "paths" t, ignoredIn "globs" t)

/-- An environment that says where the settings of the user are, names a format, and has a blank for the
name of an application. -/
def overridingEnv : Environment :=
  ⟨[("XDG_CONFIG_HOME", "/u"), ("APPMANIFEST_FORMAT", "json"), ("APPMANIFEST_APP", " ")]⟩

/-- Neither file takes anything from what is built in or from what the other one lists. -/
theorem merging_accumulates_halves : ∃ user workspace layered loaded,
    UserSays (settingsDisk globsText pathsText) overridingEnv user ∧
    Says (settingsDisk globsText pathsText) (workspaceFile (settingsDisk globsText pathsText))
      workspace ∧
    Config.layered (settingsDisk globsText pathsText) overridingEnv = .ok layered ∧
    Config.load (settingsDisk globsText pathsText) overridingEnv none = .ok loaded ∧
    loaded.ignorePaths = [".git/", "generated/", "node_modules/", "target/"] ∧
    loaded.ignoreGlobs = ["*.bak"] ∧ loaded.format = "json" ∧ loaded.app? = layered.app? := by
  obtain ⟨user, _, huser, hvalidUser, hlists⟩ :=
    exists_of_parsed globsText ignoredLists (x := ([], ["*.bak"])) (by decide +kernel)
  obtain ⟨workspace, _, hworkspace, hvalidWorkspace, hlists'⟩ :=
    exists_of_parsed pathsText ignoredLists (x := (["generated/", ".git/"], [])) (by decide +kernel)
  obtain ⟨hpaths, hglobs⟩ := Prod.mk.inj hlists
  obtain ⟨hpaths', hglobs'⟩ := Prod.mk.inj hlists'
  have hsays : UserSays (settingsDisk globsText pathsText) overridingEnv user := by
    have hfile : userFile? overridingEnv = some (.ofText "/u/appmanifest/config.toml") := by
      decide +kernel
    rw [UserSays, hfile]
    exact says_of_find (find_userFile _ _) huser hvalidUser
  have hfind := find_workspaceFile globsText pathsText
  have hsays' := says_of_find hfind hworkspace hvalidWorkspace
  have hthere : (settingsDisk globsText pathsText).pathExists
      (workspaceFile (settingsDisk globsText pathsText)) = true := by
    rw [Disk.pathExists, hfind]
  obtain ⟨layered, loaded, hlayered, hloaded, hgathers, hoverride⟩ :=
    merging_accumulates.2.2 _ _ user workspace hsays hsays' (.inr hthere)
  have henv : overridingEnv.overrides = ⟨some "json", some " ", none⟩ := by decide +kernel
  rw [henv] at hoverride
  refine ⟨user, workspace, layered, loaded, hsays, hsays', hlayered, hloaded, ?_, ?_,
    hoverride.format, ?_⟩
  · refine hgathers.ignorePaths.unique ⟨by decide +kernel, fun name => ?_⟩
    have hbuiltIn : builtIn.ignorePaths = ["target/", "node_modules/", ".git/"] := rfl
    simp only [hpaths, hpaths', hbuiltIn, List.mem_cons, List.not_mem_nil, or_false]
    grind
  · refine hgathers.ignoreGlobs.unique ⟨by decide, fun name => ?_⟩
    simp [hglobs, hglobs']
  · refine hoverride.app_of_blank fun name hname => ?_
    obtain rfl : " " = name := Option.some.inj hname
    have hblank : Text.allBlank " " = true := by decide +kernel
    exact List.all_eq_true.mp hblank

end Manifest.Proofs.Layering.Merging
