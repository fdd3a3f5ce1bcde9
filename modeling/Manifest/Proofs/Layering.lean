import Mathlib.Data.List.Basic
import Manifest.Config.Load
import Manifest.Proofs.Disks.Writing

/-! # Which layer a setting comes from

A setting is what the file of the workspace sets, or else what the user's file sets, or else the
built-in value (`Slot.layered`): this is the rule for layers. Layers are put on top of each other by
value, and a value that equals the built-in one counts as not set. So the rule holds for a setting
exactly if the workspace does not set it back to the built-in value over another one of the user
(`Slot.Reverts`); where it does, the value of the user stays. Main statement: `load_setting`. -/

namespace Manifest.Proofs.Layering

open Manifest.Config Manifest.Toml Manifest.Proofs.Disks.Following Manifest.Proofs.Disks.Writing

/-! ### What a file sets -/

/-- The value of one of some keys in a value. An array gives the values by position. -/
def valueAt? (keys : List String) (key : String) : Toml → Option Toml
  | .table _ entries => valueOf? entries key
  | t => t.asItems?.bind (·[keys.idxOf key]?)

/-- The tables of a file. -/
def tableKeys : List String := ["defaults", "scan", "ignore", "watch"]

/-- The keys of the table `defaults`. -/
def defaultsKeys : List String := ["format", "app", "include_source", "log_level"]

/-- The keys of the table `scan`. -/
def scanKeys : List String := ["patterns", "show_hidden"]

/-- The keys of the table `ignore`. -/
def ignoreKeys : List String := ["paths", "globs"]

/-- The keys of the table `watch`. -/
def watchKeys : List String := ["debounce_ms"]

/-- A setting: where it stands in a file, and what it is in a configuration. -/
structure Slot (α : Type) where
  table : String
  keys : List String
  key : String
  decode : Toml → Option α
  get : Config → α

namespace Slot

variable {α : Type} (s : Slot α)

/-- What a file sets. -/
def explicit? (t : Toml) : Option α :=
  ((valueAt? tableKeys s.table t).bind (valueAt? s.keys s.key)).bind s.decode

/-- The value of the highest layer that sets one. -/
def layered (user workspace : Toml) : α :=
  (s.explicit? workspace <|> s.explicit? user).getD (s.get builtIn)

/-- The workspace sets the built-in value over another one of the user. -/
def Reverts (user workspace : Toml) : Prop :=
  s.explicit? workspace = some (s.get builtIn) ∧
    ∃ x, s.explicit? user = some x ∧ x ≠ s.get builtIn

end Slot

/-- The settings that have one value, and not a set of names to which each layer adds. -/
inductive Setting
  | format
  | app
  | includeSource
  | logLevel
  | patterns
  | showHidden
  | debounce

namespace Setting

/-- What the values of a setting are. -/
def Value : Setting → Type
  | format => String
  | app => Option String
  | includeSource => Bool
  | logLevel => String
  | patterns => List String
  | showHidden => Bool
  | debounce => Nat

instance : (s : Setting) → DecidableEq s.Value
  | format => inferInstanceAs (DecidableEq String)
  | app => inferInstanceAs (DecidableEq (Option String))
  | includeSource => inferInstanceAs (DecidableEq Bool)
  | logLevel => inferInstanceAs (DecidableEq String)
  | patterns => inferInstanceAs (DecidableEq (List String))
  | showHidden => inferInstanceAs (DecidableEq Bool)
  | debounce => inferInstanceAs (DecidableEq Nat)

/-- Where a setting stands. -/
def slot : (s : Setting) → Slot s.Value
  | format => ⟨"defaults", defaultsKeys, "format", asString?, Config.format⟩
  | app => ⟨"defaults", defaultsKeys, "app", fun t => t.asString?.map some, Config.app?⟩
  | includeSource => ⟨"defaults", defaultsKeys, "include_source", asBool?, Config.includeSource⟩
  | logLevel => ⟨"defaults", defaultsKeys, "log_level", asString?, Config.logLevel⟩
  | patterns => ⟨"scan", scanKeys, "patterns", texts?, Config.patterns⟩
  | showHidden => ⟨"scan", scanKeys, "show_hidden", asBool?, Config.showHidden⟩
  | debounce => ⟨"watch", watchKeys, "debounce_ms", asNat?, Config.debounce⟩

end Setting

/-! ### Reading a file -/

/-- The values of keys are those at each of them. -/
theorem settings?_eq (keys : List String) (hkeys : keys.Nodup) {t : Toml} {values : List (Option Toml)}
    (h : t.settings? keys = some values) : values = keys.map (valueAt? keys · t) := by
  have hitems : ∀ items : List Toml, (keys.zipIdx.map fun p => items[p.2]?) =
      keys.map fun key => items[keys.idxOf key]? := by
    intro items
    refine List.ext_getElem (by simp) fun i hi hi' => ?_
    have hlt : i < keys.length := by simpa using hi'
    simp [hkeys.idxOf_getElem i hlt]
  cases t with
  | table origin entries => exact (Option.some.inj h).symm
  | array items => exact (Option.some.inj h).symm.trans (hitems items)
  | tables items => exact (Option.some.inj h).symm.trans (hitems _)
  | string s => cases h
  | integer n => cases h
  | bool b => cases h
  | other => cases h

theorem settingOr_eq_some {α : Type} {decode : Toml → Option α} {absent x : α} {t? : Option Toml}
    (h : settingOr decode absent t? = some x) : x = (t?.bind decode).getD absent := by
  cases t? with
  | none => exact (Option.some.inj h).symm
  | some t =>
    rw [settingOr] at h
    rw [Option.bind_some, h, Option.getD_some]

theorem withDefaults?_eq_some {c c' : Config} {t : Toml} (h : withDefaults? c t = some c') :
    c' = { c with
      format := ((valueAt? defaultsKeys "format" t).bind asString?).getD builtIn.format
      app? := ((valueAt? defaultsKeys "app" t).bind fun t => t.asString?.map some).getD none
      includeSource := ((valueAt? defaultsKeys "include_source" t).bind asBool?).getD false
      logLevel := ((valueAt? defaultsKeys "log_level" t).bind asString?).getD builtIn.logLevel } := by
  rw [withDefaults?] at h
  split at h
  next format app includeSource logLevel hvalues =>
    have hlist : [format, app, includeSource, logLevel] =
        [valueAt? defaultsKeys "format" t, valueAt? defaultsKeys "app" t,
          valueAt? defaultsKeys "include_source" t, valueAt? defaultsKeys "log_level" t] :=
      settings?_eq defaultsKeys (by decide) hvalues
    cases hlist
    simp only [Option.bind_eq_bind, Option.bind_eq_some_iff] at h
    obtain ⟨v, hv, w, hw, x, hx, y, hy, hc⟩ := h
    rw [← settingOr_eq_some hv, ← settingOr_eq_some hw, ← settingOr_eq_some hx,
      ← settingOr_eq_some hy]
    exact (Option.some.inj hc).symm
  next => cases h

theorem withScan?_eq_some {c c' : Config} {t : Toml} (h : withScan? c t = some c') :
    c' = { c with
      patterns := ((valueAt? scanKeys "patterns" t).bind texts?).getD builtIn.patterns
      showHidden := ((valueAt? scanKeys "show_hidden" t).bind asBool?).getD false } := by
  rw [withScan?] at h
  split at h
  next patterns showHidden hvalues =>
    have hlist : [patterns, showHidden] =
        [valueAt? scanKeys "patterns" t, valueAt? scanKeys "show_hidden" t] :=
      settings?_eq scanKeys (by decide) hvalues
    cases hlist
    simp only [Option.bind_eq_bind, Option.bind_eq_some_iff] at h
    obtain ⟨v, hv, w, hw, hc⟩ := h
    rw [← settingOr_eq_some hv, ← settingOr_eq_some hw]
    exact (Option.some.inj hc).symm
  next => cases h

theorem withWatch?_eq_some {c c' : Config} {t : Toml} (h : withWatch? c t = some c') :
    c' = { c with
      debounce := ((valueAt? watchKeys "debounce_ms" t).bind asNat?).getD builtIn.debounce } := by
  rw [withWatch?] at h
  split at h
  next debounce hvalues =>
    have hlist : [debounce] = [valueAt? watchKeys "debounce_ms" t] :=
      settings?_eq watchKeys (by decide) hvalues
    cases hlist
    simp only [Option.bind_eq_bind, Option.bind_eq_some_iff] at h
    obtain ⟨v, hv, hc⟩ := h
    rw [← settingOr_eq_some hv]
    exact (Option.some.inj hc).symm
  next => cases h

theorem withIgnore?_eq_some {c c' : Config} {t : Toml} (h : withIgnore? c t = some c') :
    c' = { c with
      ignorePaths := ((valueAt? ignoreKeys "paths" t).bind texts?).getD []
      ignoreGlobs := ((valueAt? ignoreKeys "globs" t).bind texts?).getD [] } := by
  rw [withIgnore?] at h
  split at h
  next paths globs hvalues =>
    have hlist : [paths, globs] = [valueAt? ignoreKeys "paths" t, valueAt? ignoreKeys "globs" t] :=
      settings?_eq ignoreKeys (by decide) hvalues
    cases hlist
    simp only [Option.bind_eq_bind, Option.bind_eq_some_iff] at h
    obtain ⟨v, hv, w, hw, hc⟩ := h
    rw [← settingOr_eq_some hv, ← settingOr_eq_some hw]
    exact (Option.some.inj hc).symm
  next => cases h

theorem defaults_eq_some {c : Config} {t? : Option Toml}
    (h : withTable? withDefaults? t? builtIn = some c) :
    c = { builtIn with
      format := ((t?.bind (valueAt? defaultsKeys "format")).bind asString?).getD builtIn.format
      app? := ((t?.bind (valueAt? defaultsKeys "app")).bind fun t => t.asString?.map some).getD none
      includeSource := ((t?.bind (valueAt? defaultsKeys "include_source")).bind asBool?).getD false
      logLevel := ((t?.bind (valueAt? defaultsKeys "log_level")).bind asString?).getD
        builtIn.logLevel } := by
  cases t? with
  | none => exact (Option.some.inj h).symm
  | some t => exact withDefaults?_eq_some h

theorem scan_eq_some {c c' : Config} {t? : Option Toml} (h : withTable? withScan? t? c = some c')
    (hpatterns : c.patterns = builtIn.patterns) (hshow : c.showHidden = false) :
    c' = { c with
      patterns := ((t?.bind (valueAt? scanKeys "patterns")).bind texts?).getD builtIn.patterns
      showHidden := ((t?.bind (valueAt? scanKeys "show_hidden")).bind asBool?).getD false } := by
  cases t? with
  | none =>
    obtain rfl : c = c' := Option.some.inj h
    exact Config.ext rfl rfl rfl rfl hpatterns hshow rfl rfl rfl
  | some t => exact withScan?_eq_some h

/-- A table `ignore` that is there ignores only what it lists, one that is not ignores what is built in. -/
theorem ignore_eq_some {c c' : Config} {t? : Option Toml}
    (h : withTable? withIgnore? t? c = some c') :
    c' = { c with
      ignorePaths := t?.elim c.ignorePaths fun t => ((valueAt? ignoreKeys "paths" t).bind texts?).getD []
      ignoreGlobs := t?.elim c.ignoreGlobs fun t =>
        ((valueAt? ignoreKeys "globs" t).bind texts?).getD [] } := by
  cases t? with
  | none => exact (Option.some.inj h).symm
  | some t => exact withIgnore?_eq_some h

theorem watch_eq_some {c c' : Config} {t? : Option Toml} (h : withTable? withWatch? t? c = some c')
    (hdebounce : c.debounce = builtIn.debounce) :
    c' = { c with
      debounce := ((t?.bind (valueAt? watchKeys "debounce_ms")).bind asNat?).getD
        builtIn.debounce } := by
  cases t? with
  | none =>
    obtain rfl : c = c' := Option.some.inj h
    exact Config.ext rfl rfl rfl rfl rfl rfl rfl rfl hdebounce
  | some t => exact withWatch?_eq_some h

/-- What a file lists under a key of the table `ignore`. -/
def ignoredIn (key : String) (t : Toml) : List String :=
  (((valueAt? tableKeys "ignore" t).bind (valueAt? ignoreKeys key)).bind texts?).getD []

/-- **The settings of a file** are those that it sets, and else the built-in ones. It passes over the
names that it lists, or over the built-in ones if it has no table for them. -/
theorem settings_of_ofToml? {t : Toml} {c : Config} (h : ofToml? t = some c) :
    (∀ s : Setting, s.slot.get c = (s.slot.explicit? t).getD (s.slot.get builtIn)) ∧
      c.ignorePaths =
        (valueAt? tableKeys "ignore" t).elim builtIn.ignorePaths (fun _ => ignoredIn "paths" t) ∧
      c.ignoreGlobs =
        (valueAt? tableKeys "ignore" t).elim builtIn.ignoreGlobs (fun _ => ignoredIn "globs" t) := by
  rw [ofToml?] at h
  split at h
  next defaults scan ignore watch hvalues =>
    have hlist : [defaults, scan, ignore, watch] =
        [valueAt? tableKeys "defaults" t, valueAt? tableKeys "scan" t,
          valueAt? tableKeys "ignore" t, valueAt? tableKeys "watch" t] :=
      settings?_eq tableKeys (by decide) hvalues
    cases hlist
    simp only [Option.bind_eq_bind, Option.bind_eq_some_iff] at h
    obtain ⟨c₁, h₁, c₂, h₂, c₃, h₃, h₄⟩ := h
    obtain rfl := defaults_eq_some h₁
    obtain rfl := scan_eq_some h₂ rfl rfl
    obtain rfl := ignore_eq_some h₃
    obtain rfl := watch_eq_some h₄ rfl
    refine ⟨fun s => by cases s <;> rfl, ?_, ?_⟩
    all_goals
      rw [ignoredIn]
      cases valueAt? tableKeys "ignore" t <;> rfl
  next => cases h

/-! ### Layers -/

/-- A layer gives a setting its value, unless that is the built-in one. -/
theorem get_merge (s : Setting) (base upper : Config) :
    s.slot.get (base.merge upper) =
      prefer (s.slot.get builtIn) (s.slot.get base) (s.slot.get upper) := by
  cases s with
  | format => rfl
  | logLevel => rfl
  | patterns => rfl
  | debounce => rfl
  | app =>
    change (upper.app? <|> base.app?) = prefer none base.app? upper.app?
    cases upper.app? <;> rfl
  | includeSource =>
    change (upper.includeSource || base.includeSource) =
      prefer false base.includeSource upper.includeSource
    cases upper.includeSource <;> rfl
  | showHidden =>
    change (upper.showHidden || base.showHidden) = prefer false base.showHidden upper.showHidden
    cases upper.showHidden <;> rfl

/-- With what two layers set, putting them on top of the built-in value by value gives what the upper one
sets or else the lower one, unless the upper one sets the built-in value over another one. -/
theorem prefer_eq_iff {α : Type} [DecidableEq α] (builtIn : α) (lower? upper? : Option α) :
    prefer builtIn (prefer builtIn builtIn (lower?.getD builtIn)) (upper?.getD builtIn) =
        (upper? <|> lower?).getD builtIn ↔
      ¬ (upper? = some builtIn ∧ ∃ x, lower? = some x ∧ x ≠ builtIn) := by
  have hlower : prefer builtIn builtIn (lower?.getD builtIn) = lower?.getD builtIn := by
    unfold prefer
    split_ifs with h
    · exact h.symm
    · rfl
  rw [hlower]
  cases upper? with
  | none => simp [prefer]
  | some y =>
    by_cases hy : y = builtIn
    · subst hy
      cases lower? <;> simp [prefer]
    · simp [prefer, hy]

/-- A file that is valid or missing, and what it says. One that is missing says nothing. -/
inductive Says (d : Disk) (path : Path) : Toml → Prop
  | missing (h : d.pathExists path = false) : Says d path (.table .header [])
  | there {text : String} {t : Toml} {c : Config} (h : d.pathExists path = true)
      (hread : d.read path = .ok text) (hparse : Toml.parse? text = some t)
      (hvalid : ofToml? t = some c) : Says d path t

/-- What the user's file says. Without a directory for it there is none. -/
def UserSays (d : Disk) (env : Environment) (t : Toml) : Prop :=
  match userFile? env with
  | some path => Says d path t
  | none => t = .table .header []

/-- A list of layers that puts on top of any settings what a file sets. -/
def Lays (files : List Config) (t : Toml) : Prop :=
  ∀ (s : Setting) (base : Config), s.slot.get (base.stack files) =
    prefer (s.slot.get builtIn) (s.slot.get base) ((s.slot.explicit? t).getD (s.slot.get builtIn))

/-- No layer is as good as a file that sets nothing. -/
theorem lays_nil : Lays [] (.table .header []) := by
  intro s base
  have hnone : s.slot.explicit? (.table .header []) = none := by cases s <;> rfl
  rw [hnone, Option.getD_none, prefer, if_pos rfl]
  rfl

/-- The layers that a file comes to: the settings in it, or none if it is missing. -/
inductive LayersOf (t : Toml) : List Config → Prop
  | missing (h : t = .table .header []) : LayersOf t []
  | there {c : Config} (h : ofToml? t = some c) : LayersOf t [c]

theorem LayersOf.lays {t : Toml} {files : List Config} (h : LayersOf t files) : Lays files t := by
  cases h with
  | missing h => exact h ▸ lays_nil
  | @there c h =>
    intro s base
    rw [← (settings_of_ofToml? h).1]
    exact get_merge s base c

theorem exists_layer {d : Disk} {path : Path} {t : Toml} (h : Says d path t) :
    ∃ files, layer d path = .ok files ∧ LayersOf t files ∧
      (d.pathExists path = true → files ≠ []) := by
  cases h with
  | missing h => exact ⟨[], by rw [layer, h]; rfl, .missing rfl, by simp [h]⟩
  | @there text t c h hread hparse hvalid =>
    have hfile : ofFile d path = .ok c := by
      simp only [ofFile, hread, Config.parse?, hparse, Option.bind_some, hvalid]
    exact ⟨[c], by rw [layer, if_pos h, hfile]; rfl, .there hvalid, by simp⟩

theorem exists_userLayer {d : Disk} {env : Environment} {t : Toml} (h : UserSays d env t) :
    ∃ files, (userFile? env).elim (.ok []) (layer d) = .ok files ∧ LayersOf t files ∧
      ((∃ path ∈ userFile? env, d.pathExists path = true) → files ≠ []) := by
  unfold UserSays at h
  split at h
  next path hpath =>
    rw [hpath]
    simpa using exists_layer h
  next hnone =>
    rw [hnone]
    exact ⟨[], rfl, .missing h, by simp⟩

/-- **Which layer a setting comes from.** With a user's file and a file of the workspace that are valid
or missing, and nothing overridden by the environment, the configuration is loaded. A setting in it has
the value that the workspace sets, or else the user, or else the built-in one, exactly if the workspace
does not set it back to the built-in value over another one of the user; there the user's value stays. -/
theorem load_setting {d : Disk} {env : Environment} {user workspace : Toml}
    (huser : UserSays d env user) (hworkspace : Says d (workspaceFile d) workspace)
    (henv : env.overrides = ⟨none, none, none⟩) :
    ∃ c, Config.load d env none = .ok c ∧ ∀ s : Setting,
      (s.slot.get c = s.slot.layered user workspace ↔ ¬ s.slot.Reverts user workspace) ∧
      (s.slot.Reverts user workspace → s.slot.explicit? user = some (s.slot.get c)) := by
  obtain ⟨lower, hlower, hlayers, -⟩ := exists_userLayer huser
  obtain ⟨upper, hupper, hlayers', -⟩ := exists_layer hworkspace
  refine ⟨builtIn.stack (lower ++ upper), ?_, fun s => ?_⟩
  · simp only [Config.load, layered, hlower, hupper, Except.map, henv]
    rfl
  · have hstack : builtIn.stack (lower ++ upper) = (builtIn.stack lower).stack upper :=
      List.foldl_append
    rw [hstack, hlayers'.lays s, hlayers.lays s]
    refine ⟨prefer_eq_iff _ _ _, ?_⟩
    rintro ⟨hworkspace, x, hx, hne⟩
    rw [hworkspace, hx, Option.getD_some, Option.getD_some, prefer, if_pos rfl, prefer, if_neg hne]

/-! ### A user and a workspace -/

/-- The directory of a user's settings. -/
def userHome : Name := .ofText "u"

/-- A repository at the top with the settings of its workspace, and the settings of a user. -/
def settingsTree (user workspace : String) : FileTree :=
  .dir [(repositoryEntry, .emptyDir),
    (userHome, .dir [(userDir, .dir [(fileName, .file user.toUTF8)])]),
    (settingsDir, .dir [(fileName, .file workspace.toUTF8)])]

/-- This disk as seen from the top. -/
def settingsDisk (user workspace : String) : Disk :=
  ⟨settingsTree user workspace, [], rfl⟩

/-- An environment that says where the settings of the user are. -/
def settingsEnv : Environment := ⟨[("XDG_CONFIG_HOME", "/u")]⟩

theorem says_of_find {d : Disk} {path : Path} {place : List Name} {text : String} {t : Toml}
    {c : Config} (h : d.find path = .ok (place, .file text.toUTF8)) (hparse : Toml.parse? text = some t)
    (hvalid : ofToml? t = some c) : Says d path t := by
  refine .there ?_ ?_ hparse hvalid
  · rw [Disk.pathExists, h]
  · rw [Disk.read, Disk.readBytes, h]
    exact decode_toUTF8 text

section

variable (user workspace : String)

theorem find_userFile : (settingsDisk user workspace).find (.ofText "/u/appmanifest/config.toml") =
    .ok ([userHome, userDir, fileName], .file user.toUTF8) := by
  refine find_of_leads (by decide) (by decide) (by decide) ?_
  exact .into userHome ⟨_, rfl⟩ ⟨_, rfl, by simp⟩
    (.into userDir ⟨_, rfl⟩ ⟨_, rfl, by simp⟩
      (.into fileName ⟨_, rfl⟩ ⟨_, rfl, by simp⟩ (.done ⟨_, rfl, by simp⟩)))

theorem find_workspaceFile :
    (settingsDisk user workspace).find (workspaceFile (settingsDisk user workspace)) =
      .ok ([settingsDir, fileName], .file workspace.toUTF8) := by
  have hrepository : (settingsDisk user workspace).isRepository (.ofNames []) = true := by
    have hfind : (settingsDisk user workspace).find ((Path.ofNames []).child repositoryEntry) =
        .ok ([repositoryEntry], .emptyDir) := by
      refine find_of_leads (by decide) (by decide) (by decide) ?_
      exact .into repositoryEntry ⟨_, rfl⟩ ⟨_, rfl, by simp [FileTree.emptyDir]⟩
        (.done ⟨_, rfl, by simp [FileTree.emptyDir]⟩)
    rw [Disk.isRepository, Disk.pathExists, hfind]
  have hworkspace : (settingsDisk user workspace).workspace = .ofNames [] := by
    have hdir : (settingsDisk user workspace).workingDir = .ofNames [] := rfl
    rw [Disk.workspace, hdir, Disk.repositoryRoot?, if_pos hrepository, Option.getD_some]
  rw [workspaceFile, hworkspace]
  refine find_of_leads (by decide) (by decide) (by decide) ?_
  exact .into settingsDir ⟨_, rfl⟩ ⟨_, rfl, by simp⟩
    (.into fileName ⟨_, rfl⟩ ⟨_, rfl, by simp⟩ (.done ⟨_, rfl, by simp⟩))

end

/-- The settings of a user. -/
def userText : String := "[defaults]\nformat = \"json\"\napp = \"web\"\n"

/-- The settings of a workspace, of which the first is the built-in one. -/
def workspaceText : String := "[defaults]\nformat = \"plain\"\n[watch]\ndebounce_ms = 50\n"

/-- The format, the application and the debounce time that a file sets. -/
def someSettings (t : Toml) : Option String × Option (Option String) × Option Nat :=
  ((Setting.slot .format).explicit? t, (Setting.slot .app).explicit? t,
    (Setting.slot .debounce).explicit? t)

/-- A valid text, from what can be told of it by evaluation. -/
theorem exists_of_parsed {β : Type} (text : String) (f : Toml → β) {x : β}
    (h : ((Toml.parse? text).bind fun t => (ofToml? t).map fun _ => f t) = some x) :
    ∃ t c, Toml.parse? text = some t ∧ ofToml? t = some c ∧ f t = x := by
  simp only [Option.bind_eq_some_iff, Option.map_eq_some_iff] at h
  obtain ⟨t, hparse, c, hvalid, hx⟩ := h
  exact ⟨t, c, hparse, hvalid, hx⟩

theorem exists_of_someSettings (text : String) (format? : Option String)
    (app? : Option (Option String)) (debounce? : Option Nat)
    (h : ((Toml.parse? text).bind fun t => (ofToml? t).map fun _ => someSettings t) =
      some (format?, app?, debounce?)) :
    ∃ t c, Toml.parse? text = some t ∧ ofToml? t = some c ∧
      (Setting.slot .format).explicit? t = format? ∧ (Setting.slot .app).explicit? t = app? ∧
      (Setting.slot .debounce).explicit? t = debounce? := by
  obtain ⟨t, c, hparse, hvalid, hx⟩ := exists_of_parsed text someSettings h
  exact ⟨t, c, hparse, hvalid, congrArg (·.1) hx, congrArg (·.2.1) hx, congrArg (·.2.2) hx⟩

/-- The workspace asks for the format `plain` and does not get it, as that is the built-in one. -/
theorem load_setting_reverted : ∃ user workspace c,
    UserSays (settingsDisk userText workspaceText) settingsEnv user ∧
    Says (settingsDisk userText workspaceText) (workspaceFile (settingsDisk userText workspaceText))
      workspace ∧
    settingsEnv.overrides = ⟨none, none, none⟩ ∧
    Config.load (settingsDisk userText workspaceText) settingsEnv none = .ok c ∧
    (Setting.slot .format).layered user workspace = "plain" ∧ c.format = "json" ∧
    c.app? = some "web" ∧ c.debounce = 50 := by
  obtain ⟨user, _, huser, hvalidUser, hformat, happ, hdebounce⟩ :=
    exists_of_someSettings userText (some "json") (some (some "web")) none (by decide +kernel)
  obtain ⟨workspace, _, hworkspace, hvalidWorkspace, hformat', happ', hdebounce'⟩ :=
    exists_of_someSettings workspaceText (some "plain") none (some 50) (by decide +kernel)
  have hsays : UserSays (settingsDisk userText workspaceText) settingsEnv user := by
    have hfile : userFile? settingsEnv = some (.ofText "/u/appmanifest/config.toml") := by
      decide +kernel
    rw [UserSays, hfile]
    exact says_of_find (find_userFile _ _) huser hvalidUser
  have hsays' := says_of_find (find_workspaceFile userText workspaceText) hworkspace hvalidWorkspace
  have henv : settingsEnv.overrides = ⟨none, none, none⟩ := rfl
  obtain ⟨c, hload, hsettings⟩ := load_setting hsays hsays' henv
  have hlayered : (Setting.slot .format).layered user workspace = "plain" := by
    rw [Slot.layered, hformat']
    rfl
  have hother : "json" ≠ builtIn.format := by decide
  have hjson : some "json" = some c.format :=
    hformat.symm.trans ((hsettings .format).2 ⟨hformat', "json", hformat, hother⟩)
  have hweb : c.app? = some "web" := by
    have hkept := (hsettings .app).1.mpr fun h => Option.some_ne_none _ (h.1.symm.trans happ')
    rw [Slot.layered, happ', happ] at hkept
    exact hkept
  have hfifty : c.debounce = 50 := by
    have hkept := (hsettings .debounce).1.mpr fun ⟨_, x, hx, _⟩ =>
      Option.some_ne_none _ (hx.symm.trans hdebounce)
    rw [Slot.layered, hdebounce'] at hkept
    exact hkept
  exact ⟨user, workspace, c, hsays, hsays', henv, hload, hlayered, (Option.some.inj hjson).symm, hweb,
    hfifty⟩

end Manifest.Proofs.Layering
