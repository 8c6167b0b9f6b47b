import EntityCatalog.Config.Basic
import EntityCatalog.Proofs.Config.Form
import EntityCatalog.Proofs.Text.Cut

/-!
# What settings make of a configuration

Each setting that is recognised fills one field of a configuration, a setting under the stem of the options
adds an option, and any other is passed over.
-/

namespace EntityCatalog

namespace Setting

/-- What a setting is filled with: the directory with text and every other field with a number. -/
abbrev Field : Setting → Type
  | directory => String
  | maxSkew | flushInterval | startupWait | cacheCapacity | cacheIdle => UInt64

/-- What a value reads as. A number is read with the blanks around it removed. -/
def read : (setting : Setting) → String → Option setting.Field
  | directory, value => some value
  | maxSkew, value | flushInterval, value | startupWait, value | cacheCapacity, value
  | cacheIdle, value => Text.readWord? (Text.trim value)

/-- The fields of a configuration that have a key of their own. -/
abbrev form : Form Setting := ⟨Field, key, read⟩

/-- A setting is found by its own key. -/
theorem ofKey?_key (setting : Setting) : ofKey? setting.key = some setting := by
  cases setting <;> rfl

/-- A key is that of a setting exactly if the setting is found by it. -/
theorem ofKey?_eq_some_iff (text : String) (setting : Setting) :
    ofKey? text = some setting ↔ text = setting.key := by
  constructor
  · intro h
    have hkey := List.find?_some h
    exact (eq_of_beq hkey).symm
  · rintro rfl
    exact ofKey?_key setting

/-- Each setting has a key of its own. -/
theorem key_injective {a b : Setting} (h : a.key = b.key) : a = b := by
  have hkey := ofKey?_key a
  rw [h, ofKey?_key] at hkey
  exact (Option.some.inj hkey).symm

end Setting

namespace Config

/-- What the field of a setting holds. -/
def held (config : Config) : (setting : Setting) → setting.Field
  | .directory => config.directory
  | .maxSkew => config.timing.maxSkew
  | .flushInterval => config.timing.flushInterval
  | .startupWait => config.timing.startupWait
  | .cacheCapacity => config.cacheCapacity
  | .cacheIdle => config.cacheIdle

/-- A configuration with another content of the field of a setting. -/
def put (config : Config) : (setting : Setting) → setting.Field → Config
  | .directory, text => { config with directory := text }
  | .maxSkew, n => { config with timing := { config.timing with maxSkew := n } }
  | .flushInterval, n => { config with timing := { config.timing with flushInterval := n } }
  | .startupWait, n => { config with timing := { config.timing with startupWait := n } }
  | .cacheCapacity, n => { config with cacheCapacity := n }
  | .cacheIdle, n => { config with cacheIdle := n }

/-- A field that was filled holds what it was filled with. -/
theorem held_put (config : Config) (setting : Setting) (content : setting.Field) :
    (config.put setting content).held setting = content := by
  cases setting <;> rfl

/-- Filling one field leaves the others as they were. -/
theorem held_put_of_ne (config : Config) {setting other : Setting} (h : other ≠ setting)
    (content : setting.Field) : (config.put setting content).held other = config.held other := by
  cases setting <;> cases other <;> first | rfl | contradiction

/-- Filling a field leaves the options as they were. -/
theorem options_put (config : Config) (setting : Setting) (content : setting.Field) :
    (config.put setting content).options = config.options := by
  cases setting <;> rfl

/-- Options are no field. -/
theorem held_options (config : Config) (options : Settings) :
    held { config with options := options } = config.held := by
  funext setting
  cases setting <;> rfl

/-- A configuration is known by its fields and its options. -/
theorem ext_held {config other : Config} (h : config.held = other.held)
    (hoptions : config.options = other.options) : config = other := by
  have hfield (setting : Setting) : config.held setting = other.held setting := congrFun h setting
  obtain ⟨_, _, ⟨_, _, _⟩, _, _⟩ := config
  obtain ⟨_, _, ⟨_, _, _⟩, _, _⟩ := other
  obtain rfl := hfield .directory
  obtain rfl := hfield .maxSkew
  obtain rfl := hfield .flushInterval
  obtain rfl := hfield .startupWait
  obtain rfl := hfield .cacheCapacity
  obtain rfl := hfield .cacheIdle
  obtain rfl := hoptions
  rfl

/-- Filling a field fails only on a value that cannot be read. -/
theorem fill_eq (config : Config) (setting : Setting) (value : String) :
    config.fill setting value =
      match setting.read value with
      | some content => .ok (config.put setting content)
      | none => .error (.configuration (.badSetting value setting.key)) := by
  cases setting
  case directory => rfl
  all_goals
    dsimp only [fill, Setting.read]
    cases Text.readWord? (Text.trim value) <;> rfl

/-! ## Options -/

/-- A key names an option when it is the option after their stem. -/
theorem optionName?_eq_some_iff (key option : String) :
    optionName? key = some option ↔ key = optionStem ++ option := by
  rw [optionName?, Option.map_eq_some_iff, ← String.toList_inj, String.toList_append]
  constructor
  · rintro ⟨chars, hchars, rfl⟩
    rw [String.toList_ofList]
    exact (Text.after?_eq_some_iff _ _ _).mp hchars
  · intro hkey
    exact ⟨option.toList, (Text.after?_eq_some_iff _ _ _).mpr hkey, String.ofList_toList⟩

/-- The key of a setting is not that of an option. -/
theorem optionName?_key (setting : Setting) : optionName? setting.key = none := by
  cases setting <;> rfl

/-- The options among settings, without their stem. -/
def optionsOf (settings : Settings) : Settings :=
  settings.filterMap fun entry => (optionName? entry.1).map fun option => (option, entry.2)

/-- The options are the entries under the stem of options, without the stem. -/
theorem mem_optionsOf_iff (settings : Settings) (option value : String) :
    (option, value) ∈ optionsOf settings ↔ (optionStem ++ option, value) ∈ settings := by
  simp only [optionsOf, List.mem_filterMap, Option.map_eq_some_iff, optionName?_eq_some_iff,
    Prod.mk.injEq]
  constructor
  · rintro ⟨⟨key, _⟩, hentry, _, rfl, rfl, rfl⟩
    exact hentry
  · intro hentry
    exact ⟨_, hentry, option, rfl, rfl, rfl⟩

/-- Options with different keys have different names. -/
theorem distinct_optionsOf {settings : Settings} (hkeys : settings.Distinct) :
    (optionsOf settings).Distinct := by
  induction settings with
  | nil => exact List.nodup_nil
  | cons entry rest ih =>
    have hrest := ih hkeys.tail
    unfold optionsOf at hrest ⊢
    rw [List.filterMap_cons]
    split
    · exact hrest
    · rename_i added hadded
      obtain ⟨option, hoption, rfl⟩ := Option.map_eq_some_iff.mp hadded
      refine List.nodup_cons.mpr ⟨fun hmem => ?_, hrest⟩
      obtain ⟨⟨name, value⟩, hvalue, rfl⟩ := List.mem_map.mp hmem
      have hentry := (mem_optionsOf_iff rest name value).mp hvalue
      rw [← (optionName?_eq_some_iff entry.1 name).mp hoption] at hentry
      exact (List.nodup_cons.mp hkeys).1 (List.mem_map.mpr ⟨_, hentry, rfl⟩)

/-! ## Taking settings into account -/

/-- A key under the stem of options adds an option. -/
theorem apply_of_option (config : Config) {key option : String} (h : optionName? key = some option)
    (value : String) :
    config.apply key value = .ok { config with options := config.options ++ [(option, value)] } := by
  rw [apply, h]

/-- The key of a setting fills its field. -/
theorem apply_of_setting (config : Config) (setting : Setting) (value : String) :
    config.apply setting.key value = config.fill setting value := by
  rw [apply, optionName?_key, Setting.ofKey?_key]

/-- A setting is passed over when it is no option and its key is not recognised. -/
theorem apply_of_other (config : Config) {key : String} (hoption : optionName? key = none)
    (hkey : ∀ setting : Setting, key ≠ setting.key) (value : String) :
    config.apply key value = .ok config := by
  have hnone : Setting.ofKey? key = none := by
    apply Option.eq_none_iff_forall_ne_some.mpr
    intro setting hsetting
    exact hkey setting ((Setting.ofKey?_eq_some_iff key setting).mp hsetting)
  rw [apply, hoption, hnone]

/-- What becomes of one setting: it fills a field, adds an option or is passed over, or its value cannot be
read. -/
theorem apply_steps :
    Setting.form.Steps held fun config entry => config.apply entry.1 entry.2 := by
  rintro config ⟨key, value⟩
  cases hoption : optionName? key with
  | some option =>
    have hother (setting : Setting) : key ≠ setting.key := by
      rintro rfl
      rw [optionName?_key] at hoption
      contradiction
    have happly := config.apply_of_option hoption value
    refine .inl ⟨_, happly, ?_⟩
    rw [held_options]
    exact Setting.form.follows_of_other hother config.held
  | none =>
    by_cases hsetting : ∃ setting : Setting, key = setting.key
    · obtain ⟨setting, rfl⟩ := hsetting
      have happly := (config.apply_of_setting setting value).trans (config.fill_eq setting value)
      cases hread : setting.read value with
      | some content =>
        rw [hread] at happly
        refine .inl ⟨_, happly,
          Setting.form.follows_of_field (fun _ _ => Setting.key_injective) rfl ?_ ?_⟩
        · rw [held_put]
          exact hread
        · intro other hother
          exact held_put_of_ne config hother content
      | none =>
        rw [hread] at happly
        exact .inr ⟨setting, _, rfl, hread, happly⟩
    · have hother (setting : Setting) : key ≠ setting.key := fun hkey => hsetting ⟨setting, hkey⟩
      have happly := config.apply_of_other hoption hother value
      exact .inl ⟨config, happly, Setting.form.follows_of_other hother config.held⟩

/-- A setting adds its option, if it is one, to those there are. -/
theorem options_of_apply {config next : Config} {entry : String × String}
    (h : config.apply entry.1 entry.2 = .ok next) :
    next.options = config.options ++ optionsOf [entry] := by
  cases hoption : optionName? entry.1 with
  | some option =>
    rw [apply_of_option config hoption] at h
    obtain rfl := Except.ok.inj h
    simp [optionsOf, hoption]
  | none =>
    have hnone : optionsOf [entry] = [] := by simp [optionsOf, hoption]
    rw [hnone, List.append_nil]
    rw [apply, hoption] at h
    cases hsetting : Setting.ofKey? entry.1 with
    | some setting =>
      simp only [hsetting, fill_eq] at h
      split at h
      · obtain rfl := Except.ok.inj h
        exact options_put config setting _
      · contradiction
    | none =>
      simp only [hsetting] at h
      obtain rfl := Except.ok.inj h
      rfl

/-- Settings add their options to those there are. -/
theorem options_of_applyAll {settings : Settings} {config next : Config}
    (h : applyAll settings config = .ok next) :
    next.options = config.options ++ optionsOf settings := by
  induction settings generalizing config with
  | nil =>
    obtain rfl := Except.ok.inj h
    exact (List.append_nil _).symm
  | cons entry rest ih =>
    rw [applyAll] at h
    split at h
    · rename_i mid hmid
      have hsplit : optionsOf (entry :: rest) = optionsOf [entry] ++ optionsOf rest := by
        rw [← List.singleton_append]
        exact List.filterMap_append
      rw [ih h, options_of_apply hmid, List.append_assoc, hsplit]
    · contradiction

/-- Settings are applied from the first to the last, up to one that fails. -/
theorem applyAll_eq_foldlM (settings : Settings) (config : Config) :
    applyAll settings config =
      settings.foldlM (fun config entry => config.apply entry.1 entry.2) config := by
  induction settings generalizing config with
  | nil => rfl
  | cons entry rest ih =>
    rw [List.foldlM_cons, applyAll]
    cases config.apply entry.1 entry.2 with
    | ok next => exact ih next
    | error fault => rfl

end Config

end EntityCatalog
