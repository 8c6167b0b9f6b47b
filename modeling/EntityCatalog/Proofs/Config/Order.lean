import EntityCatalog.Proofs.Config.Basic
import EntityCatalog.Proofs.Config.StoreOptions

/-!
# Loading does not depend on the order of settings

Settings are handed over in an order that nobody chooses. Whether they make a configuration, and which one,
does not depend on it: each field is decided by the one setting with its key, the options by the keys under
their stem, and no other key matters. The same holds of the options of a store, applied to any that there
are before.
-/

namespace EntityCatalog

namespace Config

/-- Whether a key is the one of a setting or of an option. -/
def IsKnown (key : String) : Prop :=
  (∃ setting : Setting, key = setting.key) ∨ ∃ option, key = optionStem ++ option

/-- A setting under any other key may as well be left out. -/
theorem ofSettings_of_unknown (front : Settings) {entry : String × String} (back : Settings)
    (h : ¬ IsKnown entry.1) : ofSettings (front ++ entry :: back) = ofSettings (front ++ back) := by
  have hoption : optionName? entry.1 = none := by
    apply Option.eq_none_iff_forall_ne_some.mpr
    intro option hoption
    exact h (.inr ⟨option, (optionName?_eq_some_iff entry.1 option).mp hoption⟩)
  have hkey (setting : Setting) : entry.1 ≠ setting.key := fun heq => h (.inl ⟨setting, heq⟩)
  have happly : applyAll (front ++ entry :: back) {} = applyAll (front ++ back) {} := by
    rw [applyAll_eq_foldlM, applyAll_eq_foldlM, List.foldlM_append, List.foldlM_append]
    congr 1
    funext config
    rw [List.foldlM_cons, apply_of_other config hoption hkey]
    rfl
  rw [ofSettings, ofSettings, happly]

/-- A configuration is refused for a field that must not be zero, and for nothing else. -/
theorem validate_cases (config : Config) :
    config.validate = .ok () ∧ config.timing.flushInterval ≠ 0 ∧ config.cacheCapacity ≠ 0 ∨
    (config.timing.flushInterval = 0 ∨ config.cacheCapacity = 0) ∧
      ∃ fault, config.validate = .error (.configuration fault) := by
  unfold validate
  by_cases hflush : config.timing.flushInterval = 0
  · rw [if_pos hflush]
    exact .inr ⟨.inl hflush, _, rfl⟩
  · rw [if_neg hflush]
    by_cases hcapacity : config.cacheCapacity = 0
    · rw [if_pos hcapacity]
      exact .inr ⟨.inr hcapacity, _, rfl⟩
    · rw [if_neg hcapacity]
      exact .inl ⟨rfl, hflush, hcapacity⟩

/-- Whether settings make a configuration: every value of a field can be read, and the flush interval and
the capacity of the cache do not come to zero. -/
def Loadable (settings : Settings) : Prop :=
  Setting.form.Legible settings ∧
  Setting.form.field? settings .flushInterval ({} : Config).timing.flushInterval ≠
    some (0 : UInt64) ∧
  Setting.form.field? settings .cacheCapacity ({} : Config).cacheCapacity ≠ some (0 : UInt64)

/-- Whether settings make a configuration does not depend on their order. -/
theorem Loadable.perm {settings other : Settings} (h : Loadable settings)
    (hkeys : settings.Distinct) (horder : settings.Perm other) : Loadable other := by
  refine ⟨h.1.perm hkeys horder, ?_⟩
  rw [Form.field?_perm hkeys horder, Form.field?_perm hkeys horder]
  exact h.2

/-- Loading succeeds exactly on the settings that make a configuration, and fails with a fault of the
configuration on all others. -/
theorem ofSettings_cases {settings : Settings} (hkeys : settings.Distinct) :
    (Loadable settings ∧ ∃ config, ofSettings settings = .ok config) ∨
    ¬ Loadable settings ∧ ∃ fault, ofSettings settings = .error (.configuration fault) := by
  unfold ofSettings
  rw [applyAll_eq_foldlM]
  obtain ⟨made, hmade, hfollows⟩ | ⟨hillegible, fault, hfault⟩ :=
    apply_steps.foldlM_cases hkeys {}
  · have hflush := hfollows .flushInterval
    have hcapacity := hfollows .cacheCapacity
    rw [hmade]
    dsimp only
    obtain ⟨hvalid, hflushNe, hcapacityNe⟩ | ⟨hzero, fault, hfault⟩ := made.validate_cases
    · rw [hvalid]
      refine .inl ⟨⟨hfollows.legible, ?_, ?_⟩, made, rfl⟩
      · exact fun heq => hflushNe (Option.some.inj (hflush.symm.trans heq))
      · exact fun heq => hcapacityNe (Option.some.inj (hcapacity.symm.trans heq))
    · rw [hfault]
      refine .inr ⟨?_, fault, rfl⟩
      rintro ⟨-, hflushNe, hcapacityNe⟩
      rcases hzero with hzero | hzero
      · exact hflushNe (hflush.trans (congrArg some hzero))
      · exact hcapacityNe (hcapacity.trans (congrArg some hzero))
  · rw [hfault]
    exact .inr ⟨fun hloadable => hillegible hloadable.1, fault, rfl⟩

/-- What a configuration that was loaded holds. -/
theorem loaded_of_ofSettings {settings : Settings} (hkeys : settings.Distinct) {config : Config}
    (h : ofSettings settings = .ok config) :
    Setting.form.Follows settings ({} : Config).held config.held ∧
      config.options = optionsOf settings := by
  have hmade : applyAll settings {} = .ok config := by
    unfold ofSettings at h
    split at h
    · contradiction
    · split at h
      · contradiction
      · rename_i made hmade _ _
        rw [hmade, Except.ok.inj h]
  refine ⟨?_, options_of_applyAll hmade⟩
  rw [applyAll_eq_foldlM] at hmade
  exact apply_steps.follows_of_ok hkeys hmade

/-- Loaded in another order, settings make the same configuration, up to the order of its options. -/
theorem loaded_perm {settings other : Settings} (hkeys : settings.Distinct)
    (horder : settings.Perm other) {config config' : Config}
    (h : ofSettings settings = .ok config) (h' : ofSettings other = .ok config') :
    config' = { config with options := config'.options } ∧ config.options.Perm config'.options := by
  obtain ⟨hfollows, hoptions⟩ := loaded_of_ofSettings hkeys h
  obtain ⟨hfollows', hoptions'⟩ := loaded_of_ofSettings (hkeys.perm horder) h'
  constructor
  · apply ext_held
    · rw [held_options]
      exact hfollows'.unique (hfollows.perm hkeys horder)
    · rfl
  · rw [hoptions, hoptions']
    exact horder.filterMap _

/-- In two orders, settings make a configuration in both or in none. -/
theorem ofSettings_perm {settings other : Settings} (hkeys : settings.Distinct)
    (horder : settings.Perm other) :
    (∃ config config', ofSettings settings = .ok config ∧ ofSettings other = .ok config' ∧
      config' = { config with options := config'.options } ∧
      config.options.Perm config'.options) ∨
    ∃ fault fault', ofSettings settings = .error (.configuration fault) ∧
      ofSettings other = .error (.configuration fault') := by
  have hback := hkeys.perm horder
  obtain ⟨hloadable, config, hconfig⟩ | ⟨hnot, fault, hfault⟩ := ofSettings_cases hkeys
  · obtain ⟨-, config', hconfig'⟩ | ⟨hnot, -⟩ := ofSettings_cases hback
    · exact .inl ⟨config, config', hconfig, hconfig', loaded_perm hkeys horder hconfig hconfig'⟩
    · exact absurd (hloadable.perm hkeys horder) hnot
  · obtain ⟨hloadable, -⟩ | ⟨-, fault', hfault'⟩ := ofSettings_cases hback
    · exact absurd (hloadable.perm hback horder.symm) hnot
    · exact .inr ⟨fault, fault', hfault, hfault'⟩

/-- A configuration is loaded exactly from the settings that make one. -/
theorem exists_ofSettings_iff {settings : Settings} (hkeys : settings.Distinct) :
    (∃ config, ofSettings settings = .ok config) ↔ Loadable settings := by
  obtain ⟨hloadable, hconfig⟩ | ⟨hnot, fault, hfault⟩ := ofSettings_cases hkeys
  · exact iff_of_true hconfig hloadable
  · apply iff_of_false _ hnot
    rintro ⟨config, hconfig⟩
    rw [hfault] at hconfig
    contradiction

end Config

namespace StoreOptions

/-- Applying settings succeeds exactly if every value of a field can be read, with fields that follow the
settings, and fails with a fault of the configuration otherwise. -/
theorem configure_cases {settings : Settings} (hkeys : settings.Distinct) (options : StoreOptions) :
    (∃ result, configure settings options = (.ok (), result) ∧
      Name.form.Follows settings options.held result.held) ∨
    ¬ Name.form.Legible settings ∧
      ∃ fault, (configure settings options).1 = .error (.configuration fault) := by
  have hrun := configure_eq_foldlM settings options
  rcases hconfigure : configure settings options with ⟨answer, left⟩
  rw [hconfigure] at hrun
  obtain ⟨result, hresult, hfollows⟩ | ⟨hillegible, fault, hfault⟩ :=
    apply_steps.foldlM_cases hkeys options
  · rw [hresult] at hrun
    cases answer with
    | ok _ =>
      have hleft : left = result := Except.ok.inj hrun
      exact .inl ⟨left, rfl, hleft ▸ hfollows⟩
    | error _ => contradiction
  · rw [hfault] at hrun
    cases answer with
    | ok _ => contradiction
    | error fault' =>
      have hsame : fault' = .configuration fault := Except.error.inj hrun
      exact .inr ⟨hillegible, fault, congrArg Except.error hsame⟩

/-- Settings are applied in full exactly if every option among them takes its value. -/
theorem exists_configure_iff {settings : Settings} (hkeys : settings.Distinct) (options : StoreOptions) :
    (∃ result, configure settings options = (.ok (), result)) ↔
      ∀ (name : Name) value, settings.get? name.text = some value →
        name.Accepts (Text.trim value) := by
  have hlegible : Name.form.Legible settings ↔ ∀ (name : Name) value,
      settings.get? name.text = some value → name.Accepts (Text.trim value) :=
    forall₂_congr fun name value => imp_congr_right fun _ => name.read_ne_none_iff value
  rw [← hlegible]
  obtain ⟨result, hresult, hfollows⟩ | ⟨hillegible, fault, hfault⟩ := configure_cases hkeys options
  · exact iff_of_true ⟨result, hresult⟩ hfollows.legible
  · apply iff_of_false _ hillegible
    rintro ⟨result, hresult⟩
    rw [hresult] at hfault
    contradiction

/-- Applied in another order, settings leave the same options. -/
theorem configure_perm {settings other : Settings} (hkeys : settings.Distinct)
    (horder : settings.Perm other) (options : StoreOptions) :
    (Name.form.Legible settings ∧ ∃ result, configure settings options = (.ok (), result) ∧
      configure other options = (.ok (), result) ∧
      Name.form.Follows settings options.held result.held) ∨
    ¬ Name.form.Legible settings ∧ ∃ fault fault',
      (configure settings options).1 = .error (.configuration fault) ∧
      (configure other options).1 = .error (.configuration fault') := by
  have hback := hkeys.perm horder
  obtain ⟨result, hresult, hfollows⟩ | ⟨hillegible, fault, hfault⟩ := configure_cases hkeys options
  · obtain ⟨result', hresult', hfollows'⟩ | ⟨hillegible', -⟩ := configure_cases hback options
    · have hsame : result' = result :=
        held_injective (hfollows'.unique (hfollows.perm hkeys horder))
      exact .inl ⟨hfollows.legible, result, hresult, hsame ▸ hresult', hfollows⟩
    · exact absurd (hfollows.legible.perm hkeys horder) hillegible'
  · obtain ⟨result', -, hfollows'⟩ | ⟨-, fault', hfault'⟩ := configure_cases hback options
    · exact absurd (hfollows'.legible.perm hback horder.symm) hillegible
    · exact .inr ⟨hillegible, fault, fault', hfault, hfault'⟩

end StoreOptions

/-- Loading does not depend on the order of settings with different keys. Two orders of them make the same
configuration, up to the order of its options, or fail both; they make one exactly if every value of a field
can be read and the two fields that must not be zero do not come to zero. Each field then holds what its own
setting reads as, or its default; the options are the settings under their stem; and a setting under another
key may be left out. Options of a store are replaced in the same way, from any that there are before. -/
theorem Config.order_immaterial {settings other : Settings} (hkeys : settings.Distinct)
    (horder : settings.Perm other) :
    ((∃ config config', Config.ofSettings settings = .ok config ∧
        Config.ofSettings other = .ok config' ∧
        config' = { config with options := config'.options } ∧
        config.options.Perm config'.options) ∨
      ∃ fault fault', Config.ofSettings settings = .error (.configuration fault) ∧
        Config.ofSettings other = .error (.configuration fault')) ∧
    ((∃ config, Config.ofSettings settings = .ok config) ↔ Config.Loadable settings) ∧
    (∀ config, Config.ofSettings settings = .ok config →
      Setting.form.Follows settings ({} : Config).held config.held ∧ config.options.Distinct ∧
      ∀ option value, (option, value) ∈ config.options ↔
        (Config.optionStem ++ option, value) ∈ settings) ∧
    (∀ front entry back, settings = front ++ entry :: back → ¬ Config.IsKnown entry.1 →
      Config.ofSettings (front ++ back) = Config.ofSettings settings) ∧
    ∀ options : StoreOptions,
      (StoreOptions.Name.form.Legible settings ∧ ∃ result : StoreOptions,
        StoreOptions.configure settings options = (.ok (), result) ∧
        StoreOptions.configure other options = (.ok (), result) ∧
        StoreOptions.Name.form.Follows settings options.held result.held) ∨
      ¬ StoreOptions.Name.form.Legible settings ∧ ∃ fault fault',
        (StoreOptions.configure settings options).1 = .error (.configuration fault) ∧
        (StoreOptions.configure other options).1 = .error (.configuration fault') := by
  refine ⟨Config.ofSettings_perm hkeys horder, Config.exists_ofSettings_iff hkeys, ?_, ?_,
    StoreOptions.configure_perm hkeys horder⟩
  · intro config hconfig
    obtain ⟨hfollows, hoptions⟩ := Config.loaded_of_ofSettings hkeys hconfig
    rw [hoptions]
    exact ⟨hfollows, Config.distinct_optionsOf hkeys, Config.mem_optionsOf_iff settings⟩
  · intro front entry back hsettings hunknown
    rw [hsettings, Config.ofSettings_of_unknown front back hunknown]

/-- Settings with an option, a number between blanks and a key that means nothing. -/
def mixedSettings : Settings :=
  [("lakemeta.entity.store.kv.path", "/tmp/kv"),
    ("lakemeta.entity.store.kv.options.durability", "none"), ("unrelated.key", "x"),
    ("lakemeta.entity.store.transaction.flush-interval-ms", " 250 ")]

/-- Options of a store with words in other letters than their own and a key that means nothing. -/
def mixedOptions : Settings :=
  [("durability", " Eventual"), ("max-background-jobs", "8"), ("compact-on-open", "NO")]

/-- Settings in the opposite order make the same configuration, and leave the same options of a store.
-/
theorem Config.order_immaterial_mixedSettings :
    mixedSettings.Distinct ∧ mixedSettings.Perm mixedSettings.reverse ∧
      ∃ config, Config.ofSettings mixedSettings.reverse = .ok config ∧
        config.held .flushInterval = (250 : UInt64) ∧ config.held .maxSkew = (2000 : UInt64) ∧
        config.options.Perm [("durability", "none")] ∧
      StoreOptions.configure mixedOptions.reverse ⟨some 4096, .never, true, true⟩ =
        (.ok (), ⟨some 4096, .eventual, false, true⟩) := by
  have hkeys : mixedSettings.Distinct := by decide
  have horder : mixedSettings.Perm mixedSettings.reverse := (List.reverse_perm _).symm
  have hloads : Config.ofSettings mixedSettings = .ok
      { directory := "/tmp/kv", options := [("durability", "none")], timing := ⟨2000, 250, 5000⟩ } := by
    rfl
  have hstore : StoreOptions.configure mixedOptions.reverse ⟨some 4096, .never, true, true⟩ =
      (.ok (), ⟨some 4096, .eventual, false, true⟩) := by
    obtain ⟨-, result, hresult, hreverse, -⟩ | ⟨-, fault, -, hfault, -⟩ :=
      (Config.order_immaterial (by decide)
        (List.reverse_perm mixedOptions).symm).2.2.2.2 ⟨some 4096, .never, true, true⟩
    · rw [hreverse, ← hresult]
      rfl
    · contradiction
  obtain ⟨⟨config, config', hconfig, hconfig', hfields, hoptions⟩ | ⟨fault, -, hfault, -⟩, -⟩ :=
    Config.order_immaterial hkeys horder
  · obtain rfl := Except.ok.inj (hloads.symm.trans hconfig)
    refine ⟨hkeys, horder, config', hconfig', ?_, ?_, hoptions.symm, hstore⟩ <;> rw [hfields] <;> rfl
  · rw [hloads] at hfault
    contradiction

end EntityCatalog
