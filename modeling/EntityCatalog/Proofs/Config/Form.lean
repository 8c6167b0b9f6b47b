import EntityCatalog.Error
import EntityCatalog.Proofs.Config.Settings

/-!
# Filling fields from settings

A record is filled by taking settings one after another. A setting under the key of a field fills it with
what its value reads as, and ends everything if it cannot be read; other settings change no field. When no
key stands twice this succeeds exactly if every value under the key of a field can be read, and then each
field holds what its own setting reads as, or what it held before. Neither depends on the order of the
settings.
-/

namespace EntityCatalog

/-- The fields of a record, with the key of each and what a value under that key reads as. -/
structure Form (ν : Type) where
  Field : ν → Type
  key : ν → String
  read : (name : ν) → String → Option (Field name)

namespace Form

variable {ν σ : Type} (form : Form ν)

/-- What a field comes to: what its setting reads as, or what it held where it has no setting. -/
def field? (settings : Settings) (name : ν) (old : form.Field name) : Option (form.Field name) :=
  match settings.get? (form.key name) with
  | some value => form.read name value
  | none => some old

/-- Whether each field holds what it comes to. -/
def Follows (settings : Settings) (old new : (name : ν) → form.Field name) : Prop :=
  ∀ name, form.field? settings name (old name) = some (new name)

/-- Whether every value under the key of a field can be read. -/
def Legible (settings : Settings) : Prop :=
  ∀ name value, settings.get? (form.key name) = some value → form.read name value ≠ none

/-- What may become of one setting: the fields follow it, or its value cannot be read. -/
def Steps (held : σ → (name : ν) → form.Field name)
    (step : σ → String × String → Except Error σ) : Prop :=
  ∀ record entry,
    (∃ next, step record entry = .ok next ∧ form.Follows [entry] (held record) (held next)) ∨
    ∃ name fault, entry.1 = form.key name ∧ form.read name entry.2 = none ∧
      step record entry = .error (.configuration fault)

variable {form}

/-- A field with a setting comes to what its value reads as. -/
theorem field?_of_some {settings : Settings} {name : ν} {value : String}
    (h : settings.get? (form.key name) = some value) (old : form.Field name) :
    form.field? settings name old = form.read name value := by
  rw [field?, h]

/-- A field without a setting comes to what it held. -/
theorem field?_of_none {settings : Settings} {name : ν} (h : settings.get? (form.key name) = none)
    (old : form.Field name) : form.field? settings name old = some old := by
  rw [field?, h]

/-- A setting whose key does not come again is taken into account before the others. -/
theorem field?_cons {entry : String × String} {rest : Settings} (h : rest.get? entry.1 = none)
    (name : ν) (old : form.Field name) :
    form.field? (entry :: rest) name old =
      (form.field? [entry] name old).bind (form.field? rest name) := by
  have hget := Settings.get?_cons entry rest (form.key name)
  have hget' := Settings.get?_cons entry [] (form.key name)
  by_cases hkey : entry.1 = form.key name
  · rw [if_pos hkey] at hget hget'
    rw [field?_of_some hget, field?_of_some hget']
    have hrest : form.field? rest name = some := funext (field?_of_none (hkey ▸ h))
    rw [hrest, Option.bind_fun_some]
  · rw [if_neg hkey] at hget hget'
    rw [field?_of_none hget', Option.bind_some, field?, field?, hget]

/-- What a field comes to does not depend on the order of the settings. -/
theorem field?_perm {settings other : Settings} (hkeys : settings.Distinct)
    (horder : settings.Perm other) (name : ν) (old : form.Field name) :
    form.field? other name old = form.field? settings name old := by
  unfold field?
  rw [hkeys.get?_perm horder]

/-- A setting without a field leaves the fields alone. -/
theorem follows_of_other (form : Form ν) {entry : String × String} (h : ∀ name, entry.1 ≠ form.key name)
    (old : (name : ν) → form.Field name) : form.Follows [entry] old old := by
  intro name
  have hget := Settings.get?_cons entry [] (form.key name)
  rw [if_neg (h name)] at hget
  exact field?_of_none hget (old name)

/-- A setting with a field fills it with what its value reads as. -/
theorem follows_of_field (form : Form ν) {entry : String × String} {name : ν}
    {old new : (name : ν) → form.Field name}
    (hkeys : ∀ a b, form.key a = form.key b → a = b) (hkey : entry.1 = form.key name)
    (hread : form.read name entry.2 = some (new name))
    (hkept : ∀ other, other ≠ name → new other = old other) :
    form.Follows [entry] old new := by
  intro other
  have hget := Settings.get?_cons entry [] (form.key other)
  by_cases hother : other = name
  · subst hother
    rw [if_pos hkey] at hget
    rw [field?_of_some hget, hread]
  · have hne : entry.1 ≠ form.key other := fun heq => hother (hkeys other name (heq.symm.trans hkey))
    rw [if_neg hne] at hget
    rw [field?_of_none hget, hkept other hother]

namespace Follows

/-- Fields that follow the first setting and then the others follow all of them. -/
theorem cons {entry : String × String} {rest : Settings} {old mid new : (name : ν) → form.Field name}
    (h : rest.get? entry.1 = none) (hfirst : form.Follows [entry] old mid)
    (hrest : form.Follows rest mid new) : form.Follows (entry :: rest) old new := by
  intro name
  rw [field?_cons h, hfirst name]
  exact hrest name

/-- Fields that follow the settings follow them in any order. -/
theorem perm {settings other : Settings} {old new : (name : ν) → form.Field name}
    (h : form.Follows settings old new) (hkeys : settings.Distinct) (horder : settings.Perm other) :
    form.Follows other old new := by
  intro name
  rw [field?_perm hkeys horder]
  exact h name

/-- Settings leave one choice only for each field. -/
theorem unique {settings : Settings} {old new new' : (name : ν) → form.Field name}
    (h : form.Follows settings old new) (h' : form.Follows settings old new') : new = new' := by
  funext name
  exact Option.some.inj ((h name).symm.trans (h' name))

/-- Fields can follow settings only if these can be read. -/
theorem legible {settings : Settings} {old new : (name : ν) → form.Field name}
    (h : form.Follows settings old new) : form.Legible settings := by
  intro name value hvalue hnone
  have hfield := h name
  rw [field?_of_some hvalue, hnone] at hfield
  contradiction

end Follows

/-- Whether settings can be read does not depend on their order. -/
theorem Legible.perm {settings other : Settings} (h : form.Legible settings)
    (hkeys : settings.Distinct) (horder : settings.Perm other) : form.Legible other := by
  intro name value hvalue
  apply h name value
  rw [hkeys.get?_perm horder, hvalue]

section

variable {held : σ → (name : ν) → form.Field name} {step : σ → String × String → Except Error σ}

/-- Taking settings one after another fills the fields, or comes to a value that cannot be read. -/
theorem Steps.foldlM_cases (hstep : form.Steps held step) {settings : Settings}
    (hkeys : settings.Distinct) (record : σ) :
    (∃ next, settings.foldlM step record = .ok next ∧
      form.Follows settings (held record) (held next)) ∨
    ¬ form.Legible settings ∧ ∃ fault, settings.foldlM step record = .error (.configuration fault) := by
  induction settings generalizing record with
  | nil => exact .inl ⟨record, rfl, fun name => rfl⟩
  | cons entry rest ih =>
    have hhead := hkeys.get?_head
    rw [List.foldlM_cons]
    obtain ⟨mid, hmid, hfirst⟩ | ⟨name, fault, hkey, hread, herror⟩ := hstep record entry
    · rw [hmid]
      obtain ⟨next, hnext, hrest⟩ | ⟨hillegible, hfault⟩ := ih hkeys.tail mid
      · exact .inl ⟨next, hnext, hfirst.cons hhead hrest⟩
      · refine .inr ⟨fun hlegible => hillegible fun name value hvalue => ?_, hfault⟩
        have hne : entry.1 ≠ form.key name := by
          intro heq
          rw [heq, hvalue] at hhead
          contradiction
        apply hlegible name value
        rw [Settings.get?_cons, if_neg hne, hvalue]
    · rw [herror]
      refine .inr ⟨fun hlegible => hlegible name entry.2 ?_ hread, fault, rfl⟩
      rw [Settings.get?_cons, if_pos hkey]

/-- What the fields hold when they are filled. -/
theorem Steps.follows_of_ok (hstep : form.Steps held step) {settings : Settings}
    (hkeys : settings.Distinct) {record next : σ} (h : settings.foldlM step record = .ok next) :
    form.Follows settings (held record) (held next) := by
  obtain ⟨next', hnext', hfollows⟩ | ⟨-, fault, hfault⟩ := hstep.foldlM_cases hkeys record
  · obtain rfl := Except.ok.inj (h.symm.trans hnext')
    exact hfollows
  · rw [hfault] at h
    contradiction

end

end Form

end EntityCatalog
