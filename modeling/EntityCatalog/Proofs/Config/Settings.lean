import EntityCatalog.Config.Settings
import EntityCatalog.Proofs.Text.Cut

/-!
# Looking settings up

Where no key stands twice, looking a key up finds exactly the setting with that key, in whichever order
the settings come. Of layered settings the upper ones are found first, and the last of each key.
-/

namespace EntityCatalog.Settings

/-- Whether no key stands twice. -/
def Distinct (settings : Settings) : Prop := (settings.map Prod.fst).Nodup

instance (settings : Settings) : Decidable settings.Distinct :=
  inferInstanceAs (Decidable (List.Nodup _))

/-- Without settings no key has a value. -/
@[simp] theorem get?_nil (key : String) : get? [] key = none := rfl

/-- The first setting decides if it has the key, and otherwise the others. -/
theorem get?_cons (entry : String × String) (settings : Settings) (key : String) :
    get? (entry :: settings) key = if entry.1 = key then some entry.2 else settings.get? key := by
  rw [get?, List.find?_cons]
  by_cases h : entry.1 = key
  · simp [h]
  · rw [beq_false_of_ne h, if_neg h]
    rfl

/-- Settings that come first decide before those after them. -/
theorem get?_append (settings more : Settings) (key : String) :
    get? (settings ++ more) key = (settings.get? key).or (more.get? key) := by
  rw [get?, List.find?_append, Option.map_or]
  rfl

/-- A key has no value exactly if no setting has the key. -/
theorem get?_eq_none_iff (settings : Settings) (key : String) :
    settings.get? key = none ↔ key ∉ settings.map Prod.fst := by
  rw [get?, Option.map_eq_none_iff, List.find?_eq_none, List.mem_map]
  constructor
  · rintro h ⟨entry, hentry, rfl⟩
    exact h entry hentry (beq_self_eq_true _)
  · intro h entry hentry heq
    exact h ⟨entry, hentry, eq_of_beq heq⟩

/-- The value of a key comes from a setting. -/
theorem mem_of_get? {settings : Settings} {key value : String} (h : settings.get? key = some value) :
    (key, value) ∈ settings := by
  obtain ⟨entry, hentry, rfl⟩ := Option.map_eq_some_iff.mp h
  have hkey : entry.1 = key := by simpa using List.find?_some hentry
  exact hkey ▸ List.mem_of_find?_eq_some hentry

namespace Distinct

/-- No key stands twice among fewer settings. -/
theorem tail {entry : String × String} {settings : Settings}
    (h : Distinct (entry :: settings)) : settings.Distinct :=
  (List.nodup_cons.mp h).2

/-- The key of the first setting has no other setting. -/
theorem get?_head {entry : String × String} {settings : Settings}
    (h : Distinct (entry :: settings)) : settings.get? entry.1 = none :=
  (get?_eq_none_iff settings entry.1).mpr (List.nodup_cons.mp h).1

/-- Where no key stands twice, a value is found exactly where it stands. -/
theorem get?_eq_some_iff {settings : Settings} (h : settings.Distinct) (key value : String) :
    settings.get? key = some value ↔ (key, value) ∈ settings := by
  refine ⟨mem_of_get?, ?_⟩
  intro hmem
  induction settings with
  | nil => contradiction
  | cons entry rest ih =>
    rw [get?_cons]
    rcases List.mem_cons.mp hmem with heq | hrest
    · rw [← heq, if_pos rfl]
    · have hne : entry.1 ≠ key := by
        intro heq
        exact (List.nodup_cons.mp h).1 (List.mem_map.mpr ⟨(key, value), hrest, heq.symm⟩)
      rw [if_neg hne]
      exact ih h.tail hrest

/-- No key stands twice in another order either. -/
theorem perm {settings other : Settings} (h : settings.Distinct) (horder : settings.Perm other) :
    other.Distinct :=
  (horder.map Prod.fst).nodup_iff.mp h

/-- What is found does not depend on the order of the settings. -/
theorem get?_perm {settings other : Settings} (h : settings.Distinct)
    (horder : settings.Perm other) (key : String) : settings.get? key = other.get? key := by
  apply Option.ext
  intro value
  rw [h.get?_eq_some_iff, (h.perm horder).get?_eq_some_iff, horder.mem_iff]

end Distinct

/-! ## Layers -/

/-- Without the settings of a key only that key loses its value. -/
theorem get?_filter_ne (settings : Settings) (key other : String) :
    get? (settings.filter fun setting => setting.1 != key) other =
      if key = other then none else settings.get? other := by
  induction settings with
  | nil => simp
  | cons entry rest ih =>
    by_cases hkey : entry.1 = key
    · rw [List.filter_cons_of_neg (by simpa using hkey), ih, get?_cons, hkey]
      split <;> rfl
    · rw [List.filter_cons_of_pos (by simpa using hkey), get?_cons, get?_cons, ih]
      by_cases hother : entry.1 = other
      · have hne : key ≠ other := fun heq => hkey (hother.trans heq.symm)
        rw [if_pos hother, if_neg hne, if_pos hother]
      · rw [if_neg hother, if_neg hother]

/-- A key that is set has its new value, and every other key the value that it had. -/
theorem get?_set (settings : Settings) (key value other : String) :
    (settings.set key value).get? other =
      if key = other then some value else settings.get? other := by
  rw [set, get?_append, get?_filter_ne, get?_cons, get?_nil]
  split
  · rfl
  · exact Option.or_none

/-- Setting a key among others that are distinct keeps them so, whatever is under them. -/
theorem nodup_keys_set {α : Type} {entries : List (String × α)} (h : (entries.map Prod.fst).Nodup)
    (key : String) (value : α) :
    ((entries.filter (fun entry => entry.1 != key) ++ [(key, value)]).map Prod.fst).Nodup := by
  rw [List.map_append, List.nodup_append]
  refine ⟨h.sublist (List.filter_sublist.map Prod.fst), by simp, ?_⟩
  intro kept hkept last hlast
  obtain ⟨entry, hentry, rfl⟩ := List.mem_map.mp hkept
  have hne := (List.mem_filter.mp hentry).2
  rw [List.mem_singleton.mp hlast]
  simpa using hne

/-- Setting a key leaves no key twice. -/
theorem Distinct.set {settings : Settings} (h : settings.Distinct) (key value : String) :
    (settings.set key value).Distinct :=
  nodup_keys_set h key value

/-- Of layers the upper one is found first, and there the last of each key. -/
theorem get?_layer (settings upper : Settings) (key : String) :
    (settings.layer upper).get? key =
      (Settings.get? upper.reverse key).or (settings.get? key) := by
  unfold layer
  induction upper generalizing settings with
  | nil => rfl
  | cons entry rest ih =>
    rw [List.foldl_cons, ih, get?_set, List.reverse_cons, get?_append, get?_cons, get?_nil,
      Option.or_assoc]
    split <;> rfl

/-- Layers over settings without a key twice leave none twice. -/
theorem Distinct.layer {settings : Settings} (h : settings.Distinct) (upper : Settings) :
    (settings.layer upper).Distinct := by
  unfold Settings.layer
  induction upper generalizing settings with
  | nil => exact h
  | cons entry rest ih => exact ih (h.set entry.1 entry.2)

/-- Setting a new key puts it behind the settings. -/
theorem set_eq_append {settings : Settings} {key : String} (h : key ∉ settings.map Prod.fst)
    (value : String) : settings.set key value = settings ++ [(key, value)] := by
  have hkept : settings.filter (fun setting => setting.1 != key) = settings := by
    apply List.filter_eq_self.mpr
    intro entry hentry
    have hne : entry.1 ≠ key := by
      intro heq
      exact h (List.mem_map.mpr ⟨entry, hentry, heq⟩)
    simpa using hne
  rw [set, hkept]

/-- Laying settings over others with which they share no key puts them behind. -/
theorem layer_eq_append {settings upper : Settings} (h : Distinct (settings ++ upper)) :
    settings.layer upper = settings ++ upper := by
  unfold layer
  induction upper generalizing settings with
  | nil => exact (List.append_nil settings).symm
  | cons entry rest ih =>
    have hcut : settings ++ entry :: rest = (settings ++ [entry]) ++ rest := by simp
    have hnew : entry.1 ∉ settings.map Prod.fst := by
      intro hmem
      rw [Distinct, List.map_append] at h
      exact (List.nodup_append.mp h).2.2 entry.1 hmem entry.1 List.mem_cons_self rfl
    rw [List.foldl_cons, set_eq_append hnew, ih (hcut ▸ h), hcut]

/-! ## Settings in a text of their own -/

/-- A text without an equals sign is no setting. -/
theorem parsePair?_of_not_mem {text : String} (h : '=' ∉ text.toList) : parsePair? text = none := by
  rw [parsePair?, (Text.cutAt?_eq_none_iff _ _).mpr h]

/-- The first equals sign ends the key, which is read without the blanks around it. -/
theorem parsePair?_of_cut {before : String} (hfree : '=' ∉ before.toList) (after : String) :
    parsePair? (before ++ "=" ++ after) =
      if Text.trim before = "" then none else some (Text.trim before, Text.trim after) := by
  have hcut : Text.cutAt? '=' (before ++ "=" ++ after).toList = some (before.toList, after.toList) :=
    (Text.cutAt?_eq_some_iff _ _ _ _).mpr ⟨by simp, hfree⟩
  have hempty : Text.trim before = "" ↔ Text.trimChars before.toList = [] := by
    rw [← String.toList_inj, Text.trim]
    simp
  simp only [parsePair?, hcut]
  split
  · rename_i hblank
    rw [if_pos (hempty.mpr hblank)]
  · rename_i hshown
    rw [if_neg fun h => hshown (hempty.mp h)]
    rfl

/-- A text has no equals sign, or a first one. -/
theorem eq_cut_or_not_mem (text : String) :
    '=' ∉ text.toList ∨ ∃ before after, text = before ++ "=" ++ after ∧ '=' ∉ before.toList := by
  cases hcut : Text.cutAt? '=' text.toList with
  | none => exact .inl ((Text.cutAt?_eq_none_iff _ _).mp hcut)
  | some parts =>
    obtain ⟨hchars, hfree⟩ := (Text.cutAt?_eq_some_iff _ _ _ _).mp hcut
    refine .inr ⟨String.ofList parts.1, String.ofList parts.2, ?_, by simpa using hfree⟩
    apply String.toList_injective
    simpa using hchars

/-- A setting is read as what stands before and after the first equals sign, without the blanks around
both. -/
theorem parsePair?_eq_some_iff (text key value : String) :
    parsePair? text = some (key, value) ↔
      ∃ before after, text = before ++ "=" ++ after ∧ '=' ∉ before.toList ∧
        key = Text.trim before ∧ key ≠ "" ∧ value = Text.trim after := by
  constructor
  · intro h
    obtain hfree | ⟨before, after, rfl, hfree⟩ := eq_cut_or_not_mem text
    · rw [parsePair?_of_not_mem hfree] at h
      contradiction
    · rw [parsePair?_of_cut hfree] at h
      obtain ⟨hkey, h⟩ := Option.ite_none_left_eq_some.mp h
      obtain ⟨rfl, rfl⟩ := Prod.mk.inj (Option.some.inj h)
      exact ⟨before, after, rfl, hfree, rfl, hkey, rfl⟩
  · rintro ⟨before, after, rfl, hfree, rfl, hkey, rfl⟩
    rw [parsePair?_of_cut hfree, if_neg hkey]

example : parsePair? "a.b = c=d " = some ("a.b", "c=d") := by decide

/-- Only a text without an equals sign, or with nothing but blanks before the first one, is no setting. -/
theorem parsePair?_eq_none_iff (text : String) :
    parsePair? text = none ↔
      '=' ∉ text.toList ∨ ∃ before after, text = before ++ "=" ++ after ∧ '=' ∉ before.toList ∧
        Text.trim before = "" := by
  constructor
  · intro h
    obtain hfree | ⟨before, after, rfl, hfree⟩ := eq_cut_or_not_mem text
    · exact .inl hfree
    · rw [parsePair?_of_cut hfree] at h
      exact .inr ⟨before, after, rfl, hfree, by simpa using h⟩
  · rintro (hfree | ⟨before, after, rfl, hfree, hblank⟩)
    · exact parsePair?_of_not_mem hfree
    · rw [parsePair?_of_cut hfree, if_pos hblank]

end EntityCatalog.Settings
