import EntityCatalog.Config.StoreOptions
import EntityCatalog.Proofs.Config.Form

/-!
# What settings make of the options of a store

Each option that is recognised fills one field, and any other is passed over. A durability has one word,
and a truth value three; no other words are read.
-/

namespace EntityCatalog

/-- The word for a durability. -/
def Durability.word : Durability → String
  | immediate => "immediate"
  | eventual => "eventual"
  | never => "none"

/-- A durability is read from its own word only. -/
theorem Durability.ofName?_eq_some_iff (name : String) (durability : Durability) :
    ofName? name = some durability ↔ name = durability.word := by
  constructor
  · intro h
    unfold ofName? at h
    split at h
    · cases h
      assumption
    · split at h
      · cases h
        assumption
      · split at h
        · cases h
          assumption
        · contradiction
  · rintro rfl
    cases durability <;> rfl

/-- The words for a truth value. -/
def flagWords : Bool → List String
  | true => ["true", "yes", "1"]
  | false => ["false", "no", "0"]

/-- A truth value is read from its own words only. -/
theorem readFlag?_eq_some_iff (word : String) (flag : Bool) :
    readFlag? word = some flag ↔ word ∈ flagWords flag := by
  have hapart : word ∈ flagWords false → word ∉ flagWords true := by
    simp only [flagWords, List.mem_cons, List.not_mem_nil, or_false]
    rintro (rfl | rfl | rfl) <;> decide
  have hread : readFlag? word = if word ∈ flagWords true then some true
      else if word ∈ flagWords false then some false else none := rfl
  rw [hread]
  by_cases htrue : word ∈ flagWords true
  · rw [if_pos htrue]
    cases flag with
    | true => exact iff_of_true rfl htrue
    | false => exact iff_of_false (by simp) fun hfalse => hapart hfalse htrue
  · rw [if_neg htrue]
    cases flag with
    | true => exact iff_of_false (by split <;> simp) htrue
    | false => simp

namespace StoreOptions

namespace Name

/-- What an option is filled with. -/
abbrev Field : Name → Type
  | cacheSize => Option UInt64
  | durability => Durability
  | compactOnOpen | logRepair => Bool

/-- What a value reads as, without the blanks around it. -/
def read : (name : Name) → String → Option name.Field
  | cacheSize, value => (Text.readWord? (Text.trim value)).map some
  | durability, value => Durability.ofName? (Text.asciiLower (Text.trim value))
  | compactOnOpen, value | logRepair, value => readFlag? (Text.asciiLower (Text.trim value))

/-- Whether an option takes a value that has no blanks around it: a number, or in any case of its letters
the word of a durability or a word for a truth value. -/
def Accepts : Name → String → Prop
  | cacheSize, value => ∃ size, Text.readWord? value = some size
  | durability, value => ∃ durability : Durability, Text.asciiLower value = durability.word
  | compactOnOpen, value | logRepair, value => ∃ flag, Text.asciiLower value ∈ flagWords flag

/-- A value can be read exactly if its option takes it, once the blanks around it are gone. -/
theorem read_ne_none_iff (name : Name) (value : String) :
    name.read value ≠ none ↔ name.Accepts (Text.trim value) := by
  cases name with
  | cacheSize =>
    dsimp only [read, Accepts]
    rw [Ne, Option.map_eq_none_iff]
    exact Option.ne_none_iff_exists'
  | durability =>
    simp only [Accepts, ← Durability.ofName?_eq_some_iff]
    exact Option.ne_none_iff_exists'
  | compactOnOpen =>
    simp only [Accepts, ← readFlag?_eq_some_iff]
    exact Option.ne_none_iff_exists'
  | logRepair =>
    simp only [Accepts, ← readFlag?_eq_some_iff]
    exact Option.ne_none_iff_exists'

/-- The fields of the options. -/
abbrev form : Form Name := ⟨Field, text, read⟩

/-- An option is found by its own text. -/
theorem ofText?_text (name : Name) : ofText? name.text = some name := by
  cases name <;> rfl

/-- A text is that of an option exactly if the option is found by it. -/
theorem ofText?_eq_some_iff (text : String) (name : Name) :
    ofText? text = some name ↔ text = name.text := by
  constructor
  · intro h
    have htext := List.find?_some h
    exact (eq_of_beq htext).symm
  · rintro rfl
    exact ofText?_text name

/-- Each option has a text of its own. -/
theorem text_injective {a b : Name} (h : a.text = b.text) : a = b := by
  have htext := ofText?_text a
  rw [h, ofText?_text] at htext
  exact (Option.some.inj htext).symm

end Name

/-- What the field of an option holds. -/
def held (options : StoreOptions) : (name : Name) → name.Field
  | .cacheSize => options.cacheSize
  | .durability => options.durability
  | .compactOnOpen => options.compactOnOpen
  | .logRepair => options.logRepair

/-- Options with another content of one field. -/
def put (options : StoreOptions) : (name : Name) → name.Field → StoreOptions
  | .cacheSize, size => { options with cacheSize := size }
  | .durability, durability => { options with durability := durability }
  | .compactOnOpen, flag => { options with compactOnOpen := flag }
  | .logRepair, flag => { options with logRepair := flag }

/-- A field that was filled holds what it was filled with. -/
theorem held_put (options : StoreOptions) (name : Name) (content : name.Field) :
    (options.put name content).held name = content := by
  cases name <;> rfl

/-- Filling one field leaves the others as they were. -/
theorem held_put_of_ne (options : StoreOptions) {name other : Name} (h : other ≠ name)
    (content : name.Field) : (options.put name content).held other = options.held other := by
  cases name <;> cases other <;> first | rfl | contradiction

/-- Options are known by their fields. -/
theorem held_injective {options other : StoreOptions} (h : options.held = other.held) :
    options = other := by
  have hfield (name : Name) : options.held name = other.held name := congrFun h name
  obtain ⟨_, _, _, _⟩ := options
  obtain ⟨_, _, _, _⟩ := other
  obtain rfl := hfield .cacheSize
  obtain rfl := hfield .durability
  obtain rfl := hfield .compactOnOpen
  obtain rfl := hfield .logRepair
  rfl

/-- An option is filled with what its value reads as. -/
theorem fill?_eq (options : StoreOptions) (name : Name) (value : String) :
    options.fill? name (Text.trim value) = (name.read value).map (options.put name) := by
  cases name
  case cacheSize =>
    dsimp only [fill?, Name.read]
    cases Text.readWord? (Text.trim value) <;> rfl
  all_goals rfl

/-- An option is passed over when it is not recognised. -/
theorem apply_of_other (options : StoreOptions) {text : String} (h : ∀ name : Name, text ≠ name.text)
    (value : String) : options.apply text value = .ok options := by
  have hnone : Name.ofText? text = none := by
    apply Option.eq_none_iff_forall_ne_some.mpr
    intro name hname
    exact h name ((Name.ofText?_eq_some_iff text name).mp hname)
  rw [apply, hnone]

/-- Applying an option fails only on a value that cannot be read. -/
theorem apply_of_name (options : StoreOptions) (name : Name) (value : String) :
    options.apply name.text value =
      match name.read value with
      | some content => .ok (options.put name content)
      | none => .error (.configuration (.badOption (Text.trim value) name.text)) := by
  simp only [apply, Name.ofText?_text, fill?_eq]
  cases name.read value <;> rfl

/-- What becomes of one option: it fills a field or is passed over, or its value cannot be read. -/
theorem apply_steps : Name.form.Steps held fun options entry => options.apply entry.1 entry.2 := by
  rintro options ⟨text, value⟩
  by_cases hname : ∃ name : Name, text = name.text
  · obtain ⟨name, rfl⟩ := hname
    have happly := options.apply_of_name name value
    cases hread : name.read value with
    | some content =>
      rw [hread] at happly
      refine .inl ⟨_, happly,
        Name.form.follows_of_field (fun _ _ => Name.text_injective) rfl ?_ ?_⟩
      · rw [held_put]
        exact hread
      · intro other hother
        exact held_put_of_ne options hother content
    | none =>
      rw [hread] at happly
      exact .inr ⟨name, _, rfl, hread, happly⟩
  · have hother (name : Name) : text ≠ name.text := fun htext => hname ⟨name, htext⟩
    have happly := options.apply_of_other hother value
    exact .inl ⟨options, happly, Name.form.follows_of_other hother options.held⟩

/-- The options that are left, if none of the settings failed. -/
theorem configure_eq_foldlM (settings : Settings) (options : StoreOptions) :
    ((configure settings options).1.map fun () => (configure settings options).2) =
      settings.foldlM (fun options entry => options.apply entry.1 entry.2) options := by
  induction settings generalizing options with
  | nil => rfl
  | cons entry rest ih =>
    rw [List.foldlM_cons, configure]
    cases options.apply entry.1 entry.2 with
    | ok next => exact ih next
    | error fault => rfl

end StoreOptions

end EntityCatalog
