import EntityCatalog.Config.Settings
import EntityCatalog.Error

/-!
# Options of the store

Options tune how rows are kept. They are applied to options that are there already: each
recognised option replaces its field and the others are left alone. Values are read with the
blanks around them removed, words in any ASCII case.
-/

namespace EntityCatalog

/-- When a write becomes durable. -/
inductive Durability where
  | immediate
  | eventual
  | never
deriving DecidableEq, Repr

/-- The options of a store. -/
structure StoreOptions where
  cacheSize : Option UInt64 := none
  durability : Durability := .immediate
  compactOnOpen : Bool := false
  logRepair : Bool := false
deriving DecidableEq, Repr

/-- The durability with the given name. -/
def Durability.ofName? (name : String) : Option Durability :=
  if name = "immediate" then some .immediate
  else if name = "eventual" then some .eventual
  else if name = "none" then some .never
  else none

/-- A truth value, written in one of three ways. -/
def readFlag? (word : String) : Option Bool :=
  if word ∈ ["true", "yes", "1"] then some true
  else if word ∈ ["false", "no", "0"] then some false
  else none

namespace StoreOptions

/-- An option that is recognised. -/
inductive Name where
  | cacheSize
  | durability
  | compactOnOpen
  | logRepair
deriving DecidableEq, Repr

/-- Every option that is recognised. -/
def Name.all : List Name := [cacheSize, durability, compactOnOpen, logRepair]

/-- The name of an option as text. -/
def Name.text : Name → String
  | cacheSize => "cache-size-bytes"
  | durability => "durability"
  | compactOnOpen => "compact-on-open"
  | logRepair => "repair-on-open-log"

/-- The option with the given name. -/
def Name.ofText? (text : String) : Option Name := all.find? fun name => name.text == text

/-- The options with one field filled from a value without blanks around it. -/
def fill? (options : StoreOptions) (name : Name) (value : String) : Option StoreOptions :=
  let word := Text.asciiLower value
  match name with
  | .cacheSize => (Text.readWord? value).map fun size => { options with cacheSize := some size }
  | .durability => (Durability.ofName? word).map fun durability => { options with durability }
  | .compactOnOpen => (readFlag? word).map fun compactOnOpen => { options with compactOnOpen }
  | .logRepair => (readFlag? word).map fun logRepair => { options with logRepair }

/-- Apply one option. -/
def apply (options : StoreOptions) (name value : String) : Except Error StoreOptions :=
  let value := Text.trim value
  match Name.ofText? name with
  | none => .ok options
  | some known =>
    match options.fill? known value with
    | some options => .ok options
    | none => .error (.configuration (.badOption value name))

/-- Apply settings one after another. The first that cannot be read ends this; those before it
stay applied. -/
def configure : Settings → StoreOptions → Except Error Unit × StoreOptions
  | [], options => (.ok (), options)
  | (name, value) :: rest, options =>
    match options.apply name value with
    | .ok options => configure rest options
    | .error fault => (.error fault, options)

/-- The options that settings describe. -/
def ofSettings (settings : Settings) : Except Error StoreOptions :=
  match configure settings {} with
  | (.ok (), options) => .ok options
  | (.error fault, _) => .error fault

end StoreOptions

end EntityCatalog
