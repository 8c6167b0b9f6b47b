import EntityCatalog.Config.Settings
import EntityCatalog.Cache.Basic
import EntityCatalog.Error
import EntityCatalog.TransactionIds.Basic

/-!
# Configuration

The configuration of a catalog is read from settings. Each setting that is recognised fills one
field; the others are left alone, and a field without a setting keeps its default. A number is
read with the blanks around it removed. The flush interval and the capacity of the cache must
not be zero, which is checked when every setting has been read.
-/

namespace EntityCatalog

/-- The configuration of a catalog. Times are in milliseconds, the idle time in seconds. -/
structure Config where
  directory : String := "/var/lib/lakemeta/kv"
  options : Settings := []
  timing : Timing := ⟨2000, 1000, 5000⟩
  cacheCapacity : UInt64 := 10000
  cacheIdle : UInt64 := 3600
deriving DecidableEq, Repr

/-- A setting that a configuration recognises. -/
inductive Setting where
  | directory
  | maxSkew
  | flushInterval
  | startupWait
  | cacheCapacity
  | cacheIdle
deriving DecidableEq, Repr

namespace Setting

/-- Every setting that has a key of its own. -/
def all : List Setting :=
  [directory, maxSkew, flushInterval, startupWait, cacheCapacity, cacheIdle]

/-- The key of a setting. -/
def key : Setting → String
  | directory => "lakemeta.entity.store.kv.path"
  | maxSkew => "lakemeta.entity.store.transaction.max-skew-ms"
  | flushInterval => "lakemeta.entity.store.transaction.flush-interval-ms"
  | startupWait => "lakemeta.entity.store.transaction.startup-wait-ms"
  | cacheCapacity => "lakemeta.entity.store.mapping.cache-capacity"
  | cacheIdle => "lakemeta.entity.store.mapping.cache-idle-secs"

/-- The setting with the given key. -/
def ofKey? (text : String) : Option Setting := all.find? fun setting => setting.key == text

end Setting

namespace Config

/-- The start of the keys whose values are options of the store. -/
def optionStem : String := "lakemeta.entity.store.kv.options."

/-- The name of the option with the given key. -/
def optionName? (key : String) : Option String :=
  (Text.after? optionStem.toList key.toList).map String.ofList

/-- Fill the field of a setting. -/
def fill (config : Config) (setting : Setting) (value : String) : Except Error Config :=
  let number := Text.readWord? (Text.trim value)
  let timing := config.timing
  match setting, number with
  | .directory, _ => .ok { config with directory := value }
  | .maxSkew, some n => .ok { config with timing := { timing with maxSkew := n } }
  | .flushInterval, some n => .ok { config with timing := { timing with flushInterval := n } }
  | .startupWait, some n => .ok { config with timing := { timing with startupWait := n } }
  | .cacheCapacity, some n => .ok { config with cacheCapacity := n }
  | .cacheIdle, some n => .ok { config with cacheIdle := n }
  | _, none => .error (.configuration (.badSetting value setting.key))

/-- Take one setting into account. -/
def apply (config : Config) (key value : String) : Except Error Config :=
  match optionName? key with
  | some option => .ok { config with options := config.options ++ [(option, value)] }
  | none =>
    match Setting.ofKey? key with
    | some setting => config.fill setting value
    | none => .ok config

/-- Take settings into account one after another. -/
def applyAll : Settings → Config → Except Error Config
  | [], config => .ok config
  | (key, value) :: rest, config =>
    match config.apply key value with
    | .ok config => applyAll rest config
    | .error fault => .error fault

/-- Refuse fields that must not be zero. -/
def validate (config : Config) : Except Error Unit :=
  if config.timing.flushInterval = 0 then
    .error (.configuration (.zero Setting.flushInterval.key))
  else if config.cacheCapacity = 0 then .error (.configuration (.zero Setting.cacheCapacity.key))
  else .ok ()

/-- The configuration that settings describe. -/
def ofSettings (settings : Settings) : Except Error Config :=
  match applyAll settings {} with
  | .error fault => .error fault
  | .ok config =>
    match config.validate with
    | .error fault => .error fault
    | .ok () => .ok config

/-- The idle time of cached bindings. -/
def idle (config : Config) : Idle := .ofSeconds config.cacheIdle

end Config

end EntityCatalog
