import EntityCatalog.Text.Blank
import EntityCatalog.Text.Cut

/-!
# Settings

A configuration is handed over as settings: values under dotted keys, both of them text. Setting
a key again replaces its value, so that layers of settings can be laid one over another.
-/

namespace EntityCatalog

/-- Values under distinct keys. -/
abbrev Settings := List (String × String)

namespace Settings

/-- The value of a key. -/
def get? (settings : Settings) (key : String) : Option String :=
  (settings.find? fun setting => setting.1 == key).map Prod.snd

/-- Set a key, in place of the value that it had. -/
def set (settings : Settings) (key value : String) : Settings :=
  settings.filter (fun setting => setting.1 != key) ++ [(key, value)]

/-- Lay settings over others. Of two values for one key the later wins. -/
def layer (settings upper : Settings) : Settings :=
  upper.foldl (fun settings setting => settings.set setting.1 setting.2) settings

/-- Read a setting written as a key, an equals sign and a value, with blanks around both. The
key must not be empty; the value may hold further equals signs. -/
def parsePair? (text : String) : Option (String × String) :=
  match Text.cutAt? '=' text.toList with
  | none => none
  | some (key, value) =>
    match Text.trimChars key with
    | [] => none
    | key => some (String.ofList key, String.ofList (Text.trimChars value))

end Settings

end EntityCatalog
