import EntityCatalog.Config.Settings
import EntityCatalog.Toml.Value

/-!
# Settings of a configuration file

The table of a file becomes settings: each value that is no table is set under the keys that lead
to it, with dots between them. Text is set as it is, and any other value as it is written. How a file is
read and how a value is written is left to a format.
-/

namespace EntityCatalog.Toml

/-- How a file is read, with a cause where it breaks a rule, and how a value is written. -/
structure Format where
  read : String → Except String Value
  print : Value → String

/-- A key below the keys that lead to a table. The table of the whole file has none. -/
def joinKey (stem key : String) : String := if stem = "" then key else stem ++ "." ++ key

section Settings

variable (print : Value → String)

mutual

/-- The settings of a value that stands under the given keys, in order. -/
def Value.settings (stem : String) : Value → List (String × String)
  | .table entries => entrySettings stem entries
  | .text text => [(stem, text)]
  | .literal text => [(stem, print (.literal text))]
  | .array items => [(stem, print (.array items))]

/-- The settings of the entries of a table. -/
def entrySettings (stem : String) : List (String × Value) → List (String × String)
  | [] => []
  | (key, value) :: rest => value.settings (joinKey stem key) ++ entrySettings stem rest

end

/-- The settings of a file. Of two values under equal keys the later is set. -/
def flatten (value : Value) : Settings := Settings.layer [] (value.settings print "")

end Settings

end EntityCatalog.Toml
