import EntityCatalog.Toml.Flatten
import EntityCatalog.Toml.Parser
import EntityCatalog.Toml.Printer

/-!
# The standard format

The reader and the printer of this library, as the format of the configuration files of the tool.
-/

namespace EntityCatalog.Toml

/-- Files are read and values are written by the rules of the format, of which a cause tells no more
than that one was broken. -/
def standard : Format where
  read text :=
    match parse? text with
    | some table => .ok table
    | none => .error "the file breaks a rule of its format"
  print := Value.print

end EntityCatalog.Toml
