import EntityCatalog.Error
import EntityCatalog.Text.Blank

/-!
# Reading a kind

A kind is given by its full or its short name, in any ASCII case, with blanks around it.
-/

namespace EntityCatalog.Kind

/-- The kind with the given full or short name. -/
def ofName? (name : String) : Option Kind :=
  all.find? fun kind => kind.name == name || kind.shortName == name

/-- Read a kind from text. -/
def parse (text : String) : Except Error Kind :=
  let name := Text.asciiLower (Text.trim text)
  match ofName? name with
  | some kind => .ok kind
  | none => .error (.invalidArgument (.unknownKind name))

end EntityCatalog.Kind
