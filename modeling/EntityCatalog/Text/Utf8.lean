import EntityCatalog.Bytes.Basic

/-!
# Text as bytes

Names are stored as UTF-8. Every text has one byte form; not every byte string is a text.
-/

namespace EntityCatalog.Text

/-- The UTF-8 form of a text. -/
def utf8 (text : String) : Bytes := text.toByteArray.data.toList

/-- The text with the given UTF-8 form, if the bytes are well formed. -/
def ofUtf8? (bytes : Bytes) : Option String := String.fromUTF8? ⟨bytes.toArray⟩

end EntityCatalog.Text
