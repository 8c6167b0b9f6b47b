import EntityCatalog.Text.Utf8

/-!
# Reading text back

A text and its UTF-8 form determine each other.
-/

namespace EntityCatalog.Text

/-- The UTF-8 form of a text, as an array of bytes, is the one that the text is kept in. -/
theorem byteArray_utf8 (text : String) : (⟨(utf8 text).toArray⟩ : ByteArray) = text.toByteArray := by
  simp [utf8]

/-- Reading the UTF-8 form of a text gives it back. -/
@[simp] theorem ofUtf8?_utf8 (text : String) : ofUtf8? (utf8 text) = some text := by
  rw [ofUtf8?, byteArray_utf8, String.fromUTF8?, dif_pos text.isValidUTF8]
  rfl

/-- Bytes that read as a text are the UTF-8 form of that text. -/
theorem ofUtf8?_eq_some_iff (bytes : Bytes) (text : String) :
    ofUtf8? bytes = some text ↔ bytes = utf8 text := by
  refine ⟨fun h => ?_, fun h => h ▸ ofUtf8?_utf8 text⟩
  simp only [ofUtf8?, String.fromUTF8?] at h
  split at h
  · obtain rfl := Option.some.inj h
    simp [utf8, String.fromUTF8]
  · exact absurd h (by simp)

/-- Different texts have different bytes. -/
theorem utf8_injective {a b : String} (h : utf8 a = utf8 b) : a = b := by
  have hread := ofUtf8?_utf8 a
  rw [h, ofUtf8?_utf8] at hread
  exact (Option.some.inj hread).symm

end EntityCatalog.Text
