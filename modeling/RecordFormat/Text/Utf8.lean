import RecordFormat.Octets

/-!
# Text as octets

The UTF-8 form of a string, and reading it back.
-/

namespace RecordFormat.Text

/-- The UTF-8 form. -/
def utf8 (s : String) : Bytes := s.toByteArray

/-- The string of which `bytes` is the UTF-8 form. -/
def ofUtf8? (bytes : Bytes) : Option String := String.fromUTF8? bytes

theorem size_utf8 (s : String) : (utf8 s).size = s.utf8ByteSize := rfl

/-- Reading the UTF-8 form gives the string back. -/
theorem ofUtf8?_utf8 (s : String) : ofUtf8? (utf8 s) = some s := by
  rw [ofUtf8?, utf8, String.fromUTF8?, dif_pos s.isValidUTF8]
  rfl

/-- Only the UTF-8 form of a string is read as that string. -/
theorem eq_utf8_of_ofUtf8? {bytes : Bytes} {s : String} (h : ofUtf8? bytes = some s) :
    bytes = utf8 s := by
  unfold ofUtf8? String.fromUTF8? at h
  split at h
  · cases h
    rfl
  · cases h

end RecordFormat.Text
