/-!
# Names

A name is an ASCII letter followed by ASCII letters, digits and underscores. Field names
begin with a small letter.
-/

namespace RecordFormat.Text

/-- Characters that may follow the first one of a name. -/
def isNameTail (c : Char) : Bool := c.isAlphanum || c == '_'

/-- A first character of the given class, then letters, digits and underscores. -/
def isNameFrom (first : Char → Bool) : List Char → Bool
  | [] => false
  | c :: rest => first c && rest.all isNameTail

/-- Names of tables and schemas. -/
def isTableName (s : String) : Bool := isNameFrom Char.isAlpha s.toList

/-- Names of fields. -/
def isFieldName (s : String) : Bool := isNameFrom Char.isLower s.toList

end RecordFormat.Text
