/-!
# Blank characters

The characters with the Unicode property `White_Space`, and removing them from both ends of
a text.
-/

namespace RecordFormat.Text

/-- The property `White_Space`. -/
def isBlank (c : Char) : Bool :=
  let n := c.toNat
  (0x09 ≤ n && n ≤ 0x0D) || n == 0x20 || n == 0x85 || n == 0xA0 || n == 0x1680 ||
    (0x2000 ≤ n && n ≤ 0x200A) || n == 0x2028 || n == 0x2029 || n == 0x202F ||
    n == 0x205F || n == 0x3000

/-- The text without the blanks at its ends. -/
def trimBlanks (cs : List Char) : List Char :=
  ((cs.dropWhile isBlank).reverse.dropWhile isBlank).reverse

theorem length_trimBlanks_le (cs : List Char) : (trimBlanks cs).length ≤ cs.length := by
  have front := (List.dropWhile_suffix isBlank (l := cs)).length_le
  have back := (List.dropWhile_suffix isBlank (l := (cs.dropWhile isBlank).reverse)).length_le
  simp only [trimBlanks, List.length_reverse] at *
  omega

/-- The text without the blanks at its ends. -/
def trim (s : String) : String := String.ofList (trimBlanks s.toList)

/-- Lower case for the letters of ASCII; other characters stay. -/
def lowerAscii (s : String) : String := s.map Char.toLower

end RecordFormat.Text
