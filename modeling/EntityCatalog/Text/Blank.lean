/-!
# Blanks

A character is blank when it has the Unicode property White_Space (25 characters). Settings,
kind names and keys given by hand are read with the blanks around them removed.
-/

namespace EntityCatalog.Text

/-- The code points with the property White_Space, as closed ranges, ascending and apart. -/
def blankRanges : List (Nat × Nat) :=
  [(0x09, 0x0D), (0x20, 0x20), (0x85, 0x85), (0xA0, 0xA0), (0x1680, 0x1680), (0x2000, 0x200A),
   (0x2028, 0x2029), (0x202F, 0x202F), (0x205F, 0x205F), (0x3000, 0x3000)]

/-- Whether a character has the property White_Space. -/
def isBlank (c : Char) : Bool := blankRanges.any fun r => r.1 ≤ c.toNat && c.toNat ≤ r.2

/-- Remove blanks at the start. -/
def dropBlanks (chars : List Char) : List Char := chars.dropWhile isBlank

/-- Remove blanks at both ends of a sequence of characters. -/
def trimChars (chars : List Char) : List Char := (dropBlanks (dropBlanks chars).reverse).reverse

/-- Remove blanks at both ends of a text. -/
def trim (text : String) : String := String.ofList (trimChars text.toList)

/-- Lower-case the ASCII letters of a text and keep every other character. -/
def asciiLower (text : String) : String := String.ofList (text.toList.map Char.toLower)

end EntityCatalog.Text
