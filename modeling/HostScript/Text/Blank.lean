/-!
# Blank characters

The characters with the Unicode property White_Space, and texts without blanks at their ends.
-/

namespace HostScript.Text

/-- The ranges of the property White_Space, in ascending order. -/
def blankRanges : List (Nat × Nat) :=
  [(0x09, 0x0D), (0x20, 0x20), (0x85, 0x85), (0xA0, 0xA0), (0x1680, 0x1680), (0x2000, 0x200A), (0x2028, 0x2029),
    (0x202F, 0x202F), (0x205F, 0x205F), (0x3000, 0x3000)]

/-- A character with the property White_Space. -/
def isBlank (c : Char) : Bool := blankRanges.any fun (low, high) => low ≤ c.toNat && c.toNat ≤ high

/-- A text without the blanks at its beginning and its end. -/
def trimChars (text : List Char) : List Char := ((text.dropWhile isBlank).reverse.dropWhile isBlank).reverse

/-- A text without the blanks at its beginning and its end. -/
def trim (text : String) : String := String.ofList (trimChars text.toList)

end HostScript.Text
