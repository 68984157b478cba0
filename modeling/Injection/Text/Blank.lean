/-!
# Blank characters

The characters with the Unicode property `White_Space`, and texts without them at their ends.

## Main definitions

* `Text.isBlank` — the property.
* `Text.trimmed` — a text without blank characters at either end.
* `Text.lowered` — a text with its ASCII capitals in lower case.
-/

namespace Injection.Text

/-- The code points with the property `White_Space`, as ranges. -/
def blankRanges : List (Nat × Nat) :=
  [(0x9, 0xd), (0x20, 0x20), (0x85, 0x85), (0xa0, 0xa0), (0x1680, 0x1680), (0x2000, 0x200a),
    (0x2028, 0x2029), (0x202f, 0x202f), (0x205f, 0x205f), (0x3000, 0x3000)]

/-- Whether a character has the property `White_Space`. -/
def isBlank (c : Char) : Bool :=
  blankRanges.any fun range => range.1 ≤ c.toNat && c.toNat ≤ range.2

/-- The text without blank characters at either end. -/
def trimmed (text : String) : String :=
  String.ofList ((text.toList.dropWhile isBlank).reverse.dropWhile isBlank).reverse

/-- The text with its ASCII capitals in lower case, and all else as it is. -/
def lowered (text : String) : String := text.map Char.toLower

end Injection.Text
