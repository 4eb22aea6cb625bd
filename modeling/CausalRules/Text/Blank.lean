/-!
# Blank characters

The characters with the Unicode property White_Space, and the removal of blanks at both ends of a
text.
-/

namespace CausalRules.Text

/-- Whether a character has the Unicode property White_Space. -/
def isBlank (c : Char) : Bool :=
  let n := c.toNat
  (0x09 ≤ n && n ≤ 0x0D) || n = 0x20 || n = 0x85 || n = 0xA0 || n = 0x1680 ||
    (0x2000 ≤ n && n ≤ 0x200A) || n = 0x2028 || n = 0x2029 || n = 0x202F || n = 0x205F || n = 0x3000

/-- Characters without the blanks at either end. -/
def trimList (cs : List Char) : List Char :=
  ((cs.dropWhile isBlank).reverse.dropWhile isBlank).reverse

/-- A text without the blanks at either end. -/
def trim (text : String) : String :=
  String.ofList (trimList text.toList)

/-- Lower case for the letters `A` to `Z`; every other character stays. -/
def lowerAscii (text : String) : String :=
  String.ofList (text.toList.map Char.toLower)

end CausalRules.Text
