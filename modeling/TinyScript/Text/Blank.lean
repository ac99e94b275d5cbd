/-! # Blank characters

The characters with the Unicode property White_Space, and text without them at its ends. -/

namespace TinyScript.Text

/-- Whether `c` is white space. -/
def isBlank (c : Char) : Bool :=
  let n := c.toNat
  (0x9 ≤ n && n ≤ 0xD) || n == 0x20 || n == 0x85 || n == 0xA0 || n == 0x1680 ||
    (0x2000 ≤ n && n ≤ 0x200A) || n == 0x2028 || n == 0x2029 || n == 0x202F || n == 0x205F ||
    n == 0x3000

/-- Drops the characters that satisfy `p` from both ends. -/
def trimWhere (p : Char → Bool) (cs : List Char) : List Char :=
  ((cs.dropWhile p).reverse.dropWhile p).reverse

/-- A text without blanks at its ends. -/
def trim (s : String) : String :=
  String.ofList (trimWhere isBlank s.toList)

end TinyScript.Text
