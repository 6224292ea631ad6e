/-!
# White space

White space here is what has the property of that name in the Unicode character database:
25 characters, among them the line separators and the ideographic space.

## Main definitions

* `isBlank` — the property.
* `trimChars` — the characters of a text without the white space around them.
-/

namespace BarrierLowering

/-- Whether a character has the property `White_Space`. -/
def isBlank (c : Char) : Bool :=
  let n := c.toNat
  (0x09 ≤ n && n ≤ 0x0D) || n = 0x20 || n = 0x85 || n = 0xA0 || n = 0x1680 ||
    (0x2000 ≤ n && n ≤ 0x200A) || n = 0x2028 || n = 0x2029 || n = 0x202F || n = 0x205F ||
    n = 0x3000

/-- The characters without the white space around them. -/
def trimChars (cs : List Char) : List Char :=
  ((cs.dropWhile isBlank).reverse.dropWhile isBlank).reverse

end BarrierLowering
