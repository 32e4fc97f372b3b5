/-!
# Blanks around a value

A value taken from the surroundings may carry blanks at either end. A blank is any character of
the Unicode property `White_Space`, which is wider than ASCII: the no-break space and the
ideographic space count too.
-/

set_option autoImplicit false

namespace Reclamation.Text

/-- The property `White_Space`. -/
def isBlank (c : Char) : Bool :=
  let n := c.toNat
  (0x9 ≤ n && n ≤ 0xD) || n == 0x20 || n == 0x85 || n == 0xA0 || n == 0x1680
    || (0x2000 ≤ n && n ≤ 0x200A) || n == 0x2028 || n == 0x2029 || n == 0x202F
    || n == 0x205F || n == 0x3000

/-- A text without the blanks at its two ends. -/
def trim (text : List Char) : List Char :=
  ((text.dropWhile isBlank).reverse.dropWhile isBlank).reverse

end Reclamation.Text
