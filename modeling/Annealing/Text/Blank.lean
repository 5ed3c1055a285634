/-!
# White space

The white space that may surround a variable or a number in a text, and the stripping of it.
Two classes are needed.  `isBlank` is white space as Unicode has it, with the four information
separators of ASCII; it pads variables.  `isPadding` leaves the separators out; it pads numbers.
-/

namespace Annealing.Text

/-- White space beyond ASCII. -/
def isWideBlank (c : Char) : Bool :=
  c.val = 0x85 || c.val = 0xa0 || c.val = 0x1680 || (0x2000 ≤ c.val && c.val ≤ 0x200a) ||
    c.val = 0x2028 || c.val = 0x2029 || c.val = 0x202f || c.val = 0x205f || c.val = 0x3000

/-- The space and the five layout controls of ASCII, and white space beyond ASCII. -/
def isPadding (c : Char) : Bool :=
  c.val = 0x20 || (0x09 ≤ c.val && c.val ≤ 0x0d) || isWideBlank c

/-- White space of any kind, the information separators `U+001C` to `U+001F` included. -/
def isBlank (c : Char) : Bool :=
  isPadding c || (0x1c ≤ c.val && c.val ≤ 0x1f)

/-- Drop the characters of a class from both ends. -/
def strip (dropped : Char → Bool) (cs : List Char) : List Char :=
  ((cs.dropWhile dropped).reverse.dropWhile dropped).reverse

@[simp] theorem strip_nil (dropped : Char → Bool) : strip dropped [] = [] := rfl

end Annealing.Text
