/-!
# White space

The characters with the property White_Space, and the words that they separate.
-/

namespace Dynarec.Text

/-- The characters that have the property White_Space. -/
def isBlank (c : Char) : Bool :=
  let n := c.toNat
  (9 ≤ n && n ≤ 13) || n == 0x20 || n == 0x85 || n == 0xa0 || n == 0x1680 ||
    (0x2000 ≤ n && n ≤ 0x200a) || n == 0x2028 || n == 0x2029 || n == 0x202f || n == 0x205f ||
    n == 0x3000

/-- The maximal runs of characters that are not blank, in order. -/
def words (text : List Char) : List (List Char) :=
  (text.splitBy fun a b => isBlank a == isBlank b).filter fun run => run.all (!isBlank ·)

end Dynarec.Text
