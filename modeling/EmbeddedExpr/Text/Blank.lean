/-!
# White space

The characters with the White_Space property, and the text that is left when
they are removed from both ends.
-/

namespace EmbeddedExpr.Text

/-- The characters with the White_Space property. -/
def isBlank (c : Char) : Bool :=
  let n := c.toNat
  decide ((9 ≤ n ∧ n ≤ 13) ∨ n = 0x20 ∨ n = 0x85 ∨ n = 0xA0 ∨ n = 0x1680 ∨
    (0x2000 ≤ n ∧ n ≤ 0x200A) ∨ n = 0x2028 ∨ n = 0x2029 ∨ n = 0x202F ∨ n = 0x205F ∨ n = 0x3000)

/-- The text between the first and the last character that is not white space. -/
def trim (text : List Char) : List Char :=
  ((text.dropWhile isBlank).reverse.dropWhile isBlank).reverse

/-- The control characters of both blocks. -/
def isControl (c : Char) : Bool :=
  let n := c.toNat
  decide (n ≤ 0x1F ∨ (0x7F ≤ n ∧ n ≤ 0x9F))

end EmbeddedExpr.Text
