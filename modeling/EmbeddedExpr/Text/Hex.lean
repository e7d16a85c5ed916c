/-!
# Hexadecimal digits

Numbers as hexadecimal digits of a least width.
-/

namespace EmbeddedExpr.Text

/-- The lower-case hexadecimal digits of a number, padded with zeros to `width`. -/
def hexDigits (width n : Nat) : List Char :=
  let digits := Nat.toDigits 16 n
  List.replicate (width - digits.length) '0' ++ digits

/-- The upper-case hexadecimal digits of a number. -/
def upperHex (n : Nat) : String :=
  String.ofList ((Nat.toDigits 16 n).map Char.toUpper)

end EmbeddedExpr.Text
