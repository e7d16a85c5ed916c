import EmbeddedExpr.Number.Shortest

/-!
# The text of a double

A double is written with its shortest digits; a `Layout` decides which of two
equally near decimals is meant, which exponents are written positionally and how
the rest of the text looks.
-/

namespace EmbeddedExpr.Number

/-- The decisions of a format for finite doubles. -/
structure Layout where
  /-- Which of two equally near shortest decimals is written. -/
  tie : TieRule
  /-- Whether the decimal exponent is written positionally. -/
  positional : Int → Bool
  /-- Whether a whole number keeps the fraction `.0` when written positionally. -/
  keepsFraction : Bool
  /-- The mark before an exponent that is not negative. -/
  exponentPlus : String

namespace Layout

/-- Every exponent positional, whole numbers without a fraction. -/
def plain : Layout := ⟨.awayFromZero, fun _ => true, false, ""⟩

/-- Every exponent positional, always with a fraction. -/
def literal : Layout := ⟨.awayFromZero, fun _ => true, true, ""⟩

/-- Documents write `10^-5` up to below `10^16` positionally and sign every
other exponent.  They alone write the even one of two equally near decimals. -/
def document : Layout := ⟨.toEven, fun e => decide (-5 ≤ e ∧ e < 16), true, "+"⟩

/-- Tree dumps write `10^-4` up to below `10^16` positionally. -/
def dump : Layout := ⟨.awayFromZero, fun e => decide (-4 ≤ e ∧ e < 16), true, ""⟩

/-- The text of a list of digits. -/
def digitText (digits : List Nat) : String :=
  String.ofList (digits.map fun d => Nat.digitChar d)

/-- Positional text of a decimal. -/
def positionalText (keepsFraction : Bool) (d : Decimal) : String :=
  if d.exponent < 0 then
    "0." ++ digitText (List.replicate (-d.exponent - 1).toNat 0) ++ digitText d.digits
  else
    let wholeLength := d.exponent.toNat + 1
    let whole := d.digits.take wholeLength
    let fraction := d.digits.drop wholeLength
    let wholeText := digitText whole ++ digitText (List.replicate (wholeLength - whole.length) 0)
    if fraction.isEmpty then (if keepsFraction then wholeText ++ ".0" else wholeText)
    else wholeText ++ "." ++ digitText fraction

/-- Text of a decimal with an exponent. -/
def scientificText (plus : String) (d : Decimal) : String :=
  let mantissa := digitText (d.digits.take 1) ++
    (if d.digits.length ≤ 1 then "" else "." ++ digitText (d.digits.drop 1))
  mantissa ++ "e" ++ (if 0 ≤ d.exponent then plus else "-") ++ toString d.exponent.natAbs

/-- The text of a finite double. -/
def write (layout : Layout) (x : Double) : String :=
  let decimal := shortestDecimal layout.tie x
  let text := if layout.positional decimal.exponent then positionalText layout.keepsFraction decimal
    else scientificText layout.exponentPlus decimal
  if x.isNegative then "-" ++ text else text

end Layout

/-- The text of any double, whole numbers without a fraction. -/
def doubleText (x : Double) : String :=
  if x.isNaN then "NaN"
  else if x.isInfinite then (if x.isNegative then "-inf" else "inf")
  else Layout.plain.write x

end EmbeddedExpr.Number
