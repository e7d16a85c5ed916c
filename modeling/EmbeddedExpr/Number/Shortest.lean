import EmbeddedExpr.Number.Double

/-!
# The shortest decimal that reads back

Every finite nonzero double is the nearest double to an interval of reals around
it, ends included exactly when its significand is even.  On the grid of decimals
with `k` significant digits the only candidates are the two neighbours of the
value; the first `k` with a candidate inside the interval gives the shortest
decimal, and of two candidates the nearer one is taken.  A value midway between
them leaves the choice to a rule of the format.
-/

namespace EmbeddedExpr.Number

/-- The decimal `d₀.d₁d₂… × 10^exponent`, with its digits in order. -/
structure Decimal where
  digits : List Nat
  exponent : Int
  deriving DecidableEq, Repr

namespace Decimal

/-- The digits of a number, the highest first; zero has the single digit `0`. -/
def digitsOf (n : Nat) : List Nat :=
  (Nat.toDigits 10 n).map fun c => c.toNat - '0'.toNat

/-- The digits without the zeros that end them. -/
def dropTrailingZeros (digits : List Nat) : List Nat :=
  (digits.reverse.dropWhile (· == 0)).reverse

/-- The decimal `n × 10^(-places)`, for a positive `n`. -/
def ofScaled (n : Nat) (places : Int) : Decimal :=
  let digits := digitsOf n
  ⟨dropTrailingZeros digits, (digits.length : Int) - 1 - places⟩

end Decimal

/-- Which of two neighbours on a grid a value midway between them goes to. -/
inductive TieRule
  /-- The one whose last digit is even. -/
  | toEven
  /-- The one farther from zero. -/
  | awayFromZero
  deriving DecidableEq, Repr

/-- Whether the lower of two magnitudes, here given by its multiple of the grid, is
taken in a tie. -/
def TieRule.takesLower (tie : TieRule) (lower : Nat) : Bool :=
  match tie with
  | toEven => lower % 2 == 0
  | awayFromZero => false

/-- The reals that round to a positive double, in quarters of the unit of
`Double.units`. -/
structure RoundingInterval where
  /-- The value itself. -/
  center : Nat
  low : Nat
  high : Nat
  closed : Bool

namespace RoundingInterval

/-- The interval of a positive finite double.  Below a power of two the doubles
lie twice as close. -/
def ofDouble (x : Double) : RoundingInterval :=
  let gap := 1 <<< (x.exponentField - 1)
  let below := if x.fractionField = 0 ∧ 1 < x.exponentField then gap else 2 * gap
  ⟨4 * x.units, 4 * x.units - below, 4 * x.units + 2 * gap, x.fractionField % 2 == 0⟩

/-- The factors that turn a quarter unit count into `num / den` on the grid of
`10^(-places)`. -/
def gridScale (places : Int) : Nat × Nat :=
  if 0 ≤ places then (Nat.pow 10 places.toNat, 4 * Double.unitsPerOne)
  else (1, 4 * Double.unitsPerOne * Nat.pow 10 (-places).toNat)

/-- The multiple of `10^(-places)` inside the interval, the nearer of two. -/
def candidate? (tie : TieRule) (i : RoundingInterval) (places : Int) : Option Nat :=
  let (scale, den) := gridScale places
  let center := i.center * scale
  let below := center / den
  let above := below + 1
  let belowFits :=
    if i.closed then decide (i.low * scale ≤ below * den) else decide (i.low * scale < below * den)
  let aboveFits :=
    if i.closed then decide (above * den ≤ i.high * scale) else decide (above * den < i.high * scale)
  let belowNearer :=
    decide (center - below * den < above * den - center) ||
      (center - below * den == above * den - center && tie.takesLower below)
  if belowFits && below != 0 && (belowNearer || !aboveFits) then some below
  else if aboveFits then some above
  else none

/-- Whether the value is at least `10^e`. -/
def reachesPowerOfTen (i : RoundingInterval) (e : Int) : Bool :=
  let (scale, den) := gridScale (-e)
  decide (den ≤ i.center * scale)

/-- The largest `e` with `10^e` not above the value, from the position of the
highest bit: `30103 / 100000` is the decimal logarithm of two to within one unit
of the result. -/
def leadingPlace (i : RoundingInterval) : Int :=
  let guess := (((i.center.log2 : Int) - 1076) * 30103) / 100000
  if !i.reachesPowerOfTen guess then guess - 1
  else if i.reachesPowerOfTen (guess + 1) then guess + 1
  else guess

/-- The shortest decimal in the interval.  Seventeen digits always suffice. -/
def shortest (tie : TieRule) (i : RoundingInterval) : Decimal :=
  let leading := i.leadingPlace
  let tries := (List.range 17).findSome? fun (k : Nat) =>
    let places := (k : Int) - leading
    (i.candidate? tie places).map fun n => Decimal.ofScaled n places
  tries.getD ⟨[0], 0⟩

end RoundingInterval

/-- The shortest decimal that reads back as the magnitude of a finite double.
Zero has the digit `0`. -/
def shortestDecimal (tie : TieRule) (x : Double) : Decimal :=
  if x.units = 0 then ⟨[0], 0⟩ else (RoundingInterval.ofDouble x).shortest tie

end EmbeddedExpr.Number
