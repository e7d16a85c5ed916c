/-!
# Double-precision numbers, exactly

A double is read through its 64 bits.  Every finite double is a whole number of
units of `2^-1074`; `Double.scaled` is that number, and it continues to the
infinities, whose bits read as one unit step past the largest finite double.
Order, truncation and rounding are therefore statements about integers, and no
rounding happens until `Double.ofRatio` rounds once, to the nearest double and
to the even one of two.
-/

namespace EmbeddedExpr

/-- A double-precision number.  Two doubles are equal as terms when their bits
are; there is a single NaN. -/
abbrev Double := Float

namespace Double

/-! ### The fields of the word -/

/-- The sign bit. -/
def isNegative (x : Double) : Bool :=
  decide (0x8000000000000000 ≤ x.toBits.toNat)

/-- The biased exponent. -/
def exponentField (x : Double) : Nat :=
  x.toBits.toNat / 0x10000000000000 % 0x800

/-- The fraction below the leading bit. -/
def fractionField (x : Double) : Nat :=
  x.toBits.toNat % 0x10000000000000

/-- Neither an infinity nor NaN. -/
def isFinite (x : Double) : Bool :=
  x.exponentField != 2047

def isNaN (x : Double) : Bool :=
  x.exponentField == 2047 && x.fractionField != 0

def isInfinite (x : Double) : Bool :=
  x.exponentField == 2047 && x.fractionField == 0

/-! ### The exact value -/

/-- The magnitude in units of `2^-1074`.  An infinity reads as `2^2098`, which is
above every finite magnitude. -/
def units (x : Double) : Nat :=
  if x.exponentField = 0 then x.fractionField
  else (0x10000000000000 + x.fractionField) <<< (x.exponentField - 1)

/-- The signed value in units of `2^-1074`. -/
def scaled (x : Double) : Int :=
  if x.isNegative then -(x.units : Int) else x.units

/-- The number of units in one. -/
def unitsPerOne : Nat := Nat.pow 2 1074

/-- The order of two doubles as numbers; a NaN has no order. -/
def order? (x y : Double) : Option Ordering :=
  if x.isNaN || y.isNaN then none else some (compare x.scaled y.scaled)

/-- The value without its fraction, toward zero. -/
def truncate (x : Double) : Int :=
  x.scaled.tdiv unitsPerOne

/-- A finite double without a fraction. -/
def isIntegral (x : Double) : Bool :=
  x.isFinite && x.scaled % unitsPerOne == 0

/-- The truncated value of a number that lies in `lo ≤ t < hi` once truncated. -/
def truncateWithin? (x : Double) (lo hi : Int) : Option Int :=
  if !x.isNaN && decide (lo ≤ x.truncate) && decide (x.truncate < hi) then some x.truncate
  else none

/-! ### Rounding to a double -/

/-- The quotient rounded to the nearest integer, a half to the even one. -/
def roundHalfEven (num den : Nat) : Nat :=
  let quotient := num / den
  let twice := 2 * (num % den)
  if twice < den then quotient
  else if den < twice then quotient + 1
  else quotient + quotient % 2

/-- The exponent of the highest bit of `num / den`: the largest `k` with `2^k ≤ num / den`. -/
def leadingExponent (num den : Nat) : Int :=
  let guess : Int := (num.log2 : Int) - den.log2
  let reaches : Bool :=
    if 0 ≤ guess then decide (den <<< guess.toNat ≤ num) else decide (den ≤ num <<< (-guess).toNat)
  if reaches then guess else guess - 1

/-- The bits of positive infinity. -/
def infinityBits : Nat := 2047 * 0x10000000000000

/-- The bits of the double nearest to `num / den`, without its sign. -/
def magnitudeBits (num den : Nat) : Nat :=
  if num = 0 ∨ den = 0 then 0
  else
    let step := max (leadingExponent num den - 52) (-1074)
    let significand :=
      if 0 ≤ step then roundHalfEven num (den <<< step.toNat)
      else roundHalfEven (num <<< (-step).toNat) den
    min ((step + 1074).toNat * 0x10000000000000 + significand) infinityBits

/-- The double with the given sign nearest to `num / den`. -/
def ofRatio (negative : Bool) (num den : Nat) : Double :=
  Float.ofBits (UInt64.ofNat (magnitudeBits num den + if negative then 0x8000000000000000 else 0))

/-- The double nearest to an integer. -/
def ofInt (n : Int) : Double :=
  ofRatio (decide (n < 0)) n.natAbs 1

def nan : Double := Float.ofBits 0x7ff8000000000000

def infinity : Double := Float.ofBits 0x7ff0000000000000

def negInfinity : Double := Float.ofBits 0xfff0000000000000

/-- The same magnitude with the sign bit cleared. -/
def magnitude (x : Double) : Double :=
  Float.ofBits (UInt64.ofNat (x.toBits.toNat % 0x8000000000000000))

end Double

end EmbeddedExpr
