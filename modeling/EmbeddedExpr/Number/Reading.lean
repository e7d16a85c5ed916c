import EmbeddedExpr.Number.Double

/-!
# Reading numbers

Integers are read from an optional sign and decimal digits, doubles from decimal
text with an optional exponent or from a name of a special value.  A decimal is
rounded once, from its exact value.
-/

namespace EmbeddedExpr.Number

/-! ### Digits -/

/-- The value of a decimal digit. -/
def digitValue? (c : Char) : Option Nat :=
  if '0' ≤ c ∧ c ≤ '9' then some (c.toNat - '0'.toNat) else none

/-- The value of a hexadecimal digit of either case. -/
def hexValue? (c : Char) : Option Nat :=
  if '0' ≤ c ∧ c ≤ '9' then some (c.toNat - '0'.toNat)
  else if 'a' ≤ c ∧ c ≤ 'f' then some (c.toNat - 'a'.toNat + 10)
  else if 'A' ≤ c ∧ c ≤ 'F' then some (c.toNat - 'A'.toNat + 10)
  else none

def isDigit (c : Char) : Bool := (digitValue? c).isSome

def isHexDigit (c : Char) : Bool := (hexValue? c).isSome

/-- The number that digits of a base spell, continuing from `acc`. -/
def ofDigits (base : Nat) (value? : Char → Option Nat) (acc : Nat) : List Char → Option Nat
  | [] => some acc
  | c :: rest =>
    match value? c with
    | some d => ofDigits base value? (acc * base + d) rest
    | none => none

/-- The number spelled by a nonempty run of decimal digits. -/
def readNat? (text : List Char) : Option Nat :=
  if text.isEmpty then none else ofDigits 10 digitValue? 0 text

/-- The number spelled by a nonempty run of hexadecimal digits. -/
def readHex? (text : List Char) : Option Nat :=
  if text.isEmpty then none else ofDigits 16 hexValue? 0 text

/-! ### Integers -/

/-- An integer in `lo ≤ n < hi`, with an optional sign.  Where negative numbers
are out of range, so is the minus sign. -/
def readInt? (lo hi : Int) (text : List Char) : Option Int :=
  let n? : Option Int := match text with
    | '+' :: digits => (readNat? digits).map Int.ofNat
    | '-' :: digits => if lo < 0 then (readNat? digits).map (fun n => -(n : Int)) else none
    | digits => (readNat? digits).map Int.ofNat
  n?.filter fun n => decide (lo ≤ n ∧ n < hi)

/-! ### Doubles -/

/-- A decimal as written: `±whole.fraction × 10^exponent`. -/
structure DecimalText where
  negative : Bool
  whole : List Char
  fraction : List Char
  exponent : Int

namespace DecimalText

/-- The double nearest to a decimal.  Magnitudes far outside the range of doubles
are settled by counting digits. -/
def toDouble (d : DecimalText) : Double :=
  let digits := (d.whole ++ d.fraction).dropWhile (· == '0')
  let exponent := d.exponent - d.fraction.length
  let magnitude := exponent + digits.length
  if digits.isEmpty ∨ magnitude < -330 then Double.ofRatio d.negative 0 1
  else if 310 < magnitude then Double.ofRatio d.negative (Nat.pow 10 310) 1
  else
    let significand := (ofDigits 10 digitValue? 0 digits).getD 0
    if 0 ≤ exponent then Double.ofRatio d.negative (significand * Nat.pow 10 exponent.toNat) 1
    else Double.ofRatio d.negative significand (Nat.pow 10 (-exponent).toNat)

end DecimalText

/-- The exponent that follows a mantissa: nothing, or a mark, an optional sign and
digits up to the end. -/
def readExponent? (text : List Char) : Option Int :=
  match text with
  | [] => some 0
  | mark :: rest =>
    if mark = 'e' ∨ mark = 'E' then
      match rest with
      | '+' :: digits => (readNat? digits).map Int.ofNat
      | '-' :: digits => (readNat? digits).map (fun n => -(n : Int))
      | digits => (readNat? digits).map Int.ofNat
    else none

/-- Unsigned decimal text with an optional point and exponent; the point needs a
digit on one side. -/
def readMagnitude? (negative : Bool) (text : List Char) : Option DecimalText :=
  let whole := text.takeWhile isDigit
  let (fraction, rest) := match text.dropWhile isDigit with
    | '.' :: after => (after.takeWhile isDigit, after.dropWhile isDigit)
    | after => ([], after)
  if whole.isEmpty ∧ fraction.isEmpty then none
  else (readExponent? rest).map fun exponent => ⟨negative, whole, fraction, exponent⟩

/-- The special values by name, in any case. -/
def readSpecial? (negative : Bool) (text : List Char) : Option Double :=
  let name := String.ofList (text.map Char.toLower)
  if name = "nan" then some Double.nan
  else if name = "inf" ∨ name = "infinity" then
    some (if negative then Double.negInfinity else Double.infinity)
  else none

/-- A double: a sign, then decimal text or a special value. -/
def readDouble? (text : List Char) : Option Double :=
  let (negative, rest) := match text with
    | '+' :: rest => (false, rest)
    | '-' :: rest => (true, rest)
    | rest => (false, rest)
  match readMagnitude? negative rest with
  | some d => some d.toDouble
  | none => readSpecial? negative rest

end EmbeddedExpr.Number
