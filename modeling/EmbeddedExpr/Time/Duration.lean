import EmbeddedExpr.Number.Reading

/-!
# Durations

A duration is a signed count of nanoseconds whose whole seconds fit a signed
64-bit word.  Seconds and nanoseconds are the truncated quotient and remainder of
that count, so they never have opposite signs and equality of durations is
equality of their counts.

The text of a duration is decimal seconds; reading accepts a sum of components,
each a decimal and a unit.
-/

namespace EmbeddedExpr.Time

def nanosPerSecond : Int := 1000000000

/-- The counts of nanoseconds of the representable durations. -/
def DurationRange (total : Int) : Prop :=
  -0x8000000000000000 ≤ total.tdiv nanosPerSecond ∧ total.tdiv nanosPerSecond < 0x8000000000000000

instance (total : Int) : Decidable (DurationRange total) :=
  inferInstanceAs (Decidable (_ ∧ _))

/-- A signed span of time. -/
structure Duration where
  /-- The whole span in nanoseconds. -/
  total : Int
  inRange : DurationRange total
  deriving DecidableEq

namespace Duration

/-! ### Building -/

/-- The duration of so many nanoseconds, if it is representable. -/
def ofNanos? (total : Int) : Option Duration :=
  if h : DurationRange total then some ⟨total, h⟩ else none

theorem ofNanos?_eq_some_iff {total : Int} {d : Duration} :
    ofNanos? total = some d ↔ d.total = total := by
  unfold ofNanos?
  constructor
  · split
    · rintro ⟨⟩; rfl
    · intro h; cases h
  · rintro rfl
    rw [dif_pos d.inRange]

/-- Seconds and an offset in nanoseconds of any sign and size. -/
def ofParts? (seconds nanos : Int) : Option Duration :=
  ofNanos? (seconds * nanosPerSecond + nanos)

def zero : Duration := ⟨0, by decide⟩

/-- So many seconds. -/
def ofSeconds (seconds : Int64) : Duration :=
  ⟨seconds.toInt * nanosPerSecond, by
    have hlo := seconds.le_toInt
    have hhi := seconds.toInt_lt
    have : (seconds.toInt * nanosPerSecond).tdiv nanosPerSecond = seconds.toInt :=
      Int.mul_tdiv_cancel _ (by decide)
    unfold DurationRange
    rw [this]
    exact ⟨hlo, hhi⟩⟩

/-- So many milliseconds. -/
def ofMillis (millis : Int64) : Duration :=
  ⟨millis.toInt * 1000000, by
    have hlo := millis.le_toInt
    have hhi := millis.toInt_lt
    unfold DurationRange nanosPerSecond
    have : (millis.toInt * 1000000).tdiv 1000000000 = millis.toInt.tdiv 1000 := by
      rw [show (1000000000 : Int) = 1000 * 1000000 by decide]
      exact Int.mul_tdiv_mul_of_pos_left _ _ (by decide)
    rw [this]
    rcases Int.le_total 0 millis.toInt with h | h
    · rw [Int.tdiv_eq_ediv_of_nonneg h]
      omega
    · have hneg : millis.toInt.tdiv 1000 = -((-millis.toInt).tdiv 1000) := by
        rw [Int.neg_tdiv, Int.neg_neg]
      rw [hneg, Int.tdiv_eq_ediv_of_nonneg (by omega)]
      omega⟩

/-! ### Parts -/

/-- Whole seconds, toward zero. -/
def seconds (d : Duration) : Int := d.total.tdiv nanosPerSecond

/-- The nanoseconds beyond the whole seconds, with their sign. -/
def nanos (d : Duration) : Int := d.total.tmod nanosPerSecond

def isNegative (d : Duration) : Bool := decide (d.total < 0)

/-- Whole hours, toward zero. -/
def hours (d : Duration) : Int := d.seconds.tdiv 3600

/-- Whole minutes, toward zero. -/
def minutes (d : Duration) : Int := d.seconds.tdiv 60

/-- Whole milliseconds, toward zero, as a signed 64-bit word. -/
def millis (d : Duration) : Int64 := Int64.ofInt (d.total.tdiv 1000000)

/-! ### Arithmetic -/

def add? (a b : Duration) : Option Duration := ofNanos? (a.total + b.total)

def sub? (a b : Duration) : Option Duration := ofNanos? (a.total - b.total)

def neg? (d : Duration) : Option Duration := ofNanos? (-d.total)

instance : Ord Duration := ⟨fun a b => compare a.total b.total⟩

/-! ### Text -/

/-- Digits padded with zeros on the left. -/
def paddedDigits (width n : Nat) : List Char :=
  let digits := Nat.toDigits 10 n
  List.replicate (width - digits.length) '0' ++ digits

/-- Decimal seconds, such as `1.5s`. -/
def text (d : Duration) : String :=
  let sign := if d.isNegative then "-" else ""
  let whole := toString d.seconds.natAbs
  let nanos := d.nanos.natAbs
  if nanos = 0 then sign ++ whole ++ "s"
  else
    let fraction := ((paddedDigits 9 nanos).reverse.dropWhile (· == '0')).reverse
    sign ++ whole ++ "." ++ String.ofList fraction ++ "s"

/-- The nanoseconds of a unit.  Microseconds may be written with U+00B5. -/
def unitNanos? (unit : List Char) : Option Nat :=
  match unit with
  | ['h'] => some 3600000000000
  | ['m'] => some 60000000000
  | ['s'] => some 1000000000
  | ['m', 's'] => some 1000000
  | ['u', 's'] => some 1000
  | ['\u00b5', 's'] => some 1000
  | ['n', 's'] => some 1
  | _ => none

/-- The digits of a fraction that are read. -/
def fractionDigits : Nat := 18

/-- What a component is split into: digits, digits after a point, the unit, and
the text that follows. -/
structure Component where
  whole : List Char
  fraction : List Char
  unit : List Char
  rest : List Char

/-- A unit ends before the next digit or point. -/
def inUnit (c : Char) : Bool := !(Number.isDigit c || c == '.')

/-- The first component of a text. -/
def Component.split (text : List Char) : Component :=
  let whole := text.takeWhile Number.isDigit
  let (fraction, after) := match text.dropWhile Number.isDigit with
    | '.' :: after => (after.takeWhile Number.isDigit, after.dropWhile Number.isDigit)
    | after => ([], after)
  ⟨whole, fraction, after.takeWhile inUnit, after.dropWhile inUnit⟩

/-- The nanoseconds of a component, its fraction cut off after `fractionDigits`
digits and truncated to whole nanoseconds. -/
def Component.nanos? (c : Component) : Option Nat :=
  if c.whole.isEmpty ∧ c.fraction.isEmpty then none
  else
    (unitNanos? c.unit).map fun unit =>
      let digits := c.fraction.take fractionDigits
      let whole := (Number.ofDigits 10 Number.digitValue? 0 c.whole).getD 0
      let fraction := (Number.ofDigits 10 Number.digitValue? 0 digits).getD 0
      whole * unit + fraction * unit / Nat.pow 10 digits.length

theorem length_dropWhile_le {α : Type} (p : α → Bool) (l : List α) :
    (l.dropWhile p).length ≤ l.length :=
  (List.dropWhile_sublist p).length_le

/-- A component with a unit is not empty. -/
theorem Component.length_rest_lt {text : List Char}
    (h : (Component.split text).nanos? ≠ none) :
    (Component.split text).rest.length < text.length := by
  have hunit : (Component.split text).unit ≠ [] := by
    intro hnil
    apply h
    unfold Component.nanos?
    rw [hnil]
    simp [unitNanos?]
  have key : ∀ after : List Char, after.takeWhile inUnit ≠ [] →
      (after.dropWhile inUnit).length < after.length := by
    intro after hne
    have := congrArg List.length (List.takeWhile_append_dropWhile (p := inUnit) (l := after))
    have hpos := List.length_pos_iff.mpr hne
    simp only [List.length_append] at this
    omega
  have hafter : ∀ after : List Char, after.length ≤ text.length →
      after.takeWhile inUnit ≠ [] → (after.dropWhile inUnit).length < text.length := by
    intro after hle hne
    exact Nat.lt_of_lt_of_le (key after hne) hle
  have hdrop := length_dropWhile_le Number.isDigit text
  unfold Component.split at hunit ⊢
  revert hunit
  split
  rename_i fraction after heq
  intro hunit
  refine hafter after ?_ hunit
  split at heq
  · rename_i tail htail
    cases heq
    have := length_dropWhile_le Number.isDigit tail
    rw [htail] at hdrop
    simp only [List.length_cons] at hdrop
    omega
  · cases heq
    exact hdrop

/-- The sum of the components of a text. -/
def componentSum? (text : List Char) : Option Nat :=
  if text.isEmpty then some 0
  else
    match h : (Component.split text).nanos? with
    | none => none
    | some amount =>
      have : (Component.split text).rest.length < text.length :=
        Component.length_rest_lt (by rw [h]; exact Option.some_ne_none amount)
      (componentSum? (Component.split text).rest).map (amount + ·)
termination_by text.length

/-- The duration a text denotes: an optional sign, then `0` or components. -/
def ofText? (text : List Char) : Option Duration :=
  let (negative, body) := match text with
    | '-' :: body => (true, body)
    | '+' :: body => (false, body)
    | body => (false, body)
  if body = ['0'] then some zero
  else if body.isEmpty then none
  else
    match componentSum? body with
    | none => none
    | some total => ofNanos? (if negative then -(total : Int) else total)

end Duration

end EmbeddedExpr.Time
