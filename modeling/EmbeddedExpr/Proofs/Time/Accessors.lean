import EmbeddedExpr.Proofs.Time.Fields

/-!
# Durations in whole units

The whole hours and minutes of a duration are divided out of its word of seconds, without a look
at the nanoseconds beside it.  Nothing is lost by this.  The seconds are a truncated quotient
already, and truncating toward zero twice is truncating once (`tdiv_tdiv`), on both sides of zero.
So hours, minutes and seconds are exact for every duration (`Fields.toInt_seconds_div`).

The milliseconds are divided out of the whole count and have to go into a word of 64 bits.  They are
exact just where they fit it (`toInt_millis_eq_iff`).  What is made of milliseconds always has as
many of them (`millis_ofMillis`), but a duration may be a thousand times as long.
-/

namespace EmbeddedExpr.Time

/-! ### Quotients of quotients -/

/-- Dividing by a unit and then by how many of it make a larger one is dividing by the larger one. -/
theorem tdiv_tdiv (n : Int) {unit : Int} (hunit : 0 ≤ unit) (count : Int) :
    (n.tdiv unit).tdiv count = n.tdiv (unit * count) := by
  have hpositive (m : Int) (hm : 0 ≤ m) : (m.tdiv unit).tdiv count = m.tdiv (unit * count) := by
    have hquotient : 0 ≤ m.tdiv unit := Int.tdiv_nonneg hm hunit
    calc (m.tdiv unit).tdiv count
        = m.tdiv unit / count := Int.tdiv_eq_ediv_of_nonneg hquotient
      _ = m / unit / count := by rw [Int.tdiv_eq_ediv_of_nonneg hm]
      _ = m / (unit * count) := Int.ediv_ediv_of_nonneg hunit
      _ = m.tdiv (unit * count) := (Int.tdiv_eq_ediv_of_nonneg hm).symm
  rcases Int.le_total 0 n with hsign | hsign
  · exact hpositive n hsign
  · -- below zero each quotient is the opposite of one above zero
    have hopposite := hpositive (-n) (Int.neg_nonneg_of_nonpos hsign)
    rw [Int.neg_tdiv, Int.neg_tdiv, Int.neg_tdiv] at hopposite
    exact Int.neg_inj.mp hopposite

namespace Duration

/-! ### Durations -/

section

variable (d : Duration)

theorem seconds_tdiv (count : Int) : d.seconds.tdiv count = d.total.tdiv (nanosPerSecond * count) :=
  tdiv_tdiv d.total (by decide) count

/-- The milliseconds are exact just where they fit their word. -/
theorem toInt_millis_eq_iff : d.millis.toInt = d.total.tdiv 1000000 ↔
    Int64.minValue.toInt ≤ d.total.tdiv 1000000 ∧
      d.total.tdiv 1000000 ≤ Int64.maxValue.toInt := by
  rw [Int64.toInt_minValue, Int64.toInt_maxValue]
  constructor
  · intro hexact
    have hlow := d.millis.le_toInt
    have hhigh := d.millis.toInt_lt
    omega
  · rintro ⟨hlow, hhigh⟩
    exact Int64.toInt_ofInt_of_le hlow (by omega)

end

/-- A duration of so many milliseconds has as many. -/
theorem millis_ofMillis (m : Int64) : (ofMillis m).millis = m := by
  have hwhole : (ofMillis m).total.tdiv 1000000 = m.toInt :=
    Int.mul_tdiv_cancel m.toInt (by decide)
  rw [millis, hwhole, Int64.ofInt_toInt]

/-! ### The fields of durations -/

namespace Fields

/-- Whole hours, toward zero. -/
def hours (f : Fields) : Int64 := f.seconds / 3600

/-- Whole minutes, toward zero. -/
def minutes (f : Fields) : Int64 := f.seconds / 60

/-- Whole milliseconds, toward zero, of which 64 bits are kept. -/
def millis (f : Fields) : Except Overflow Int64 := do
  let n ← f.total
  return Int64.ofInt (n.tdiv 1000000)

/-- A quotient of the word of seconds is one of the count. -/
theorem toInt_seconds_div (d : Duration) {count : Int64} (hcount : count ≠ -1) :
    (d.fields.seconds / count).toInt = d.total.tdiv (nanosPerSecond * count.toInt) := by
  rw [Int64.toInt_div_of_ne_right _ _ hcount, seconds_fields, seconds_tdiv]

theorem millis_fields (d : Duration) : d.fields.millis = .ok d.millis := by
  rw [millis, total_eq, exact_fields]
  rfl

/-- Normalized fields are those of a duration and have its units.  The whole hours, minutes and
seconds are the count divided by the unit and truncated toward zero, and so are the milliseconds just
where the quotient fits a signed word of 64 bits.  What is made of a number of milliseconds has this
number of them. -/
theorem accessors_exact_unless_wrapped (f : Fields) (hf : f.Normalized) (m : Int64) :
    (∃ d : Duration, d.fields = f ∧ f.total = .ok d.total ∧
      (f.hours.toInt = d.hours ∧ d.hours = d.total.tdiv 3600000000000) ∧
      (f.minutes.toInt = d.minutes ∧ d.minutes = d.total.tdiv 60000000000) ∧
      (f.seconds.toInt = d.seconds ∧ d.seconds = d.total.tdiv 1000000000) ∧
      f.millis = .ok d.millis ∧ (d.millis.toInt = d.total.tdiv 1000000 ↔
        Int64.minValue.toInt ≤ d.total.tdiv 1000000 ∧
          d.total.tdiv 1000000 ≤ Int64.maxValue.toInt)) ∧
    (ofMillis m).millis = .ok m ∧ (Duration.ofMillis m).millis = m := by
  obtain ⟨d, rfl⟩ := hf.exists_fields
  constructor
  · have htotal : d.fields.total = .ok d.total := by rw [total_eq, exact_fields]
    have hhours : d.hours = d.total.tdiv 3600000000000 := d.seconds_tdiv 3600
    have hminutes : d.minutes = d.total.tdiv 60000000000 := d.seconds_tdiv 60
    refine ⟨d, rfl, htotal, ⟨?_, hhours⟩, ⟨?_, hminutes⟩, ⟨seconds_fields d, rfl⟩,
      millis_fields d, d.toInt_millis_eq_iff⟩
    · rw [hhours]
      exact toInt_seconds_div d (by decide)
    · rw [hminutes]
      exact toInt_seconds_div d (by decide)
  · refine ⟨?_, millis_ofMillis m⟩
    rw [ofMillis_eq, millis_fields, millis_ofMillis]

/-- The least number of milliseconds that fits. -/
theorem accessors_exact_unless_wrapped_least :
    let f : Fields := ⟨-9223372036854775, -808000000⟩
    f.Normalized ∧ f.hours.toInt = -2562047788015 ∧ f.minutes.toInt = -153722867280912 ∧
      f.seconds.toInt = -9223372036854775 ∧
      (∃ m, f.millis = .ok m ∧ m.toInt = -9223372036854775808) ∧
      (ofMillis Int64.minValue).millis = .ok Int64.minValue := by
  intro f
  have hf : f.Normalized := ⟨by decide, by decide, by decide⟩
  obtain ⟨⟨d, -, htotal, ⟨hhours, hhours'⟩, ⟨hminutes, hminutes'⟩, ⟨hseconds, hseconds'⟩, hmillis,
    hexact⟩, hmade, -⟩ := accessors_exact_unless_wrapped f hf Int64.minValue
  have hcount : d.total = -9223372036854775808000000 :=
    (Except.ok.inj (Eq.trans (by decide) htotal)).symm
  rw [hcount] at hhours' hminutes' hseconds' hexact
  exact ⟨hf, hhours.trans hhours', hminutes.trans hminutes', hseconds.trans hseconds',
    ⟨_, hmillis, hexact.mpr (by decide)⟩, hmade⟩

/-- A millisecond more than fits comes out with the other sign. -/
theorem millis_wrap :
    let f : Fields := ⟨9223372036854775, 808000000⟩
    f.Normalized ∧ f.total = .ok 9223372036854775808000000 ∧ f.millis = .ok Int64.minValue ∧
      Int64.minValue.toInt ≠ Int.tdiv 9223372036854775808000000 1000000 := by
  intro f
  exact ⟨⟨by decide, by decide, by decide⟩, by decide, by decide, by decide⟩

end Fields

end Duration

end EmbeddedExpr.Time
