import EmbeddedExpr.Proofs.Number.Rounding

/-!
# The exact value of a double

The fields of the word of a finite double spell the rational
`±significand * 2 ^ (shift - 1074)`, and an infinity is below or above every rational, so a
double other than NaN is one of the extended rationals (`Double.value`).  Doubles are compared
by whole numbers of units, and this is the order of their values (`order?_eq`).
-/

namespace EmbeddedExpr

/-- A rational or one of the two infinities. -/
abbrev Extended := WithBot (WithTop ℚ)

/-- A rational among the extended ones. -/
def Extended.ofRat (q : ℚ) : Extended := ((q : WithTop ℚ) : WithBot (WithTop ℚ))

namespace Extended

theorem ofRat_lt_ofRat {p q : ℚ} : ofRat p < ofRat q ↔ p < q := by
  rw [ofRat, ofRat, WithBot.coe_lt_coe, WithTop.coe_lt_coe]

theorem ofRat_inj {p q : ℚ} : ofRat p = ofRat q ↔ p = q := by
  rw [ofRat, ofRat, WithBot.coe_inj, WithTop.coe_inj]

theorem bot_lt_ofRat (q : ℚ) : ⊥ < ofRat q := WithBot.bot_lt_coe _

theorem ofRat_lt_top (q : ℚ) : ofRat q < ⊤ := WithBot.coe_lt_coe.mpr (WithTop.coe_lt_top q)

theorem cmp_ofRat_intCast (m n : ℤ) : cmp (ofRat m) (ofRat n) = compare m n := by
  rw [← cmp_eq_compare]
  apply StrictMono.cmp_map_eq (f := fun n : ℤ => ofRat n)
  intro m n h
  exact ofRat_lt_ofRat.mpr (Int.cast_lt.mpr h)

end Extended

namespace Double

/-- The rational that the fields of a finite double spell. -/
def rational (x : Double) : ℚ :=
  (if x.isNegative then -1 else 1) * x.significand * 2 ^ (x.shift - 1074 : ℤ)

/-- The number that a double other than NaN is. -/
def value (x : Double) : Extended :=
  if x.isFinite then .ofRat x.rational else if x.isNegative then ⊥ else ⊤

variable {x y : Double}

theorem value_of_finite (h : x.isFinite = true) : x.value = .ofRat x.rational := by
  rw [value, if_pos h]

theorem isNaN_of_finite (h : x.isFinite = true) : x.isNaN = false := by
  have hexponent : x.exponentField ≠ 2047 := by simpa [isFinite] using h
  simp [isNaN, hexponent]

theorem cast_scaled (x : Double) : (x.scaled : ℚ) = x.rational * 2 ^ (1074 : ℤ) := by
  have hpow : (2 : ℚ) ^ (x.shift - 1074 : ℤ) * 2 ^ (1074 : ℤ) = 2 ^ x.shift := by
    rw [← zpow_add₀ two_ne_zero, sub_add_cancel, zpow_natCast]
  rw [scaled, units_eq, rational, mul_assoc, hpow]
  split
  · push_cast
    ring
  · push_cast
    ring

theorem cast_unitsPerOne : ((unitsPerOne : ℕ) : ℚ) = 2 ^ (1074 : ℤ) := by
  obtain ⟨top, hunits, htop⟩ := Number.RoundingInterval.unitsPerOne_eq
  rw [hunits, ← htop, zpow_natCast]
  push_cast
  rfl

/-- A finite double is as many units as its rational says. -/
theorem rational_eq_intCast_iff {n : ℤ} :
    x.rational = n ↔ x.scaled = n * (unitsPerOne : ℤ) := by
  have hpow : (2 : ℚ) ^ (1074 : ℤ) ≠ 0 := by positivity
  rw [← Int.cast_inj (α := ℚ), cast_scaled, Int.cast_mul, Int.cast_natCast, cast_unitsPerOne]
  exact (mul_left_inj' hpow).symm

theorem intCast_lt_rational_iff {n : ℤ} :
    (n : ℚ) < x.rational ↔ n * (unitsPerOne : ℤ) < x.scaled := by
  have hpow : (0 : ℚ) < 2 ^ (1074 : ℤ) := by positivity
  rw [← Int.cast_lt (R := ℚ), cast_scaled, Int.cast_mul, Int.cast_natCast, cast_unitsPerOne]
  exact (mul_lt_mul_iff_left₀ hpow).symm

theorem rational_lt_intCast_iff {n : ℤ} :
    x.rational < n ↔ x.scaled < n * (unitsPerOne : ℤ) := by
  have hpow : (0 : ℚ) < 2 ^ (1074 : ℤ) := by positivity
  rw [← Int.cast_lt (R := ℚ), cast_scaled, Int.cast_mul, Int.cast_natCast, cast_unitsPerOne]
  exact (mul_lt_mul_iff_left₀ hpow).symm

/-! ### Infinities -/

/-- A double that is neither finite nor NaN has one magnitude. -/
theorem fields_of_not_finite (hnan : x.isNaN = false) (h : x.isFinite = false) :
    x.significand = 0x10000000000000 ∧ x.shift = 2046 := by
  have hexponent : x.exponentField = 2047 := by simpa [isFinite] using h
  have hfraction : x.fractionField = 0 := by simpa [isNaN, hexponent] using hnan
  rw [significand, shift, hexponent, hfraction]
  exact ⟨rfl, rfl⟩

theorem units_lt_of_not_finite (hx : x.isFinite = true) (hnan : y.isNaN = false)
    (hy : y.isFinite = false) : x.units < y.units := by
  obtain ⟨hsignificand, hshift⟩ := fields_of_not_finite hnan hy
  have hle : 2 * 2 ^ x.shift ≤ 2 ^ y.shift := by
    have hfinite := shift_le hx
    rw [← pow_succ']
    exact Nat.pow_le_pow_right two_pos (by omega)
  have hpos : 0 < 2 ^ x.shift := by positivity
  have hlt := Nat.mul_lt_mul_of_pos_right x.significand_lt hpos
  rw [units_eq, units_eq, hsignificand]
  omega

theorem units_eq_of_not_finite (hxnan : x.isNaN = false) (hx : x.isFinite = false)
    (hynan : y.isNaN = false) (hy : y.isFinite = false) : x.units = y.units := by
  obtain ⟨hxsignificand, hxshift⟩ := fields_of_not_finite hxnan hx
  obtain ⟨hysignificand, hyshift⟩ := fields_of_not_finite hynan hy
  rw [units_eq, units_eq, hxsignificand, hxshift, hysignificand, hyshift]

theorem units_pos_of_not_finite (hnan : x.isNaN = false) (h : x.isFinite = false) :
    0 < x.units := by
  rw [units_eq, (fields_of_not_finite hnan h).1]
  positivity

/-! ### Order -/

/-- Whole numbers of units are in the order of the numbers they stand for. -/
theorem scaled_lt_scaled_iff (hx : x.isNaN = false) (hy : y.isNaN = false) :
    x.scaled < y.scaled ↔ x.value < y.value := by
  cases hxfinite : x.isFinite <;> cases hyfinite : y.isFinite
  case true.true =>
    have hpos : (0 : ℚ) < 2 ^ (1074 : ℤ) := by positivity
    rw [value_of_finite hxfinite, value_of_finite hyfinite, Extended.ofRat_lt_ofRat,
      ← mul_lt_mul_iff_left₀ hpos, ← cast_scaled, ← cast_scaled, Int.cast_lt]
  case true.false =>
    -- the magnitude of an infinity is above that of every finite double
    have hlt := units_lt_of_not_finite hxfinite hy hyfinite
    rw [value_of_finite hxfinite, value, hyfinite, scaled, scaled]
    cases x.isNegative <;> cases y.isNegative <;> simp [Extended.ofRat_lt_top] <;> omega
  case false.true =>
    have hlt := units_lt_of_not_finite hyfinite hx hxfinite
    rw [value_of_finite hyfinite, value, hxfinite, scaled, scaled]
    cases x.isNegative <;> cases y.isNegative <;> simp [Extended.bot_lt_ofRat] <;> omega
  case false.false =>
    have hsame := units_eq_of_not_finite hx hxfinite hy hyfinite
    have hpos := units_pos_of_not_finite hy hyfinite
    rw [value, value, hxfinite, hyfinite, scaled, scaled, hsame]
    cases x.isNegative <;> cases y.isNegative <;> simp
    omega

theorem compare_scaled (hx : x.isNaN = false) (hy : y.isNaN = false) :
    compare x.scaled y.scaled = cmp x.value y.value := by
  rw [← cmp_eq_compare, cmp, cmp, cmpUsing, cmpUsing]
  simp only [scaled_lt_scaled_iff hx hy, scaled_lt_scaled_iff hy hx]

/-- Two doubles are in the order of their values, unless one of them is NaN. -/
theorem order?_eq (hx : x.isNaN = false) (hy : y.isNaN = false) :
    order? x y = some (cmp x.value y.value) := by
  rw [order?, hx, hy, compare_scaled hx hy]
  rfl

end Double

end EmbeddedExpr
