import EmbeddedExpr.Proofs.Number.Decimal
import EmbeddedExpr.Proofs.Number.Integers

/-!
# Decimals are read as a nearest double

A quotient is rounded to a whole number of steps, and it is half a step away from it at most
(`Rounded`).  The doubles that are not whole numbers of the step are all nearer to zero than the
quotient and than `2 ^ 52` steps, which is a whole number of them.  So no double is nearer to the
quotient than the one it is rounded to (`Rounded.isNearest`).  Decimals are rounded so if they are
below `2 ^ 1023` (`rounded_toDouble`), and from there on they are read as doubles that are as large
or as infinities (`le_units_toDouble`).

Rounding does not carry a number past a whole number in front of it, but it may carry it to the next
one.  It does not do so if the next one is farther away than the number's part in `2 ^ 53`
(`Rounded.truncate_eq`).
-/

namespace EmbeddedExpr.Double

/-- No finite double is nearer to the number. -/
structure IsNearest (x : Double) (q : ℚ) : Prop where
  finite : x.isFinite = true
  nearest : ∀ y : Double, y.isFinite = true → |x.rational - q| ≤ |y.rational - q|

/-- The factor that a sign stands for. -/
def signFactor (negative : Bool) : ℚ := if negative then -1 else 1

/-- The double is the number of units, a whole number of steps, that is nearest to `t`.  Unless the
step is a single unit, `t` is `2 ^ 52` steps at least. -/
structure Rounded (x : Double) (negative : Bool) (t : ℚ) : Prop where
  finite : x.isFinite = true
  sign : x.isNegative = negative
  steps : ∃ m shift : ℕ, x.units = m * 2 ^ shift ∧ |(m * 2 ^ shift - t : ℚ)| ≤ 2 ^ shift / 2 ∧
    (shift = 0 ∨ 2 ^ 52 * 2 ^ shift ≤ t)

/-! ### Nearest doubles -/

/-- Half a step away is as near as a whole number of steps can be. -/
theorem abs_sub_le_of_half {m : ℕ} {step t : ℚ} (hstep : 0 < step)
    (h : |m * step - t| ≤ step / 2) (k : ℤ) : |m * step - t| ≤ |k * step - t| := by
  rcases eq_or_ne (k : ℤ) m with hk | hk
  · rw [hk, Int.cast_natCast]
  · have hapart : (1 : ℚ) ≤ |(m : ℚ) - k| := by
      have hint : 1 ≤ |(m : ℤ) - k| := Int.one_le_abs (sub_ne_zero.mpr hk.symm)
      exact_mod_cast hint
    have hdistance : step ≤ |m * step - k * step| := by
      rw [← sub_mul, abs_mul, abs_of_pos hstep]
      exact le_mul_of_one_le_left hstep.le hapart
    have htriangle : |m * step - k * step| ≤ |m * step - t| + |k * step - t| := by
      rw [abs_sub_comm (k * step) t]
      exact abs_sub_le _ _ _
    linarith

theorem signFactor_mul_self (negative : Bool) : signFactor negative * signFactor negative = 1 := by
  cases negative <;> norm_num [signFactor]

theorem abs_signFactor_mul (negative : Bool) (q : ℚ) : |signFactor negative * q| = |q| := by
  cases negative <;> simp [signFactor]

theorem unitsPerOne_cast_pos : (0 : ℚ) < (unitsPerOne : ℕ) :=
  Nat.cast_pos.mpr Number.RoundingInterval.unitsPerOne_pos

theorem rational_eq_units (x : Double) :
    x.rational = signFactor x.isNegative * x.units / (unitsPerOne : ℕ) := by
  rw [eq_div_iff unitsPerOne_cast_pos.ne', cast_unitsPerOne, ← cast_scaled, scaled, signFactor]
  split
  · rw [Int.cast_neg, Int.cast_natCast, neg_one_mul]
  · rw [Int.cast_natCast, one_mul]

theorem abs_rational (x : Double) : |x.rational| = x.units / (unitsPerOne : ℕ) := by
  rw [rational_eq_units, mul_div_assoc, abs_signFactor_mul, abs_of_nonneg]
  exact div_nonneg (Nat.cast_nonneg _) (Nat.cast_nonneg _)

/-- The distance of a double from a number of units, with the sign of the number moved to the
double. -/
theorem abs_rational_sub (x : Double) (negative : Bool) (t : ℚ) :
    |x.rational - signFactor negative * (t / (unitsPerOne : ℕ))| =
      |signFactor negative * signFactor x.isNegative * x.units - t| / (unitsPerOne : ℕ) := by
  have hself := signFactor_mul_self negative
  have hsplit : x.rational - signFactor negative * (t / (unitsPerOne : ℕ)) =
      signFactor negative *
        ((signFactor negative * signFactor x.isNegative * x.units - t) / (unitsPerOne : ℕ)) := by
    rw [rational_eq_units]
    linear_combination (-(signFactor x.isNegative * x.units / (unitsPerOne : ℕ))) * hself
  rw [hsplit, abs_signFactor_mul, abs_div, abs_of_pos unitsPerOne_cast_pos]

/-- The double that a number is rounded to is a nearest one. -/
theorem Rounded.isNearest {x : Double} {negative : Bool} {t : ℚ} (h : Rounded x negative t)
    (ht : 0 ≤ t) : IsNearest x (signFactor negative * (t / (unitsPerOne : ℕ))) := by
  obtain ⟨m, shift, hunits, hhalf, hleading⟩ := h.steps
  have hstep : (0 : ℚ) < 2 ^ shift := by positivity
  have hwhole := abs_sub_le_of_half hstep hhalf
  refine ⟨h.finite, fun y _ => ?_⟩
  rw [abs_rational_sub, abs_rational_sub, h.sign, signFactor_mul_self, one_mul, hunits]
  push_cast
  refine div_le_div_of_nonneg_right ?_ unitsPerOne_cast_pos.le
  by_cases hsame : y.isNegative = negative
  · rw [hsame, signFactor_mul_self, one_mul, units_eq]
    push_cast
    rcases le_or_gt shift y.shift with hmore | hless
    · -- the other double is a whole number of steps too
      obtain ⟨more, hmore⟩ := Nat.exists_eq_add_of_le hmore
      have hk := hwhole (y.significand * 2 ^ more)
      have hsplit : (y.significand * 2 ^ y.shift : ℚ) =
          ((y.significand * 2 ^ more : ℤ) : ℚ) * 2 ^ shift := by
        rw [hmore, pow_add]
        push_cast
        ring
      rwa [hsplit]
    · -- the other double is below `2 ^ 52` steps
      have hsignificand : (y.significand : ℚ) ≤ 2 ^ 53 := by
        exact_mod_cast y.significand_lt.le
      have hbelow : (y.significand * 2 ^ y.shift : ℚ) ≤ 2 ^ 52 * 2 ^ shift := by
        calc (y.significand * 2 ^ y.shift : ℚ)
            ≤ 2 ^ 53 * 2 ^ y.shift := mul_le_mul_of_nonneg_right hsignificand (by positivity)
          _ = 2 ^ 52 * 2 ^ (y.shift + 1) := by ring
          _ ≤ 2 ^ 52 * 2 ^ shift :=
              mul_le_mul_of_nonneg_left (pow_le_pow_right₀ one_le_two hless) (by norm_num)
      have hlead : (2 ^ 52 * 2 ^ shift : ℚ) ≤ t := hleading.resolve_left (by omega)
      have hk := hwhole (2 ^ 52)
      rw [Int.cast_pow, Int.cast_ofNat] at hk
      refine hk.trans ?_
      rw [abs_of_nonpos (sub_nonpos.mpr hlead), abs_of_nonpos (sub_nonpos.mpr (hbelow.trans hlead))]
      exact neg_le_neg (sub_le_sub_right hbelow t)
  · -- zero is between the other double and the number
    have hother : signFactor negative * signFactor y.isNegative = -1 := by
      rw [Bool.eq_not_of_ne hsame]
      cases negative <;> norm_num [signFactor]
    have hnonneg : (0 : ℚ) ≤ y.units := Nat.cast_nonneg _
    have hk := hwhole 0
    rw [Int.cast_zero, zero_mul, zero_sub, abs_neg, abs_of_nonneg ht] at hk
    rw [hother, neg_one_mul, ← neg_add', abs_neg, abs_of_nonneg (add_nonneg hnonneg ht)]
    exact hk.trans (le_add_of_nonneg_left hnonneg)

/-! ### Rounding a quotient -/

theorem exists_nearest {t : ℚ} (ht : 0 ≤ t) : ∃ m : ℕ, Nearest t m := by
  have hfloor : (⌊t⌋₊ : ℚ) ≤ t := Nat.floor_le ht
  have hnext : t < ⌊t⌋₊ + 1 := Nat.lt_floor_add_one t
  rcases lt_trichotomy (t - ⌊t⌋₊) (1 / 2) with hless | hhalf | hmore
  · refine ⟨⌊t⌋₊, by linarith, by linarith, ?_⟩
    rintro (htie | htie) <;> linarith
  · rcases Nat.mod_two_eq_zero_or_one ⌊t⌋₊ with heven | hodd
    · exact ⟨⌊t⌋₊, by linarith, by linarith, fun _ => heven⟩
    · refine ⟨⌊t⌋₊ + 1, ?_, ?_, fun _ => by omega⟩ <;>
      · push_cast
        linarith
  · refine ⟨⌊t⌋₊ + 1, ?_, ?_, ?_⟩ <;> push_cast
    · linarith
    · linarith
    · rintro (htie | htie) <;> linarith

theorem Nearest.abs_sub_le {t : ℚ} {m : ℕ} (h : Nearest t m) : |(m : ℚ) - t| ≤ 1 / 2 :=
  abs_le.mpr ⟨by linarith [h.high], by linarith [h.low]⟩

/-- A nearest integer is on the same side of every integer. -/
theorem Nearest.le_of_le {t : ℚ} {m k : ℕ} (h : Nearest t m) (hk : (k : ℚ) ≤ t) : k ≤ m := by
  have hlt : (k : ℚ) < m + 1 := by linarith [h.high]
  exact Nat.lt_succ_iff.mp (by exact_mod_cast hlt)

theorem Nearest.ge_of_le {t : ℚ} {m k : ℕ} (h : Nearest t m) (hk : t ≤ k) : m ≤ k := by
  have hlt : (m : ℚ) < k + 1 := by linarith [h.low]
  exact Nat.lt_succ_iff.mp (by exact_mod_cast hlt)

/-- A quotient in steps and in units. -/
theorem mul_unitsPerOne_eq_steps (t : ℚ) (shift : ℕ) :
    t * (unitsPerOne : ℕ) = t * 2 ^ (1074 - shift : ℤ) * 2 ^ shift := by
  rw [cast_unitsPerOne, mul_assoc, ← zpow_natCast, ← zpow_add₀ two_ne_zero, sub_add_cancel]

/-- The step of a quotient, the steps that it is rounded to and the powers of two around it. -/
theorem magnitudeBits_steps {num den : ℕ} (hnum : 0 < num) (hden : 0 < den) :
    ∃ m shift : ℕ, (shift : ℤ) = max (leadingExponent num den + 1022) 0 ∧
      Nearest (num / den * 2 ^ (1074 - shift : ℤ)) m ∧
      magnitudeBits num den = min (shift * 0x10000000000000 + m) infinityBits ∧
      (2 : ℚ) ^ (leadingExponent num den + (1074 - shift) : ℤ) ≤
        num / den * 2 ^ (1074 - shift : ℤ) ∧
      (num / den * 2 ^ (1074 - shift : ℤ) : ℚ) <
        2 ^ (leadingExponent num den + 1 + (1074 - shift) : ℤ) := by
  obtain ⟨shift, hshift⟩ : ∃ shift : ℕ,
      max (leadingExponent num den - 52) (-1074) = shift - 1074 :=
    ⟨(max (leadingExponent num den - 52) (-1074) + 1074).toNat, by omega⟩
  have hnonneg : (0 : ℚ) ≤ num / den * 2 ^ (1074 - shift : ℤ) := by positivity
  obtain ⟨m, hm⟩ := exists_nearest hnonneg
  obtain ⟨hlow, hhigh⟩ := leadingExponent_spec hnum hden
  have hscale : (0 : ℚ) < 2 ^ (1074 - shift : ℤ) := by positivity
  refine ⟨m, shift, by omega, hm, magnitudeBits_eq hnum hden hshift hm, ?_, ?_⟩
  · rw [zpow_add₀ two_ne_zero]
    exact mul_le_mul_of_nonneg_right hlow hscale.le
  · rw [zpow_add₀ two_ne_zero]
    exact mul_lt_mul_of_pos_right hhigh hscale

/-- Half a unit at most is rounded to zero. -/
theorem rounded_zero (negative : Bool) (den : ℕ) {t : ℚ} (hnonneg : 0 ≤ t) (hhalf : t ≤ 1 / 2) :
    Rounded (ofRatio negative 0 den) negative t := by
  have hword : ofRatio negative 0 den =
      Float.ofBits (UInt64.ofNat (0 + if negative then 0x8000000000000000 else 0)) := by
    rw [ofRatio, magnitudeBits, if_pos (.inl rfl)]
  obtain ⟨hfinite, hsign, hexponent, hfraction⟩ := fields_ofBits negative (by decide) hword
  refine ⟨hfinite, hsign, 0, 0, ?_, ?_, .inl rfl⟩
  · rw [units, if_pos hexponent, hfraction]
    rfl
  · rwa [Nat.cast_zero, zero_mul, zero_sub, abs_neg, abs_of_nonneg hnonneg, pow_zero]

/-- Quotients below `2 ^ 1023` are rounded to a whole number of steps. -/
theorem rounded_ofRatio (negative : Bool) (num : ℕ) {den : ℕ} (hden : 0 < den)
    (hlt : (num / den : ℚ) < 2 ^ (1023 : ℤ)) :
    Rounded (ofRatio negative num den) negative (num / den * (unitsPerOne : ℕ)) := by
  rcases Nat.eq_zero_or_pos num with rfl | hnum
  · rw [Nat.cast_zero, zero_div, zero_mul]
    exact rounded_zero negative den le_rfl (by norm_num)
  have hexponent : leadingExponent num den < 1023 :=
    (zpow_lt_zpow_iff_right₀ one_lt_two).mp ((leadingExponent_spec hnum hden).1.trans_lt hlt)
  obtain ⟨m, shift, hshift, hm, hbits, hlead, hnext⟩ := magnitudeBits_steps hnum hden
  have hhalf : |(m : ℚ) * 2 ^ shift - num / den * (unitsPerOne : ℕ)| ≤ 2 ^ shift / 2 := by
    have hpow : (0 : ℚ) < 2 ^ shift := by positivity
    rw [mul_unitsPerOne_eq_steps _ shift, ← sub_mul, abs_mul, abs_of_pos hpow]
    have hclose := mul_le_mul_of_nonneg_right hm.abs_sub_le hpow.le
    linarith
  have hmost {k : ℕ} (hk : leadingExponent num den + 1 + (1074 - shift) ≤ k) : m ≤ 2 ^ k := by
    refine hm.ge_of_le (hnext.le.trans ?_)
    rw [Nat.cast_pow, Nat.cast_ofNat, ← zpow_natCast]
    exact zpow_le_zpow_right₀ one_le_two hk
  have hmax : m ≤ 2 ^ 53 := hmost (by omega)
  have hfits : shift * 0x10000000000000 + m ≤ infinityBits := by
    unfold infinityBits
    omega
  have hword : ofRatio negative num den = Float.ofBits (UInt64.ofNat (shift * 0x10000000000000 + m +
      if negative then 0x8000000000000000 else 0)) := by
    rw [ofRatio, hbits, Nat.min_eq_left hfits]
  rcases le_or_gt (-1022) (leadingExponent num den) with hnormal | hsmall
  · have hleading : leadingExponent num den + (1074 - shift) = (52 : ℕ) := by omega
    rw [hleading, zpow_natCast] at hlead
    have hmin : 2 ^ 52 ≤ m := hm.le_of_le (by exact_mod_cast hlead)
    obtain ⟨hfinite, hsign, hunits⟩ := ofBits_normal negative hmin hmax (by omega) hword
    refine ⟨hfinite, hsign, m, shift, hunits, hhalf, .inr ?_⟩
    rw [mul_unitsPerOne_eq_steps _ shift]
    exact mul_le_mul_of_nonneg_right hlead (by positivity)
  · have hcarry : m ≤ 2 ^ 52 := hmost (by omega)
    obtain rfl : shift = 0 := by omega
    rcases hcarry.lt_or_eq with hless | rfl
    · rw [Nat.zero_mul, Nat.zero_add] at hword
      have hfield : m < 0x10000000000000 := hless
      have hbelowInfinity : m < infinityBits := hless.trans (by decide)
      obtain ⟨hfinite, hsign, hexponent, hfraction⟩ := fields_ofBits negative hbelowInfinity hword
      refine ⟨hfinite, hsign, m, 0, ?_, hhalf, .inl rfl⟩
      rw [units, if_pos (hexponent.trans (Nat.div_eq_of_lt hfield)), hfraction,
        Nat.mod_eq_of_lt hfield, pow_zero, mul_one]
    · -- the carry gives the least number with a leading bit
      obtain ⟨hfinite, hsign, hunits⟩ :=
        ofBits_normal negative (by decide) (by decide) (by decide) hword
      exact ⟨hfinite, hsign, 2 ^ 52, 0, hunits, hhalf, .inl rfl⟩

/-- From `2 ^ 1023` on quotients are rounded to doubles from there on, or to the infinities. -/
theorem le_units_ofRatio (negative : Bool) {num den : ℕ} (hden : 0 < den)
    (hle : (2 : ℚ) ^ (1023 : ℤ) ≤ num / den)
    (hfinite : (ofRatio negative num den).isFinite = true) :
    (ofRatio negative num den).isNegative = negative ∧
      ∀ e ≤ 2097, 2 ^ e ≤ (ofRatio negative num den).units := by
  have hnum : 0 < num := by
    rcases Nat.eq_zero_or_pos num with rfl | hnum
    · have hpos : (0 : ℚ) < 2 ^ (1023 : ℤ) := by positivity
      rw [Nat.cast_zero, zero_div] at hle
      exact absurd hle hpos.not_ge
    · exact hnum
  have hexponent : 1023 < leadingExponent num den + 1 :=
    (zpow_lt_zpow_iff_right₀ one_lt_two).mp (hle.trans_lt (leadingExponent_spec hnum hden).2)
  obtain ⟨m, shift, hshift, hm, hbits, hlead, -⟩ := magnitudeBits_steps hnum hden
  have hleading : leadingExponent num den + (1074 - shift) = (52 : ℕ) := by omega
  rw [hleading, zpow_natCast] at hlead
  have hmin : 2 ^ 52 ≤ m := hm.le_of_le (by exact_mod_cast hlead)
  have hleast : 2046 * 0x10000000000000 ≤ magnitudeBits num den := by
    rw [hbits]
    refine le_min ?_ (by decide)
    have hsteps : 2045 ≤ shift := by omega
    omega
  rcases (min_le_right _ _ : min _ infinityBits ≤ infinityBits).lt_or_eq with hless | hinfinite
  · rw [← hbits] at hless
    obtain ⟨-, hsign, hfield, -⟩ := fields_ofBits negative hless rfl
    have hlast : (ofRatio negative num den).exponentField = 2046 := by
      refine hfield.trans ?_
      rw [infinityBits] at hless
      omega
    refine ⟨hsign, fun e he => ?_⟩
    obtain ⟨steps, hsteps⟩ : ∃ steps, 2046 - 1 = steps := ⟨_, rfl⟩
    rw [units, if_neg (by rw [hlast]; decide), hlast, Nat.shiftLeft_eq, hsteps]
    calc 2 ^ e ≤ 2 ^ (52 + steps) := Nat.pow_le_pow_right two_pos (by omega)
      _ = 2 ^ 52 * 2 ^ steps := pow_add 2 52 steps
      _ ≤ _ := Nat.mul_le_mul_right _ (Nat.le_add_right _ _)
  · rw [← hbits] at hinfinite
    rw [ofRatio, hinfinite] at hfinite
    cases negative <;> cases hfinite

/-! ### Rounding a decimal -/

open Number in
/-- Decimals below `2 ^ 1023` are rounded to a whole number of steps. -/
theorem rounded_toDouble {d : DecimalText} (hdigits : AllDigits (d.whole ++ d.fraction))
    (hlt : d.value < 2 ^ (1023 : ℤ)) :
    Rounded d.toDouble d.negative (d.value * (unitsPerOne : ℕ)) := by
  rcases DecimalText.toDouble_cases hdigits with
    ⟨hread, htiny⟩ | ⟨-, -, -, hhuge⟩ | ⟨num, den, hden, hratio, hread⟩
  · have hquarters : (4 * (unitsPerOne : ℕ) : ℚ) = RoundingInterval.quarters := by
      exact_mod_cast RoundingInterval.cast_unitsPerOne
    have hscaled := mul_lt_mul_of_pos_right htiny RoundingInterval.quarters_pos
    have hbelow := hscaled.trans tiny_lt_two
    rw [← hquarters] at hbelow
    rw [hread]
    exact rounded_zero _ _ (mul_nonneg d.value_nonneg unitsPerOne_cast_pos.le) (by linarith)
  · exact absurd (hhuge.trans_lt hlt) (two_pow_le_huge le_rfl).not_gt
  · rw [hread, ← hratio]
    exact rounded_ofRatio d.negative num hden (hratio.trans_lt hlt)

/-! ### Numbers that rounding does not pass -/

/-- A number that is spelled with the bits of a double is not above what a number from there on is
rounded to. -/
theorem Rounded.le_units {x : Double} {negative : Bool} {t : ℚ} (h : Rounded x negative t)
    {bits shift : ℕ} (hbits : bits < 2 ^ 53) (hle : (bits * 2 ^ shift : ℚ) ≤ t) :
    bits * 2 ^ shift ≤ x.units := by
  obtain ⟨m, step, hunits, hhalf, hleading⟩ := h.steps
  have hpow : (0 : ℚ) < 2 ^ step := by positivity
  have hwhole {k : ℕ} (hk : (k * 2 ^ step : ℚ) ≤ t) : k ≤ m := by
    have hlow := (abs_le.mp hhalf).1
    have hlt : (k : ℚ) * 2 ^ step < (m + 1) * 2 ^ step := by linarith
    exact Nat.lt_succ_iff.mp (by exact_mod_cast lt_of_mul_lt_mul_right hlt hpow.le)
  rw [hunits]
  rcases le_or_gt step shift with hmore | hless
  · -- the number is a whole number of steps
    obtain ⟨more, rfl⟩ := Nat.exists_eq_add_of_le hmore
    have hsteps : bits * 2 ^ (step + more) = bits * 2 ^ more * 2 ^ step := by
      rw [pow_add]
      ring
    have hk : ((bits * 2 ^ more : ℕ) * 2 ^ step : ℚ) ≤ t := by
      refine le_of_eq_of_le ?_ hle
      rw [pow_add]
      push_cast
      ring
    rw [hsteps]
    exact Nat.mul_le_mul_right _ (hwhole hk)
  · have hlead : ((2 ^ 52 : ℕ) * 2 ^ step : ℚ) ≤ t := by
      exact_mod_cast hleading.resolve_left (by omega)
    calc bits * 2 ^ shift ≤ 2 ^ 53 * 2 ^ shift := Nat.mul_le_mul_right _ hbits.le
      _ = 2 ^ 52 * 2 ^ (shift + 1) := by ring
      _ ≤ 2 ^ 52 * 2 ^ step := Nat.mul_le_mul_left _ (Nat.pow_le_pow_right two_pos hless)
      _ ≤ m * 2 ^ step := Nat.mul_le_mul_right _ (hwhole hlead)

/-- A number that is farther away from a bound than its part in `2 ^ 53` is not rounded to it. -/
theorem Rounded.units_lt {x : Double} {negative : Bool} {t : ℚ} (h : Rounded x negative t)
    {bound : ℕ} (hbound : 2 ^ 53 ≤ bound) (hgap : t < 2 ^ 53 * (bound - t)) : x.units < bound := by
  obtain ⟨m, step, hunits, hhalf, hleading⟩ := h.steps
  have hcast : (x.units : ℚ) = m * 2 ^ step := by
    rw [hunits]
    push_cast
    rfl
  rw [← hcast] at hhalf
  have hhigh := (abs_le.mp hhalf).2
  rcases hleading with rfl | hlead
  · -- a bound that is half a unit away is small itself
    by_contra hreached
    have hreached : (bound : ℚ) ≤ x.units := by exact_mod_cast not_lt.mp hreached
    have hbound : (2 ^ 53 : ℚ) ≤ bound := by exact_mod_cast hbound
    rw [pow_zero] at hhigh
    linarith
  · have hlt : (x.units : ℚ) < bound := by linarith
    exact_mod_cast hlt

/-- Decimals from `2 ^ 64` on are read as doubles from there on, or as the infinities. -/
theorem le_units_toDouble {d : Number.DecimalText}
    (hdigits : Number.AllDigits (d.whole ++ d.fraction)) (hle : 2 ^ 64 ≤ d.value)
    (hfinite : d.toDouble.isFinite = true) :
    d.toDouble.isNegative = d.negative ∧ 2 ^ 64 * unitsPerOne ≤ d.toDouble.units := by
  obtain ⟨top, hunits, htop⟩ := Number.RoundingInterval.unitsPerOne_eq
  have hlarge {num den : ℕ} (hden : 0 < den) (h : (2 : ℚ) ^ (1023 : ℤ) ≤ num / den)
      (hread : d.toDouble = ofRatio d.negative num den) :
      d.toDouble.isNegative = d.negative ∧ 2 ^ 64 * unitsPerOne ≤ d.toDouble.units := by
    rw [hread] at hfinite ⊢
    obtain ⟨hsign, hleast⟩ := le_units_ofRatio d.negative hden h hfinite
    refine ⟨hsign, ?_⟩
    rw [hunits, ← pow_add]
    exact hleast _ (by omega)
  rcases lt_or_ge d.value (2 ^ (1023 : ℤ)) with hlt | hge
  · have hrounded := rounded_toDouble hdigits hlt
    have hsteps : ((1 : ℕ) * 2 ^ (64 + top) : ℚ) ≤ d.value * (unitsPerOne : ℕ) := by
      rw [hunits, pow_add]
      push_cast
      rw [one_mul]
      exact mul_le_mul_of_nonneg_right hle (by positivity)
    have hleast := hrounded.le_units (by decide) hsteps
    rw [one_mul, pow_add, ← hunits] at hleast
    exact ⟨hrounded.sign, hleast⟩
  · rcases Number.DecimalText.toDouble_cases hdigits with
      ⟨-, htiny⟩ | ⟨n, hn, hread, -⟩ | ⟨num, den, hden, hratio, hread⟩
    · have hone : (2 : ℚ) ^ 64 < 1 := (hle.trans_lt htiny).trans_le
        (zpow_le_one_of_nonpos₀ (by norm_num) (by norm_num))
      norm_num at hone
    · refine hlarge Nat.one_pos ?_ hread
      have hcast : ((Nat.pow 10 n : ℕ) / (1 : ℕ) : ℚ) = 10 ^ (n : ℤ) := by
        rw [Nat.cast_one, div_one, zpow_natCast]
        exact Nat.cast_pow 10 n
      rw [hcast]
      exact Number.two_pow_le_huge hn
    · exact hlarge hden (by rwa [hratio]) hread

/-! ### Truncation -/

/-- A number without its fraction, toward zero. -/
def wholePart (q : ℚ) : ℤ := if 0 ≤ q then ⌊q⌋ else ⌈q⌉

theorem wholePart_intCast (n : ℤ) : wholePart n = n := by
  rw [wholePart, Int.floor_intCast, Int.ceil_intCast, ite_self]

theorem le_abs_wholePart {q : ℚ} {n : ℕ} (h : (n : ℚ) ≤ |q|) : (n : ℤ) ≤ |wholePart q| := by
  rw [wholePart]
  split
  · rename_i hq
    rw [abs_of_nonneg hq] at h
    exact (Int.le_floor.mpr (by exact_mod_cast h)).trans (le_abs_self _)
  · rename_i hq
    rw [abs_of_neg (not_le.mp hq)] at h
    have hceil : ⌈q⌉ ≤ -(n : ℤ) := by
      apply Int.ceil_le.mpr
      push_cast
      linarith
    exact (le_neg_of_le_neg hceil).trans (neg_le_abs _)

theorem wholePart_signFactor_mul (negative : Bool) {a : ℚ} (ha : 0 ≤ a) :
    wholePart (signFactor negative * a) = if negative then -⌊a⌋ else ⌊a⌋ := by
  cases negative with
  | false => rw [signFactor, if_neg Bool.false_ne_true, one_mul, wholePart, if_pos ha]; rfl
  | true =>
      rw [signFactor, if_pos rfl, neg_one_mul, if_pos rfl]
      rcases ha.eq_or_lt with rfl | hpos
      · simp [wholePart]
      · rw [wholePart, if_neg (by simpa using hpos), Int.ceil_neg]

theorem truncate_eq_floor (x : Double) : x.truncate =
    if x.isNegative then -⌊(x.units / (unitsPerOne : ℕ) : ℚ)⌋
      else ⌊(x.units / (unitsPerOne : ℕ) : ℚ)⌋ := by
  have hfloor : ⌊(x.units / (unitsPerOne : ℕ) : ℚ)⌋ = (x.units : ℤ) / (unitsPerOne : ℕ) :=
    Rat.floor_intCast_div_natCast x.units unitsPerOne
  rw [hfloor, truncate, scaled]
  split
  · rw [Int.neg_tdiv, Int.tdiv_eq_ediv_of_nonneg (Int.natCast_nonneg _)]
  · rw [Int.tdiv_eq_ediv_of_nonneg (Int.natCast_nonneg _)]

theorem truncateWithin?_of_finite {x : Double} (h : x.isFinite = true) (lo hi : ℤ) :
    x.truncateWithin? lo hi =
      if lo ≤ x.truncate ∧ x.truncate < hi then some x.truncate else none := by
  simp [truncateWithin?, isNaN_of_finite h]

/-- Truncating a double truncates the number that it is. -/
theorem truncate_eq_wholePart (x : Double) : x.truncate = wholePart x.rational := by
  rw [truncate_eq_floor, rational_eq_units, mul_div_assoc, wholePart_signFactor_mul]
  positivity

/-- Rounding does not change the whole part of a number whose distance from the next whole number is
more than its part in `2 ^ 53`. -/
theorem Rounded.truncate_eq {x : Double} {negative : Bool} {a : ℚ}
    (h : Rounded x negative (a * (unitsPerOne : ℕ))) (ha : 0 ≤ a)
    (hgap : a < 2 ^ 53 * (⌊a⌋ + 1 - a)) : x.truncate = wholePart (signFactor negative * a) := by
  obtain ⟨n, hn⟩ := Int.eq_ofNat_of_zero_le (Int.floor_nonneg.mpr ha)
  obtain ⟨hfloor, hnext⟩ := Int.floor_eq_iff.mp hn
  obtain ⟨top, hunits, htop⟩ := Number.RoundingInterval.unitsPerOne_eq
  rw [Int.cast_natCast] at hfloor hnext
  rw [hn, Int.cast_natCast] at hgap
  have hpos := unitsPerOne_cast_pos
  have hsmall : n < 2 ^ 53 := by
    have hlt : (n : ℚ) < 2 ^ 53 := by linarith
    exact_mod_cast hlt
  have hreach : n * unitsPerOne ≤ x.units := by
    have hle : (n * 2 ^ top : ℚ) ≤ a * (unitsPerOne : ℕ) := by
      rw [hunits]
      push_cast
      exact mul_le_mul_of_nonneg_right hfloor (by positivity)
    rw [hunits]
    exact h.le_units hsmall hle
  have hbelow : x.units < (n + 1) * unitsPerOne := by
    refine h.units_lt ?_ ?_
    · have hle : 2 ^ 53 ≤ unitsPerOne := by
        rw [hunits]
        exact Nat.pow_le_pow_right two_pos (by omega)
      exact hle.trans (Nat.le_mul_of_pos_left _ n.succ_pos)
    · push_cast
      rw [← sub_mul, ← mul_assoc]
      exact mul_lt_mul_of_pos_right hgap hpos
  have hsame : ⌊(x.units / (unitsPerOne : ℕ) : ℚ)⌋ = ⌊a⌋ := by
    rw [hn, Int.floor_eq_iff, Int.cast_natCast, le_div_iff₀ hpos, div_lt_iff₀ hpos]
    exact ⟨by exact_mod_cast hreach, by exact_mod_cast hbelow⟩
  rw [truncate_eq_floor, hsame, h.sign, wholePart_signFactor_mul negative ha]

end EmbeddedExpr.Double
