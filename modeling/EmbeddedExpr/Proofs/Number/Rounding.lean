import EmbeddedExpr.Number.Shortest
import Mathlib

/-!
# Rounding to a double

`Double.ofRatio` finds the highest bit of a quotient, and from it the step in which the
significand counts, and rounds the quotient to a whole number of steps.  A double `x` is
the result for exactly the quotients around it that `RoundingInterval.ofDouble x` holds;
proved here is that each of them rounds to `x` (`Contains.ofRatio`).

Measured in units of the last place of `x`, such a quotient has the significand of `x` as
its nearest integer, and it is rounded in the step of `x`.  The exception is a quotient
just below a power of two: it is rounded one step lower, where the power is the nearest
integer too, and the carry into the exponent gives the same word.
-/

namespace EmbeddedExpr.Double

/-! ### Rounding to an integer -/

/-- `m` is the integer nearest to `t`, the even one if two are. -/
structure Nearest (t : ℚ) (m : ℕ) : Prop where
  low : (m : ℚ) - 1 / 2 ≤ t
  high : t ≤ m + 1 / 2
  even : t = m - 1 / 2 ∨ t = m + 1 / 2 → m % 2 = 0

/-- The nearest integer of a quotient, told without division. -/
theorem Nearest.scaled {num den m : ℕ} (hden : 0 < den) (h : Nearest (num / den) m) :
    2 * m * den ≤ 2 * num + den ∧ 2 * num ≤ (2 * m + 1) * den ∧
      (2 * num + den = 2 * m * den ∨ 2 * num = (2 * m + 1) * den → m % 2 = 0) := by
  have hpos : (0 : ℚ) < den := by exact_mod_cast hden
  refine ⟨?_, ?_, fun htie => h.even (htie.imp (fun heq => ?_) fun heq => ?_)⟩
  · have hscaled := h.low
    rw [le_div_iff₀ hpos] at hscaled
    have hrat : (2 * m * den : ℚ) ≤ 2 * num + den := by linarith
    exact_mod_cast hrat
  · have hscaled := h.high
    rw [div_le_iff₀ hpos] at hscaled
    have hrat : (2 * num : ℚ) ≤ (2 * m + 1) * den := by linarith
    exact_mod_cast hrat
  · have hrat : (2 * num + den : ℚ) = 2 * m * den := by exact_mod_cast heq
    rw [div_eq_iff hpos.ne']
    linarith
  · have hrat : (2 * num : ℚ) = (2 * m + 1) * den := by exact_mod_cast heq
    rw [div_eq_iff hpos.ne']
    linarith

theorem roundHalfEven_eq {num den m : ℕ} (hden : 0 < den) (h : Nearest (num / den) m) :
    roundHalfEven num den = m := by
  obtain ⟨hlow, hhigh, htie⟩ := h.scaled hden
  have hmod := Nat.mod_lt num hden
  have hdiv := Nat.div_add_mod num den
  unfold roundHalfEven
  simp only
  generalize num / den = quotient at *
  generalize num % den = rest at *
  subst hdiv
  -- the integer next to `t` is the quotient or the one above it
  have hle : quotient ≤ m := by
    by_contra hlt
    have hstep : (m + 1) * den ≤ quotient * den := Nat.mul_le_mul_right den (by omega)
    nlinarith
  have hge : m ≤ quotient + 1 := by
    by_contra hlt
    have hstep : (quotient + 2) * den ≤ m * den := Nat.mul_le_mul_right den (by omega)
    nlinarith
  rcases (by omega : m = quotient ∨ m = quotient + 1) with rfl | rfl
  · have hup : (2 * m + 1) * den = 2 * (den * m) + den := by ring
    have hclose : 2 * rest ≤ den := by omega
    by_cases hhalf : 2 * rest = den
    · have heven := htie (.inr (by omega))
      rw [if_neg (by omega), if_neg (by omega), heven, Nat.add_zero]
    · rw [if_pos (by omega)]
  · have hdown : 2 * (quotient + 1) * den = 2 * (den * quotient) + 2 * den := by ring
    have hclose : den ≤ 2 * rest := by omega
    by_cases hhalf : 2 * rest = den
    · have heven := htie (.inl (by omega))
      rw [if_neg (by omega), if_neg (by omega)]
      omega
    · rw [if_neg (by omega), if_pos (by omega)]

/-! ### The highest bit of a quotient -/

theorem pow_le_iff_reaches {num den : ℕ} (hden : 0 < den) (e : ℤ) :
    (if 0 ≤ e then decide (den <<< e.toNat ≤ num) else decide (den ≤ num <<< (-e).toNat)) = true ↔
      (2 : ℚ) ^ e ≤ num / den := by
  have hpos : (0 : ℚ) < den := by exact_mod_cast hden
  by_cases he : 0 ≤ e
  · obtain ⟨n, rfl⟩ := Int.eq_ofNat_of_zero_le he
    rw [if_pos he, decide_eq_true_iff, Nat.shiftLeft_eq, Int.toNat_natCast, zpow_natCast,
      le_div_iff₀ hpos, mul_comm]
    exact_mod_cast Iff.rfl
  · obtain ⟨n, hn⟩ := Int.eq_ofNat_of_zero_le (by omega : 0 ≤ -e)
    obtain rfl : e = -(n : ℤ) := by omega
    have hpow : (0 : ℚ) < 2 ^ n := by positivity
    rw [if_neg he, decide_eq_true_iff, Nat.shiftLeft_eq, neg_neg, Int.toNat_natCast, zpow_neg,
      zpow_natCast, le_div_iff₀ hpos, inv_mul_le_iff₀ hpow, mul_comm]
    exact_mod_cast Iff.rfl

/-- `leadingExponent` is the exponent of the power of two at or next below a quotient. -/
theorem leadingExponent_spec {num den : ℕ} (hnum : 0 < num) (hden : 0 < den) :
    (2 : ℚ) ^ leadingExponent num den ≤ num / den ∧
      (num / den : ℚ) < 2 ^ (leadingExponent num den + 1) := by
  have hposNum : (0 : ℚ) < num := by exact_mod_cast hnum
  have hposDen : (0 : ℚ) < den := by exact_mod_cast hden
  have hnumLow : ((2 : ℚ) ^ (num.log2 : ℤ)) ≤ num := by
    exact_mod_cast Nat.log2_self_le hnum.ne'
  have hnumHigh : (num : ℚ) < 2 ^ ((num.log2 : ℤ) + 1) := by
    exact_mod_cast Nat.lt_log2_self (n := num)
  have hdenLow : ((2 : ℚ) ^ (den.log2 : ℤ)) ≤ den := by
    exact_mod_cast Nat.log2_self_le hden.ne'
  have hdenHigh : (den : ℚ) < 2 ^ ((den.log2 : ℤ) + 1) := by
    exact_mod_cast Nat.lt_log2_self (n := den)
  have hhigh : (num / den : ℚ) < 2 ^ ((num.log2 : ℤ) - den.log2 + 1) := by
    rw [div_lt_iff₀ hposDen]
    calc (num : ℚ) < 2 ^ ((num.log2 : ℤ) + 1) := hnumHigh
      _ = 2 ^ ((num.log2 : ℤ) - den.log2 + 1) * 2 ^ (den.log2 : ℤ) := by
          rw [← zpow_add₀ two_ne_zero]
          congr 1
          ring
      _ ≤ 2 ^ ((num.log2 : ℤ) - den.log2 + 1) * den := by gcongr
  have hlow : (2 : ℚ) ^ ((num.log2 : ℤ) - den.log2 - 1) ≤ num / den := by
    rw [le_div_iff₀ hposDen]
    calc (2 : ℚ) ^ ((num.log2 : ℤ) - den.log2 - 1) * den
        ≤ 2 ^ ((num.log2 : ℤ) - den.log2 - 1) * 2 ^ ((den.log2 : ℤ) + 1) := by gcongr
      _ = 2 ^ (num.log2 : ℤ) := by
          rw [← zpow_add₀ two_ne_zero]
          congr 1
          ring
      _ ≤ num := hnumLow
  have hreaches := @pow_le_iff_reaches num den hden ((num.log2 : ℤ) - den.log2)
  unfold leadingExponent
  simp only
  by_cases hguess : (2 : ℚ) ^ ((num.log2 : ℤ) - den.log2) ≤ num / den
  · rw [if_pos (hreaches.mpr hguess)]
    exact ⟨hguess, hhigh⟩
  · rw [if_neg (fun h => hguess (hreaches.mp h)), sub_add_cancel]
    exact ⟨hlow, not_le.mp hguess⟩

/-- A quotient lies between two neighbouring powers of two in one way only. -/
theorem leadingExponent_eq {num den : ℕ} (hden : 0 < den) {e : ℤ}
    (hlow : (2 : ℚ) ^ e ≤ num / den) (hhigh : (num / den : ℚ) < 2 ^ (e + 1)) :
    leadingExponent num den = e := by
  have hnum : 0 < num := by
    rcases Nat.eq_zero_or_pos num with rfl | hpos
    · have hpow : (0 : ℚ) < 2 ^ e := by positivity
      simp at hlow
      linarith
    · exact hpos
  obtain ⟨hlow', hhigh'⟩ := leadingExponent_spec hnum hden
  have hle : leadingExponent num den < e + 1 :=
    (zpow_lt_zpow_iff_right₀ one_lt_two).mp (hlow'.trans_lt hhigh)
  have hge : e < leadingExponent num den + 1 :=
    (zpow_lt_zpow_iff_right₀ one_lt_two).mp (hlow.trans_lt hhigh')
  omega

/-! ### Rounding a quotient -/

/-- The significand that a quotient has at a step. -/
theorem roundHalfEven_shifted {num den m : ℕ} (hden : 0 < den) {step : ℤ}
    (h : Nearest (num / den * 2 ^ (-step)) m) :
    (if 0 ≤ step then roundHalfEven num (den <<< step.toNat)
      else roundHalfEven (num <<< (-step).toNat) den) = m := by
  have hpos : (den : ℚ) ≠ 0 := by exact_mod_cast hden.ne'
  by_cases hstep : 0 ≤ step
  · obtain ⟨n, rfl⟩ := Int.eq_ofNat_of_zero_le hstep
    have hratio : (num / den * 2 ^ (-(n : ℤ)) : ℚ) = num / (den * 2 ^ n : ℕ) := by
      rw [zpow_neg, zpow_natCast]
      push_cast
      field_simp
    rw [if_pos hstep, Int.toNat_natCast, Nat.shiftLeft_eq]
    exact roundHalfEven_eq (by positivity) (hratio ▸ h)
  · obtain ⟨n, hn⟩ := Int.eq_ofNat_of_zero_le (by omega : 0 ≤ -step)
    have hratio : (num / den * 2 ^ (-step) : ℚ) = (num * 2 ^ n : ℕ) / den := by
      rw [hn, zpow_natCast]
      push_cast
      ring
    rw [if_neg hstep, hn, Int.toNat_natCast, Nat.shiftLeft_eq]
    exact roundHalfEven_eq hden (hratio ▸ h)

/-- The word of a quotient, given its step and what it rounds to there. -/
theorem magnitudeBits_eq {num den m shift : ℕ} (hnum : 0 < num) (hden : 0 < den)
    (hstep : max (leadingExponent num den - 52) (-1074) = shift - 1074)
    (h : Nearest (num / den * 2 ^ (1074 - shift : ℤ)) m) :
    magnitudeBits num den = min (shift * 0x10000000000000 + m) infinityBits := by
  have hneg : -((shift : ℤ) - 1074) = 1074 - shift := by ring
  have hstored : ((shift : ℤ) - 1074 + 1074).toNat = shift := by omega
  rw [magnitudeBits, if_neg (by omega)]
  simp only [hstep]
  rw [roundHalfEven_shifted hden (hneg ▸ h), hstored]

/-! ### The significand of a double -/

/-- The fraction with its leading bit, if the number has one. -/
def significand (x : Double) : ℕ :=
  if x.exponentField = 0 then x.fractionField else 0x10000000000000 + x.fractionField

/-- How far the significand is shifted from the least unit. -/
def shift (x : Double) : ℕ := x.exponentField - 1

variable {x : Double}

theorem fractionField_lt (x : Double) : x.fractionField < 0x10000000000000 :=
  Nat.mod_lt _ (by decide)

theorem significand_lt (x : Double) : x.significand < 0x20000000000000 := by
  have hfraction := x.fractionField_lt
  unfold significand
  split <;> omega

theorem units_eq (x : Double) : x.units = x.significand * 2 ^ x.shift := by
  unfold units significand shift
  split
  · rename_i hzero
    rw [hzero]
    simp
  · rw [Nat.shiftLeft_eq]

/-- The word of a double without its sign. -/
theorem toBits_mod (x : Double) :
    x.toBits.toNat % 0x8000000000000000 = x.shift * 0x10000000000000 + x.significand := by
  unfold shift significand exponentField fractionField
  split <;> omega

theorem shift_le (hfinite : x.isFinite = true) : x.shift ≤ 2045 := by
  have hexponent : x.exponentField < 2048 := Nat.mod_lt _ (by decide)
  have hne : x.exponentField ≠ 2047 := by simpa [isFinite] using hfinite
  unfold shift
  omega

/-- A finite double is the one of its sign and its magnitude. -/
theorem ofBits_word (x : Double) :
    Float.ofBits (UInt64.ofNat (x.shift * 0x10000000000000 + x.significand +
      if x.isNegative then 0x8000000000000000 else 0)) = x := by
  have hword := x.toBits_mod
  have hlt := x.toBits.toNat_lt
  have hsame : x.shift * 0x10000000000000 + x.significand +
      (if x.isNegative then 0x8000000000000000 else 0) = x.toBits.toNat := by
    unfold isNegative
    by_cases hnegative : 0x8000000000000000 ≤ x.toBits.toNat
    · rw [if_pos (decide_eq_true hnegative)]
      omega
    · rw [if_neg (by simpa using hnegative)]
      omega
  rw [hsame, UInt64.ofNat_toNat, Float.ofBits_toBits]

end EmbeddedExpr.Double

namespace EmbeddedExpr.Number.RoundingInterval

open Double

/-- The rationals in an interval; its ends belong to it if it is closed. -/
def Contains (i : RoundingInterval) (q : ℚ) : Prop :=
  if i.closed then (i.low : ℚ) ≤ q ∧ q ≤ i.high else (i.low : ℚ) < q ∧ q < i.high

theorem Contains.bounds {i : RoundingInterval} {q : ℚ} (h : i.Contains q) :
    (i.low : ℚ) ≤ q ∧ q ≤ i.high := by
  unfold Contains at h
  split at h
  · exact h
  · exact ⟨h.1.le, h.2.le⟩

variable {x : Double}

/-- One in quarters of the unit of `Double.units`. -/
def quarters : ℚ := 2 ^ (1076 : ℤ)

theorem quarters_eq : quarters = 4 * 2 ^ (1074 : ℤ) := by
  rw [quarters, show (1076 : ℤ) = 2 + 1074 by norm_num, zpow_add₀ two_ne_zero]
  norm_num

theorem quarters_pos : 0 < quarters := by
  unfold quarters
  positivity

theorem unitsPerOne_eq : ∃ n : ℕ, unitsPerOne = 2 ^ n ∧ (n : ℤ) = 1074 := by
  obtain ⟨n, hn⟩ : ∃ n : ℕ, n = 1074 := ⟨_, rfl⟩
  refine ⟨n, ?_, congrArg Nat.cast hn⟩
  -- with a variable for the exponent the power is not computed
  unfold unitsPerOne
  rw [← hn]
  exact Nat.pow_eq

theorem unitsPerOne_pos : 0 < unitsPerOne := by
  obtain ⟨n, hn, -⟩ := unitsPerOne_eq
  rw [hn]
  positivity

theorem cast_unitsPerOne : ((4 * unitsPerOne : ℕ) : ℚ) = quarters := by
  obtain ⟨n, hn, hvalue⟩ := unitsPerOne_eq
  rw [quarters_eq, hn, ← hvalue, zpow_natCast]
  push_cast
  ring

/-- How far the interval goes below its centre: a quarter of a unit at a power of two, half
a unit elsewhere. -/
def reach (x : Double) : ℕ :=
  if x.fractionField = 0 ∧ 1 < x.exponentField then 2 ^ x.shift else 2 * 2 ^ x.shift

theorem low_ofDouble (hunits : x.units ≠ 0) :
    ((ofDouble x).low : ℚ) = 4 * (x.significand * 2 ^ x.shift) - reach x := by
  have hpos : 0 < x.significand := by
    rw [units_eq] at hunits
    exact Nat.pos_of_ne_zero (left_ne_zero_of_mul hunits)
  have hle : reach x ≤ 4 * x.units := by
    have hone : 2 ^ x.shift ≤ x.significand * 2 ^ x.shift := Nat.le_mul_of_pos_left _ hpos
    rw [units_eq]
    unfold reach
    split <;> omega
  have hlow : (ofDouble x).low = 4 * x.units - reach x := by
    simp only [ofDouble, reach, shift, Nat.shiftLeft_eq, one_mul]
  rw [hlow, Nat.cast_sub hle, units_eq]
  push_cast
  ring

theorem high_ofDouble (x : Double) :
    ((ofDouble x).high : ℚ) = 4 * (x.significand * 2 ^ x.shift) + 2 * 2 ^ x.shift := by
  have hhigh : (ofDouble x).high = 4 * x.units + 2 * 2 ^ x.shift := by
    simp only [ofDouble, shift, Nat.shiftLeft_eq, one_mul]
  rw [hhigh, units_eq]
  push_cast
  ring

theorem reach_le (x : Double) : (reach x : ℚ) ≤ 2 * 2 ^ x.shift := by
  have hle : reach x ≤ 2 * 2 ^ x.shift := by
    unfold reach
    split <;> omega
  exact_mod_cast hle

/-- What the interval of a double contains rounds to its significand. -/
theorem Contains.nearest (hunits : x.units ≠ 0) {q : ℚ} (h : (ofDouble x).Contains q) :
    Nearest (q / (4 * 2 ^ x.shift)) x.significand := by
  have hgap : (0 : ℚ) < 4 * 2 ^ x.shift := by positivity
  have hreach := reach_le x
  obtain ⟨hlow, hhigh⟩ := h.bounds
  rw [low_ofDouble hunits] at hlow
  rw [high_ofDouble] at hhigh
  refine ⟨?_, ?_, fun htie => ?_⟩
  · rw [le_div_iff₀ hgap]
    linarith
  · rw [div_le_iff₀ hgap]
    linarith
  · have hparity : x.significand % 2 = x.fractionField % 2 := by
      unfold significand
      split <;> omega
    rw [hparity]
    by_contra hodd
    have hopen : (ofDouble x).closed = false := by simpa [ofDouble] using hodd
    have hstrict : ((ofDouble x).low : ℚ) < q ∧ q < (ofDouble x).high := by
      unfold Contains at h
      rwa [hopen] at h
    rw [low_ofDouble hunits, high_ofDouble] at hstrict
    rcases htie with heq | heq
    · rw [div_eq_iff hgap.ne'] at heq
      linarith [hstrict.1]
    · rw [div_eq_iff hgap.ne'] at heq
      linarith [hstrict.2]

/-- Just below a power of two the numbers that round up to it are a quarter away at most. -/
theorem Contains.quarter (hunits : x.units ≠ 0) {q : ℚ} (h : (ofDouble x).Contains q)
    (hpower : x.fractionField = 0) (hshift : 0 < x.shift) :
    (x.significand : ℚ) - 1 / 4 ≤ q / (4 * 2 ^ x.shift) := by
  have hgap : (0 : ℚ) < 4 * 2 ^ x.shift := by positivity
  have hexponent : 1 < x.exponentField := by
    unfold shift at hshift
    omega
  have hreach : (reach x : ℚ) = 2 ^ x.shift := by
    rw [reach, if_pos ⟨hpower, hexponent⟩]
    push_cast
    ring
  have hlow := h.bounds.1
  rw [low_ofDouble hunits, hreach] at hlow
  rw [le_div_iff₀ hgap]
  linarith

/-- A quotient in units of the last place of a double. -/
def inLastPlace (x : Double) (num den : ℕ) : ℚ := num / den * 2 ^ (1074 - x.shift : ℤ)

theorem div_eq_inLastPlace (x : Double) (num den : ℕ) :
    (num / den : ℚ) = inLastPlace x num den * 2 ^ (x.shift - 1074 : ℤ) := by
  rw [inLastPlace, mul_assoc, ← zpow_add₀ two_ne_zero]
  norm_num

theorem quarters_div_eq_inLastPlace (x : Double) (num den : ℕ) :
    (num / den * quarters / (4 * 2 ^ x.shift) : ℚ) = inLastPlace x num den := by
  rw [inLastPlace, quarters_eq, zpow_sub₀ two_ne_zero, zpow_natCast]
  field_simp

theorem leadingExponent_inLastPlace {num den : ℕ} (hden : 0 < den) {e : ℤ}
    (hlow : 2 ^ e ≤ inLastPlace x num den) (hhigh : inLastPlace x num den < 2 ^ (e + 1)) :
    leadingExponent num den = e + (x.shift - 1074) := by
  apply leadingExponent_eq hden
  · rw [div_eq_inLastPlace x, zpow_add₀ two_ne_zero]
    gcongr
  · have hsum : e + (x.shift - 1074) + 1 = e + 1 + (x.shift - 1074) := by ring
    rw [div_eq_inLastPlace x, hsum, zpow_add₀ two_ne_zero]
    gcongr

theorem word_le_infinityBits (hfinite : x.isFinite = true) :
    x.shift * 0x10000000000000 + x.significand ≤ infinityBits := by
  have hshift := shift_le hfinite
  have hsignificand := x.significand_lt
  unfold infinityBits
  omega

/-- A quotient with the leading bit of its significand is rounded in the step of the double. -/
theorem magnitudeBits_normal (hfinite : x.isFinite = true) {num den : ℕ} (hnum : 0 < num)
    (hden : 0 < den) (hnear : Nearest (inLastPlace x num den) x.significand)
    (hnormal : (2 : ℚ) ^ (52 : ℤ) ≤ inLastPlace x num den) :
    magnitudeBits num den = x.shift * 0x10000000000000 + x.significand := by
  have hupper : inLastPlace x num den < 2 ^ (52 + 1 : ℤ) := by
    have hcast : (x.significand : ℚ) + 1 ≤ 0x20000000000000 := by exact_mod_cast x.significand_lt
    have hhigh := hnear.high
    norm_num
    linarith
  have hleading := leadingExponent_inLastPlace hden hnormal hupper
  have hstep : max (leadingExponent num den - 52) (-1074) = x.shift - 1074 := by
    rw [hleading]
    omega
  rw [magnitudeBits_eq hnum hden hstep hnear, Nat.min_eq_left (word_le_infinityBits hfinite)]

/-- A quotient without a leading bit keeps the least step. -/
theorem magnitudeBits_subnormal (hfinite : x.isFinite = true) {num den : ℕ} (hnum : 0 < num)
    (hden : 0 < den) (hnear : Nearest (inLastPlace x num den) x.significand)
    (hsmall : inLastPlace x num den < 2 ^ (52 : ℤ)) (hshift : x.shift = 0) :
    magnitudeBits num den = x.shift * 0x10000000000000 + x.significand := by
  have hleading : leadingExponent num den < -1022 := by
    have hspec := (leadingExponent_spec hnum hden).1
    rw [div_eq_inLastPlace x, hshift] at hspec
    have hlt : (2 : ℚ) ^ leadingExponent num den < 2 ^ (-1022 : ℤ) := by
      calc (2 : ℚ) ^ leadingExponent num den
          ≤ inLastPlace x num den * 2 ^ (((0 : ℕ) : ℤ) - 1074) := hspec
        _ < 2 ^ (52 : ℤ) * 2 ^ (((0 : ℕ) : ℤ) - 1074) := by gcongr
        _ = 2 ^ (-1022 : ℤ) := by
            rw [← zpow_add₀ two_ne_zero]
            norm_num
    exact (zpow_lt_zpow_iff_right₀ one_lt_two).mp hlt
  have hstep : max (leadingExponent num den - 52) (-1074) = x.shift - 1074 := by
    rw [hshift]
    omega
  rw [magnitudeBits_eq hnum hden hstep hnear, Nat.min_eq_left (word_le_infinityBits hfinite)]

/-- Only at a power of two does the interval reach below the leading bit. -/
theorem fractionField_eq_zero {t : ℚ} (hnear : Nearest t x.significand)
    (hsmall : t < 2 ^ (52 : ℤ)) (hshift : x.shift ≠ 0) :
    x.significand = 0x10000000000000 ∧ x.fractionField = 0 := by
  have hsplit : x.significand = 0x10000000000000 + x.fractionField := by
    unfold shift at hshift
    rw [significand, if_neg (by omega)]
  have hlow := hnear.low
  rw [hsplit] at hlow
  norm_num at hlow hsmall
  have hlt : (x.fractionField : ℚ) < 1 := by linarith
  have hnat : x.fractionField < 1 := by exact_mod_cast hlt
  omega

/-- A quotient just below a power of two is rounded up to it in the step below, and the carry
gives the word of the power. -/
theorem magnitudeBits_carry (hfinite : x.isFinite = true) {num den : ℕ} (hnum : 0 < num)
    (hden : 0 < den) (hquarter : (0x10000000000000 : ℚ) - 1 / 4 ≤ inLastPlace x num den)
    (hsmall : inLastPlace x num den < 2 ^ (52 : ℤ)) (hshift : x.shift ≠ 0)
    (hpower : x.significand = 0x10000000000000) :
    magnitudeBits num den = x.shift * 0x10000000000000 + x.significand := by
  have hdouble : (num / den * 2 ^ (1074 - (x.shift - 1 : ℕ) : ℤ) : ℚ) =
      2 * inLastPlace x num den := by
    have hpred : (1074 - (x.shift - 1 : ℕ) : ℤ) = 1 + (1074 - x.shift) := by omega
    rw [inLastPlace, hpred, zpow_add₀ two_ne_zero]
    ring
  have hlow : (2 : ℚ) ^ (51 : ℤ) ≤ inLastPlace x num den := by
    norm_num
    linarith
  have hleading := leadingExponent_inLastPlace hden hlow hsmall
  have hstep : max (leadingExponent num den - 52) (-1074) = (x.shift - 1 : ℕ) - 1074 := by
    rw [hleading]
    omega
  have hnear : Nearest (2 * inLastPlace x num den) 0x20000000000000 := by
    norm_num at hsmall
    refine ⟨?_, ?_, fun _ => rfl⟩
    · push_cast
      linarith
    · push_cast
      linarith
  have hcarry : (x.shift - 1) * 0x10000000000000 + 0x20000000000000 =
      x.shift * 0x10000000000000 + x.significand := by omega
  rw [magnitudeBits_eq hnum hden hstep (hdouble ▸ hnear), hcarry,
    Nat.min_eq_left (word_le_infinityBits hfinite)]

/-- The quotients in the interval of a double, in quarters of the unit, have its word. -/
theorem Contains.magnitudeBits (hfinite : x.isFinite = true) (hunits : x.units ≠ 0)
    {num den : ℕ} (hnum : 0 < num) (hden : 0 < den)
    (h : (ofDouble x).Contains (num / den * quarters)) :
    magnitudeBits num den = x.shift * 0x10000000000000 + x.significand := by
  have hnear := h.nearest hunits
  rw [quarters_div_eq_inLastPlace] at hnear
  by_cases hnormal : (2 : ℚ) ^ (52 : ℤ) ≤ inLastPlace x num den
  · exact magnitudeBits_normal hfinite hnum hden hnear hnormal
  · have hsmall := not_le.mp hnormal
    by_cases hshift : x.shift = 0
    · exact magnitudeBits_subnormal hfinite hnum hden hnear hsmall hshift
    · obtain ⟨hpower, hfraction⟩ := fractionField_eq_zero hnear hsmall hshift
      have hquarter := h.quarter hunits hfraction (Nat.pos_of_ne_zero hshift)
      rw [quarters_div_eq_inLastPlace, hpower] at hquarter
      exact magnitudeBits_carry hfinite hnum hden (by exact_mod_cast hquarter) hsmall hshift hpower

/-- The quotients in the interval of a double round to it. -/
theorem Contains.ofRatio (hfinite : x.isFinite = true) (hunits : x.units ≠ 0)
    {num den : ℕ} (hnum : 0 < num) (hden : 0 < den)
    (h : (ofDouble x).Contains (num / den * quarters)) :
    Double.ofRatio x.isNegative num den = x := by
  rw [Double.ofRatio, h.magnitudeBits hfinite hunits hnum hden, ofBits_word]

end EmbeddedExpr.Number.RoundingInterval
