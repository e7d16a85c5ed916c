import EmbeddedExpr.Proofs.Number.Exact

/-!
# Integers as doubles

An integer is compared with a double after it has been rounded to one.  It is rounded to a
whole number of steps of its last place, the nearest one (`units_ofInt_near`), and every double
that is not nearer to zero than the integer is such a whole number as well.  Rounding therefore
never carries an integer past a double (`scaled_ofInt_between`); all it can do is to make the two
equal (`order?_ofInt`), and up to `2 ^ 53` it does nothing (`value_ofInt`).  Nor does it carry one
integer past another (`scaled_ofInt_mono`).
-/

namespace EmbeddedExpr.Double

open Float.Model in
/-- A word whose exponent is that of a finite number is the word of its double. -/
theorem toBits_ofBits {w : UInt64} (h : w.toNat / 0x10000000000000 % 0x800 ≠ 2047) :
    (Float.ofBits w).toBits = w := by
  have hvalid : Format.binary64.Valid w.toBitVec := by
    refine ⟨fun hones _ => absurd ?_ h⟩
    have hfield := congrArg BitVec.toNat hones
    simp [UnpackedFloat.unpackExponent, Format.binary64, Nat.shiftRight_eq_div_pow] at hfield
    exact hfield
  exact congrArg Float.toBits (Float.ofBits_toBits (Float.ofModel ⟨w, hvalid⟩))

/-! ### Rounding an integer -/

/-- A quotient is rounded to a whole number that is half a step away at most. -/
theorem roundHalfEven_near {den : ℕ} (num : ℕ) (hden : 0 < den) :
    2 * num ≤ (2 * roundHalfEven num den + 1) * den ∧
      2 * roundHalfEven num den * den ≤ 2 * num + den := by
  have hsum : den * (num / den) + num % den = num := Nat.div_add_mod num den
  have hlt : num % den < den := Nat.mod_lt num hden
  have hparity : num / den % 2 ≤ 1 := by omega
  unfold roundHalfEven
  simp only
  generalize num / den % 2 = parity at *
  generalize num / den = quotient at *
  generalize num % den = rest at *
  subst hsum
  split
  · constructor <;> nlinarith
  · split
    · constructor <;> nlinarith
    · have hhalf : 2 * rest = den := by omega
      constructor <;> nlinarith

/-- The same in steps that the quotient is counted in. -/
theorem roundHalfEven_near_steps {num den magnitude step : ℕ} (hden : 0 < den)
    (hratio : num * step = magnitude * den) :
    2 * magnitude ≤ (2 * roundHalfEven num den + 1) * step ∧
      2 * roundHalfEven num den * step ≤ 2 * magnitude + step := by
  obtain ⟨hbelow, habove⟩ := roundHalfEven_near num hden
  generalize roundHalfEven num den = m at *
  constructor <;> apply Nat.le_of_mul_le_mul_right _ hden
  · calc 2 * magnitude * den = 2 * num * step := by rw [mul_assoc, ← hratio, ← mul_assoc]
      _ ≤ (2 * m + 1) * den * step := Nat.mul_le_mul_right step hbelow
      _ = (2 * m + 1) * step * den := mul_right_comm ..
  · calc 2 * m * step * den = 2 * m * den * step := mul_right_comm ..
      _ ≤ (2 * num + den) * step := Nat.mul_le_mul_right step habove
      _ = (2 * magnitude + step) * den := by linear_combination 2 * hratio

theorem leadingExponent_one {n : ℕ} (hn : n ≠ 0) : leadingExponent n 1 = n.log2 := by
  apply leadingExponent_eq Nat.one_pos
  · rw [Nat.cast_one, div_one, zpow_natCast]
    exact_mod_cast Nat.log2_self_le hn
  · rw [Nat.cast_one, div_one]
    exact_mod_cast Nat.lt_log2_self (n := n)

/-- How far the significand of an integer is shifted from the least unit. -/
def intShift (n : ℕ) : ℕ := n.log2 + 1022

/-- An integer is rounded as a quotient of its value in steps of its last place. -/
theorem magnitudeBits_one {n : ℕ} (hn : n ≠ 0) :
    ∃ num den : ℕ, 0 < den ∧ num * 2 ^ intShift n = n * unitsPerOne * den ∧
      magnitudeBits n 1 =
        min (intShift n * 0x10000000000000 + roundHalfEven num den) infinityBits := by
  obtain ⟨top, hunits, htop⟩ := Number.RoundingInterval.unitsPerOne_eq
  have hstep : max ((n.log2 : ℤ) - 52) (-1074) = n.log2 - 52 := by omega
  have hstored : ((n.log2 : ℤ) - 52 + 1074).toNat = intShift n := by
    unfold intShift
    omega
  rw [magnitudeBits, if_neg (by omega)]
  simp only [leadingExponent_one hn, hstep, hstored]
  rcases le_or_gt 52 n.log2 with hlarge | hsmall
  · -- the bits below the last place are rounded away
    have hdrop : ((n.log2 : ℤ) - 52).toNat = n.log2 - 52 := by omega
    have hshift : intShift n = top + (n.log2 - 52) := by
      unfold intShift
      omega
    refine ⟨n, 2 ^ (n.log2 - 52), by positivity, ?_, ?_⟩
    · rw [hunits, hshift, pow_add, mul_assoc]
    · rw [if_pos (by omega), hdrop, Nat.shiftLeft_eq, one_mul]
  · have hfill : (-((n.log2 : ℤ) - 52)).toNat = 52 - n.log2 := by omega
    have hshift : top = 52 - n.log2 + intShift n := by
      unfold intShift
      omega
    refine ⟨n * 2 ^ (52 - n.log2), 1, Nat.one_pos, ?_, ?_⟩
    · rw [hunits, hshift, pow_add, mul_one, mul_assoc]
    · rw [if_neg (by omega), hfill, Nat.shiftLeft_eq]

/-- The fields of a word below that of the infinity, with a sign. -/
theorem fields_ofBits {w : ℕ} (negative : Bool) (hw : w < infinityBits) {x : Double}
    (hx : x = Float.ofBits (UInt64.ofNat (w + if negative then 0x8000000000000000 else 0))) :
    x.isFinite = true ∧ x.isNegative = negative ∧
      x.exponentField = w / 0x10000000000000 ∧ x.fractionField = w % 0x10000000000000 := by
  have hsign : ∃ sign : ℕ, (if negative then 0x8000000000000000 else 0) = sign * 2 ^ 63 ∧
      sign = negative.toNat := ⟨_, by cases negative <;> rfl, rfl⟩
  obtain ⟨sign, hsign, hvalue⟩ := hsign
  have hle : sign ≤ 1 := hvalue ▸ Bool.toNat_le negative
  rw [infinityBits] at hw
  rw [hsign] at hx
  have hword : (UInt64.ofNat (w + sign * 2 ^ 63)).toNat = w + sign * 2 ^ 63 := by
    apply UInt64.toNat_ofNat_of_lt'
    simp only [UInt64.size]
    omega
  have hbits : x.toBits.toNat = w + sign * 2 ^ 63 := by
    rw [hx, toBits_ofBits, hword]
    rw [hword]
    omega
  have hexponent : x.exponentField = w / 0x10000000000000 := by
    rw [exponentField, hbits]
    omega
  have hnegative : x.isNegative = decide (sign = 1) := by
    rw [isNegative, hbits, decide_eq_decide]
    omega
  refine ⟨?_, ?_, hexponent, ?_⟩
  · rw [isFinite, hexponent, bne_iff_ne]
    omega
  · rw [hnegative, hvalue]
    cases negative <;> rfl
  · rw [fractionField, hbits]
    omega

/-- The double of a significand with its leading bit in place.  A significand rounded up to the
next power of two carries into the exponent. -/
theorem ofBits_normal {shift m : ℕ} (negative : Bool) (hlow : 0x10000000000000 ≤ m)
    (hhigh : m ≤ 0x20000000000000) (hshift : shift < 2045) {x : Double}
    (hx : x = Float.ofBits (UInt64.ofNat (shift * 0x10000000000000 + m +
      if negative then 0x8000000000000000 else 0))) :
    x.isFinite = true ∧ x.isNegative = negative ∧ x.units = m * 2 ^ shift := by
  have hword : shift * 0x10000000000000 + m < infinityBits := by
    rw [infinityBits]
    omega
  obtain ⟨hfinite, hsign, hexponent, hfraction⟩ := fields_ofBits negative hword hx
  refine ⟨hfinite, hsign, ?_⟩
  rw [units_eq, Double.significand, Double.shift, hexponent, hfraction, if_neg (by omega)]
  rcases Nat.lt_or_ge m 0x20000000000000 with hlt | hge
  · congr 2 <;> omega
  · obtain rfl : m = 0x20000000000000 := le_antisymm hhigh hge
    have hrest : 0x10000000000000 +
        (shift * 0x10000000000000 + 0x20000000000000) % 0x10000000000000 = 0x10000000000000 := by
      omega
    have hcarried : (shift * 0x10000000000000 + 0x20000000000000) / 0x10000000000000 - 1 =
        shift + 1 := by
      omega
    rw [hrest, hcarried, pow_succ]
    ring

/-- The leading bit of an integer, in steps of its last place. -/
theorem leadingBit_le {n : ℕ} (hn : n ≠ 0) :
    0x10000000000000 * 2 ^ intShift n ≤ n * unitsPerOne ∧
      n * unitsPerOne ≤ 0x20000000000000 * 2 ^ intShift n := by
  obtain ⟨top, hunits, htop⟩ := Number.RoundingInterval.unitsPerOne_eq
  have hsplit : 0x10000000000000 * 2 ^ intShift n = 2 ^ n.log2 * unitsPerOne := by
    have hexponent : n.log2 + top = 52 + intShift n := by
      unfold intShift
      omega
    rw [hunits, ← pow_add, hexponent, pow_add]
    norm_num
  constructor
  · rw [hsplit]
    exact Nat.mul_le_mul_right _ (Nat.log2_self_le hn)
  · calc n * unitsPerOne ≤ 2 ^ (n.log2 + 1) * unitsPerOne :=
          Nat.mul_le_mul_right _ Nat.lt_log2_self.le
      _ = 2 * (0x10000000000000 * 2 ^ intShift n) := by
          rw [hsplit]
          ring
      _ = 0x20000000000000 * 2 ^ intShift n := by ring

/-- An integer is rounded to a whole number of steps of its last place, half a step away at
most. -/
theorem units_ofInt_near {n : ℤ} (hn : n ≠ 0) (hlt : n.natAbs < 0x20000000000000000) :
    (ofInt n).isFinite = true ∧ (ofInt n).isNegative = decide (n < 0) ∧
      ∃ m : ℕ, 0x10000000000000 ≤ m ∧ (ofInt n).units = m * 2 ^ intShift n.natAbs ∧
        2 * (n.natAbs * unitsPerOne) ≤ (2 * m + 1) * 2 ^ intShift n.natAbs ∧
        2 * m * 2 ^ intShift n.natAbs ≤ 2 * (n.natAbs * unitsPerOne) + 2 ^ intShift n.natAbs := by
  have hne := Int.natAbs_ne_zero.mpr hn
  obtain ⟨num, den, hden, hratio, hword⟩ := magnitudeBits_one hne
  obtain ⟨hbelow, habove⟩ := roundHalfEven_near_steps hden hratio
  obtain ⟨hlead, hnext⟩ := leadingBit_le hne
  have hpow : 0 < 2 ^ intShift n.natAbs := by positivity
  have hlow : 0x10000000000000 ≤ roundHalfEven num den := by
    by_contra hless
    nlinarith
  have hhigh : roundHalfEven num den ≤ 0x20000000000000 := by
    by_contra hmore
    nlinarith
  have hshift : intShift n.natAbs < 2045 := by
    have hlog : n.natAbs.log2 < 65 := (Nat.log2_lt hne).mpr hlt
    unfold intShift
    omega
  have hbits : ofInt n = Float.ofBits (UInt64.ofNat (intShift n.natAbs * 0x10000000000000 +
      roundHalfEven num den + if decide (n < 0) then 0x8000000000000000 else 0)) := by
    have hfits : intShift n.natAbs * 0x10000000000000 + roundHalfEven num den ≤ infinityBits := by
      unfold infinityBits
      omega
    rw [ofInt, ofRatio, hword, Nat.min_eq_left hfits]
  obtain ⟨hfinite, hnegative, hunits⟩ := ofBits_normal _ hlow hhigh hshift hbits
  exact ⟨hfinite, hnegative, _, hlow, hunits, hbelow, habove⟩

/-- No whole number of steps lies between an integer and what it is rounded to. -/
theorem units_ofInt {n : ℤ} (hn : n ≠ 0) (hlt : n.natAbs < 0x20000000000000000) :
    (ofInt n).isFinite = true ∧ (ofInt n).isNegative = decide (n < 0) ∧
      ∃ m : ℕ, 0x10000000000000 ≤ m ∧ (ofInt n).units = m * 2 ^ intShift n.natAbs ∧
        (∀ k, k * 2 ^ intShift n.natAbs ≤ n.natAbs * unitsPerOne → k ≤ m) ∧
        ∀ k, n.natAbs * unitsPerOne ≤ k * 2 ^ intShift n.natAbs → m ≤ k := by
  obtain ⟨hfinite, hnegative, m, hlow, hunits, hbelow, habove⟩ := units_ofInt_near hn hlt
  have hpow : 0 < 2 ^ intShift n.natAbs := by positivity
  refine ⟨hfinite, hnegative, m, hlow, hunits, fun k hk => ?_, fun k hk => ?_⟩
  · have hsteps : 2 * k ≤ 2 * m + 1 := by
      apply Nat.le_of_mul_le_mul_right _ hpow
      linarith
    omega
  · have hsteps : 2 * m ≤ 2 * k + 1 := by
      apply Nat.le_of_mul_le_mul_right _ hpow
      linarith
    omega

theorem ofInt_zero : (ofInt 0).isFinite = true ∧ (ofInt 0).scaled = 0 := by
  constructor <;> decide

section Between

variable {n : ℤ} {x : Double}

/-- A double that is not nearer to zero than an integer is not nearer than what the integer is
rounded to: it is a whole number of steps itself. -/
theorem units_ofInt_le (hn : n ≠ 0) (hlt : n.natAbs < 0x20000000000000000)
    (h : n.natAbs * unitsPerOne ≤ x.units) : (ofInt n).units ≤ x.units := by
  obtain ⟨-, -, m, -, hunits, -, habove⟩ := units_ofInt hn hlt
  have hlead := (leadingBit_le (Int.natAbs_ne_zero.mpr hn)).1.trans h
  have hsteps : intShift n.natAbs ≤ x.shift := by
    by_contra hfew
    have hle : 2 * 2 ^ x.shift ≤ 2 ^ intShift n.natAbs := by
      rw [← pow_succ']
      exact Nat.pow_le_pow_right two_pos (by omega)
    rw [units_eq] at hlead
    have hsmall := Nat.mul_le_mul_right (2 ^ x.shift) (Nat.le_of_lt_succ x.significand_lt)
    have hpos : 0 < 2 ^ x.shift := by positivity
    omega
  have hwhole : x.units = x.significand * 2 ^ (x.shift - intShift n.natAbs) *
      2 ^ intShift n.natAbs := by
    rw [units_eq, mul_assoc, ← pow_add, Nat.sub_add_cancel hsteps]
  rw [hwhole] at h ⊢
  rw [hunits]
  exact Nat.mul_le_mul_right _ (habove _ h)

theorem le_units_ofInt (hn : n ≠ 0) (hlt : n.natAbs < 0x20000000000000000)
    (h : x.units ≤ n.natAbs * unitsPerOne) : x.units ≤ (ofInt n).units := by
  obtain ⟨-, -, m, hlow, hunits, hbelow, -⟩ := units_ofInt hn hlt
  rw [hunits]
  rcases Nat.lt_or_ge x.shift (intShift n.natAbs) with hfew | hsteps
  · -- such a small double is below every significand with its leading bit
    have hsmall := Nat.mul_le_mul_right (2 ^ x.shift) x.significand_lt.le
    have hle : 2 * 2 ^ x.shift ≤ 2 ^ intShift n.natAbs := by
      rw [← pow_succ']
      exact Nat.pow_le_pow_right two_pos hfew
    have hbig := Nat.mul_le_mul_right (2 ^ intShift n.natAbs) hlow
    rw [units_eq]
    omega
  · have hwhole : x.units = x.significand * 2 ^ (x.shift - intShift n.natAbs) *
        2 ^ intShift n.natAbs := by
      rw [units_eq, mul_assoc, ← pow_add, Nat.sub_add_cancel hsteps]
    rw [hwhole] at h ⊢
    exact Nat.mul_le_mul_right _ (hbelow _ h)

/-- An integer in units, by its sign and its magnitude. -/
theorem mul_unitsPerOne_eq (n : ℤ) : n * (unitsPerOne : ℤ) =
    if n < 0 then -((n.natAbs * unitsPerOne : ℕ) : ℤ) else (n.natAbs * unitsPerOne : ℕ) := by
  rw [Nat.cast_mul]
  split
  · rw [Int.ofNat_natAbs_of_nonpos (by omega), Int.neg_mul, Int.neg_neg]
  · rw [Int.natAbs_of_nonneg (by omega)]

theorem natAbs_scaled (x : Double) : x.scaled.natAbs = x.units := by
  rw [scaled]
  split <;> simp

/-- Rounding an integer does not carry it past a double. -/
theorem scaled_ofInt_between (hlt : n.natAbs < 0x20000000000000000) :
    (n * (unitsPerOne : ℤ) ≤ x.scaled → (ofInt n).scaled ≤ x.scaled) ∧
      (x.scaled ≤ n * (unitsPerOne : ℤ) → x.scaled ≤ (ofInt n).scaled) := by
  rcases eq_or_ne n 0 with rfl | hn
  · rw [ofInt_zero.2, Int.zero_mul]
    exact ⟨id, id⟩
  obtain ⟨-, hnegative, -⟩ := units_ofInt hn hlt
  have hup := units_ofInt_le (x := x) hn hlt
  have hdown := le_units_ofInt (x := x) hn hlt
  have hpos : 0 < n.natAbs * unitsPerOne :=
    Nat.mul_pos (Int.natAbs_pos.mpr hn) Number.RoundingInterval.unitsPerOne_pos
  rw [mul_unitsPerOne_eq, scaled, scaled, hnegative]
  generalize n.natAbs * unitsPerOne = magnitude at *
  -- the signs decide, or the magnitudes do
  by_cases hneg : n < 0 <;> cases x.isNegative <;>
    simp only [hneg, if_true, if_false, decide_true, decide_false, Bool.false_eq_true] <;> omega

end Between

/-! ### Small integers -/

/-- An integer that is a whole number of steps is not changed. -/
theorem scaled_ofInt_of_whole {n : ℤ} (hn : n ≠ 0) (hlt : n.natAbs < 0x20000000000000000) {k : ℕ}
    (h : n.natAbs * unitsPerOne = k * 2 ^ intShift n.natAbs) :
    (ofInt n).scaled = n * (unitsPerOne : ℤ) := by
  obtain ⟨-, hnegative, m, -, hunits, hbelow, habove⟩ := units_ofInt hn hlt
  have hsame : m = k := le_antisymm (habove k h.le) (hbelow k h.ge)
  rw [scaled, hnegative, hunits, hsame, ← h, mul_unitsPerOne_eq]
  simp only [decide_eq_true_eq]

/-- The integers up to `2 ^ 53` are doubles. -/
theorem scaled_ofInt {n : ℤ} (h : n.natAbs ≤ 0x20000000000000) :
    (ofInt n).scaled = n * (unitsPerOne : ℤ) := by
  rcases eq_or_ne n 0 with rfl | hn
  · rw [ofInt_zero.2, Int.zero_mul]
  obtain ⟨top, hunits, htop⟩ := Number.RoundingInterval.unitsPerOne_eq
  have hne := Int.natAbs_ne_zero.mpr hn
  rcases Nat.lt_or_ge n.natAbs 0x20000000000000 with hlt | hge
  · have hlog : n.natAbs.log2 < 53 := (Nat.log2_lt hne).mpr hlt
    have hshift : top = 52 - n.natAbs.log2 + intShift n.natAbs := by
      unfold intShift
      omega
    apply scaled_ofInt_of_whole hn (by omega) (k := n.natAbs * 2 ^ (52 - n.natAbs.log2))
    rw [hunits, hshift, pow_add, mul_assoc]
  · -- the power of two itself
    have hmagnitude : n.natAbs = 2 ^ 53 := by omega
    have hshift : intShift (2 ^ 53) = top + 1 := by
      rw [intShift, Nat.log2_two_pow]
      omega
    apply scaled_ofInt_of_whole hn (by omega) (k := 2 ^ 52)
    rw [hmagnitude, hshift, hunits, pow_succ 2 top]
    ring

/-! ### Rounding keeps the order -/

section Monotone

variable {m n : ℤ}

/-- The powers of two are doubles. -/
theorem units_ofInt_two_pow {k : ℕ} (hk : k < 65) :
    (ofInt (2 ^ k)).units = 2 ^ k * unitsPerOne := by
  obtain ⟨top, hunits, htop⟩ := Number.RoundingInterval.unitsPerOne_eq
  have hmagnitude : ((2 : ℤ) ^ k).natAbs = 2 ^ k := Int.natAbs_pow 2 k
  have hbound : 2 ^ k < 2 ^ 65 := Nat.pow_lt_pow_right (by decide) hk
  have hexponent : k + top = 52 + intShift (2 ^ k) := by
    rw [intShift, Nat.log2_two_pow]
    omega
  have hwhole : ((2 : ℤ) ^ k).natAbs * unitsPerOne =
      2 ^ 52 * 2 ^ intShift ((2 : ℤ) ^ k).natAbs := by
    rw [hmagnitude, hunits, ← pow_add, hexponent, pow_add]
  have hscaled := scaled_ofInt_of_whole (by positivity) (hmagnitude ▸ hbound) hwhole
  rw [← natAbs_scaled, hscaled, Int.natAbs_mul, hmagnitude, Int.natAbs_natCast]

/-- An integer nearer to zero than another is not rounded past it.  If they have their leading
bits in one place, both are half a step of this place off at most; otherwise a power of two lies
between them. -/
theorem units_ofInt_le_of_lt (hlt : n.natAbs < 0x20000000000000000) (h : m.natAbs < n.natAbs) :
    (ofInt m).units ≤ (ofInt n).units := by
  have hn : n ≠ 0 := by omega
  rcases eq_or_ne m 0 with rfl | hm
  · have hzero : (ofInt 0).units = 0 := by decide
    rw [hzero]
    exact Nat.zero_le _
  have hne := Int.natAbs_ne_zero.mpr hn
  have hlog : m.natAbs.log2 ≤ n.natAbs.log2 := by
    rw [Nat.log2_eq_log_two, Nat.log2_eq_log_two]
    exact Nat.log_mono_right h.le
  rcases hlog.eq_or_lt with hsame | hless
  · obtain ⟨-, -, a, -, hunits, -, habove⟩ := units_ofInt_near hm (h.trans hlt)
    obtain ⟨-, -, b, -, hunits', hbelow, -⟩ := units_ofInt_near hn hlt
    rw [intShift, hsame, ← intShift] at hunits habove
    rw [hunits, hunits']
    have hpow : 0 < 2 ^ intShift n.natAbs := by positivity
    have hmagnitude : m.natAbs * unitsPerOne < n.natAbs * unitsPerOne :=
      Nat.mul_lt_mul_of_pos_right h Number.RoundingInterval.unitsPerOne_pos
    apply Nat.mul_le_mul_right
    by_contra hmore
    nlinarith
  · have hpower : (ofInt (2 ^ n.natAbs.log2)).units = 2 ^ n.natAbs.log2 * unitsPerOne :=
      units_ofInt_two_pow ((Nat.log2_lt hne).mpr hlt)
    calc (ofInt m).units ≤ (ofInt (2 ^ n.natAbs.log2)).units := by
          apply units_ofInt_le hm (h.trans hlt)
          rw [hpower]
          exact Nat.mul_le_mul_right _ ((Nat.log2_lt (by omega)).mp hless).le
      _ ≤ (ofInt n).units := by
          apply le_units_ofInt hn hlt
          rw [hpower]
          exact Nat.mul_le_mul_right _ (Nat.log2_self_le hne)

theorem scaled_ofInt_eq (hlt : n.natAbs < 0x20000000000000000) :
    (ofInt n).scaled = if n < 0 then -((ofInt n).units : ℤ) else (ofInt n).units := by
  rcases eq_or_ne n 0 with rfl | hn
  · decide
  · rw [scaled, (units_ofInt hn hlt).2.1]
    simp only [decide_eq_true_eq]

/-- Rounding integers to doubles keeps their order. -/
theorem scaled_ofInt_mono (hm : m.natAbs < 0x20000000000000000)
    (hn : n.natAbs < 0x20000000000000000) (h : m ≤ n) : (ofInt m).scaled ≤ (ofInt n).scaled := by
  rcases h.eq_or_lt with rfl | hlt
  · rfl
  have hup : m.natAbs < n.natAbs → (ofInt m).units ≤ (ofInt n).units := units_ofInt_le_of_lt hn
  have hdown : n.natAbs < m.natAbs → (ofInt n).units ≤ (ofInt m).units := units_ofInt_le_of_lt hm
  rw [scaled_ofInt_eq hm, scaled_ofInt_eq hn]
  split <;> split <;> omega

end Monotone

/-! ### Values -/

section Value

variable {n : ℤ} {x : Double}

theorem isFinite_ofInt (hlt : n.natAbs < 0x20000000000000000) : (ofInt n).isFinite = true := by
  rcases eq_or_ne n 0 with rfl | hn
  · exact ofInt_zero.1
  · exact (units_ofInt hn hlt).1

theorem value_ofInt (h : n.natAbs ≤ 0x20000000000000) : (ofInt n).value = .ofRat n := by
  have hfinite := isFinite_ofInt (n := n) (by omega)
  rw [value_of_finite hfinite, rational_eq_intCast_iff.mpr (scaled_ofInt h)]

theorem value_eq_ofRat_iff :
    x.value = .ofRat n ↔ x.isFinite = true ∧ x.scaled = n * (unitsPerOne : ℤ) := by
  constructor
  · intro h
    have hfinite : x.isFinite = true := by
      by_contra hinfinite
      rw [value, if_neg hinfinite] at h
      split at h
      · exact absurd h (Extended.bot_lt_ofRat n).ne
      · exact absurd h (Extended.ofRat_lt_top n).ne'
    rw [value_of_finite hfinite, Extended.ofRat_inj, rational_eq_intCast_iff] at h
    exact ⟨hfinite, h⟩
  · rintro ⟨hfinite, hscaled⟩
    rw [value_of_finite hfinite, rational_eq_intCast_iff.mpr hscaled]

/-- A double is integral with a truncated value just if it is exactly this integer. -/
theorem isIntegral_and_truncate_iff :
    x.isIntegral = true ∧ x.truncate = n ↔ x.value = .ofRat n := by
  have hpos : (0 : ℤ) < (unitsPerOne : ℤ) := by
    exact_mod_cast Number.RoundingInterval.unitsPerOne_pos
  rw [value_eq_ofRat_iff, isIntegral, truncate, Bool.and_eq_true, beq_iff_eq, and_assoc]
  refine and_congr_right fun _ => ?_
  constructor
  · rintro ⟨hwhole, rfl⟩
    exact (Int.tdiv_mul_cancel (Int.dvd_of_emod_eq_zero hwhole)).symm
  · intro hscaled
    rw [hscaled, Int.mul_emod_left, Int.mul_tdiv_cancel _ hpos.ne']
    exact ⟨rfl, rfl⟩

/-- A double that is an integer of more than 53 binary digits ends in zeros. -/
theorem dvd_natAbs_of_value_eq {digits : ℕ} (h : x.value = .ofRat n)
    (hlarge : 2 ^ (53 + digits) ≤ n.natAbs) : 2 ^ (digits + 1) ∣ n.natAbs := by
  obtain ⟨top, hunits, -⟩ := Number.RoundingInterval.unitsPerOne_eq
  have hvalue : n.natAbs * 2 ^ top = x.significand * 2 ^ x.shift := by
    have hnatAbs := congrArg Int.natAbs (value_eq_ofRat_iff.mp h).2
    rw [Int.natAbs_mul, Int.natAbs_natCast, hunits, natAbs_scaled, units_eq] at hnatAbs
    exact hnatAbs.symm
  have hshift : top + digits < x.shift := by
    have hlt : 2 ^ (53 + digits + top) < 2 ^ (53 + x.shift) :=
      calc 2 ^ (53 + digits + top) = 2 ^ (53 + digits) * 2 ^ top := Nat.pow_add ..
        _ ≤ n.natAbs * 2 ^ top := Nat.mul_le_mul_right _ hlarge
        _ = x.significand * 2 ^ x.shift := hvalue
        _ < 2 ^ 53 * 2 ^ x.shift := Nat.mul_lt_mul_of_pos_right x.significand_lt (by positivity)
        _ = 2 ^ (53 + x.shift) := (Nat.pow_add ..).symm
    have hexponents := (Nat.pow_lt_pow_iff_right (by decide)).mp hlt
    omega
  obtain ⟨more, hmore⟩ := Nat.exists_eq_add_of_lt hshift
  refine ⟨x.significand * 2 ^ more, Nat.eq_of_mul_eq_mul_right (Nat.two_pow_pos top) ?_⟩
  rw [hvalue, hmore]
  ring

/-- A double that is a whole number is what this number is rounded to. -/
theorem value_ofInt_of_value_eq (hlt : n.natAbs < 0x20000000000000000)
    (h : x.value = .ofRat n) : (ofInt n).value = x.value := by
  obtain ⟨hfinite, hscaled⟩ := value_eq_ofRat_iff.mp h
  have hbetween := scaled_ofInt_between (x := x) hlt
  have hsame : (ofInt n).scaled = x.scaled :=
    le_antisymm (hbetween.1 hscaled.ge) (hbetween.2 hscaled.le)
  rw [h, value_eq_ofRat_iff]
  exact ⟨isFinite_ofInt hlt, hsame.trans hscaled⟩

/-- An integer compares with a double as the numbers do, except where rounding it makes the two
equal. -/
theorem order?_ofInt (hlt : n.natAbs < 0x20000000000000000) (hnan : x.isNaN = false) :
    order? (ofInt n) x =
      some (if (ofInt n).value = x.value then .eq else cmp (.ofRat n) x.value) := by
  have hinteger := isFinite_ofInt hlt
  have hnumber := isNaN_of_finite hinteger
  rw [order?_eq hnumber hnan]
  congr 1
  split
  · rename_i hsame
    rw [hsame, cmp_self_eq_eq]
  rename_i hne
  cases hfinite : x.isFinite
  · -- an infinity is beyond the integer and beyond what it is rounded to
    rw [value_of_finite hinteger, value, hfinite]
    cases x.isNegative
    · exact ((cmp_eq_lt_iff _ _).mpr (Extended.ofRat_lt_top _)).trans
        ((cmp_eq_lt_iff _ _).mpr (Extended.ofRat_lt_top _)).symm
    · exact ((cmp_eq_gt_iff _ _).mpr (Extended.bot_lt_ofRat _)).trans
        ((cmp_eq_gt_iff _ _).mpr (Extended.bot_lt_ofRat _)).symm
  have hbetween := scaled_ofInt_between (x := x) hlt
  rcases lt_trichotomy (n * (unitsPerOne : ℤ)) x.scaled with hbelow | hsame | habove
  · have hless : (ofInt n).value < x.value := by
      apply lt_of_le_of_ne _ hne
      rw [← not_lt, ← scaled_lt_scaled_iff hnan hnumber, not_lt]
      exact hbetween.1 hbelow.le
    have hexact : Extended.ofRat n < x.value := by
      rw [value_of_finite hfinite, Extended.ofRat_lt_ofRat]
      exact intCast_lt_rational_iff.mpr hbelow
    rw [(cmp_eq_lt_iff _ _).mpr hless, (cmp_eq_lt_iff _ _).mpr hexact]
  · exact absurd (value_ofInt_of_value_eq hlt (value_eq_ofRat_iff.mpr ⟨hfinite, hsame.symm⟩)) hne
  · have hgreater : x.value < (ofInt n).value := by
      apply lt_of_le_of_ne _ (Ne.symm hne)
      rw [← not_lt, ← scaled_lt_scaled_iff hnumber hnan, not_lt]
      exact hbetween.2 habove.le
    have hexact : x.value < Extended.ofRat n := by
      rw [value_of_finite hfinite, Extended.ofRat_lt_ofRat]
      exact rational_lt_intCast_iff.mpr habove
    rw [(cmp_eq_gt_iff _ _).mpr hgreater, (cmp_eq_gt_iff _ _).mpr hexact]

end Value

end EmbeddedExpr.Double
