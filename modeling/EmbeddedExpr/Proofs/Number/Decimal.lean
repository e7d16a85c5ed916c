import EmbeddedExpr.Number.Layout
import EmbeddedExpr.Proofs.Number.Digits
import EmbeddedExpr.Proofs.Number.Shortest

/-!
# Decimals and the doubles they are read as
-/

namespace EmbeddedExpr.Number

open Double RoundingInterval

variable {x : Double}

/-! ### Reading a decimal -/

theorem two_le_low (hunits : x.units ≠ 0) : (2 : ℚ) ≤ (ofDouble x).low := by
  have hreach := reach_le x
  have hone : (1 : ℚ) ≤ 2 ^ x.shift := one_le_pow₀ (by norm_num)
  have hpos : (1 : ℚ) ≤ x.significand := by
    rw [units_eq] at hunits
    exact_mod_cast Nat.pos_of_ne_zero (left_ne_zero_of_mul hunits)
  rw [low_ofDouble hunits]
  nlinarith

theorem high_le (hfinite : x.isFinite = true) : ((ofDouble x).high : ℚ) ≤ 2 ^ (2100 : ℤ) := by
  have hshift := shift_le hfinite
  have hlt : (x.significand : ℚ) + 1 ≤ 2 ^ 53 := by
    have hnat : x.significand + 1 ≤ 2 ^ 53 := x.significand_lt
    exact_mod_cast hnat
  calc ((ofDouble x).high : ℚ) = 4 * (x.significand * 2 ^ x.shift) + 2 * 2 ^ x.shift :=
        high_ofDouble x
    _ ≤ 4 * ((x.significand + 1) * 2 ^ x.shift) := by
        have hgap : (0 : ℚ) < 2 ^ x.shift := by positivity
        linarith
    _ ≤ 4 * (2 ^ 53 * 2 ^ x.shift) := by gcongr
    _ = 2 ^ ((55 : ℤ) + x.shift) := by
        rw [zpow_add₀ two_ne_zero, zpow_natCast]
        norm_num
        ring
    _ ≤ 2 ^ (2100 : ℤ) := zpow_le_zpow_right₀ (by norm_num) (by omega)

/-- Below `10 ^ -331` there is nothing but zero. -/
theorem tiny_lt_two : (10 : ℚ) ^ (-331 : ℤ) * quarters < 2 := by
  have hnat : (2 : ℕ) ^ 1075 < 10 ^ 331 := by decide +kernel
  have hrat : (2 : ℚ) ^ (1075 : ℤ) < 10 ^ (331 : ℤ) := by exact_mod_cast hnat
  rw [quarters, show (1076 : ℤ) = 1075 + 1 by norm_num, zpow_add₀ two_ne_zero, zpow_one, zpow_neg,
    inv_mul_lt_iff₀ (by positivity)]
  exact mul_lt_mul_of_pos_right hrat two_pos

/-- From `10 ^ 310` on there is nothing but the infinities. -/
theorem two_pow_lt_huge : (2 : ℚ) ^ (1024 : ℤ) < 10 ^ (310 : ℤ) := by
  have hnat : (2 : ℕ) ^ 1024 < 10 ^ 310 := by decide +kernel
  exact_mod_cast hnat

theorem two_pow_le_huge {n : ℕ} (hn : 310 ≤ n) : (2 : ℚ) ^ (1023 : ℤ) ≤ 10 ^ (n : ℤ) :=
  calc (2 : ℚ) ^ (1023 : ℤ) ≤ 2 ^ (1024 : ℤ) := zpow_le_zpow_right₀ one_le_two (by norm_num)
    _ ≤ 10 ^ (310 : ℤ) := two_pow_lt_huge.le
    _ ≤ 10 ^ (n : ℤ) := zpow_le_zpow_right₀ (by norm_num) (by exact_mod_cast hn)

theorem high_lt_huge : (2 : ℚ) ^ (2100 : ℤ) < 10 ^ (310 : ℤ) * quarters := by
  rw [quarters, show (2100 : ℤ) = 1024 + 1076 by norm_num, zpow_add₀ two_ne_zero]
  exact mul_lt_mul_of_pos_right two_pow_lt_huge (by positivity)

namespace DecimalText

/-- The digits of a decimal as a number. -/
def significand (d : DecimalText) : ℕ := Nat.ofDigitChars 10 (d.whole ++ d.fraction) 0

/-- The magnitude of a decimal. -/
def value (d : DecimalText) : ℚ := d.significand * 10 ^ (d.exponent - d.fraction.length)

theorem value_nonneg (d : DecimalText) : 0 ≤ d.value := by
  unfold value
  positivity

/-- The digits behind the leading zeros bound the number that all digits spell. -/
theorem significand_bounds {d : DecimalText} (hdigits : AllDigits (d.whole ++ d.fraction))
    {c : Char} {rest : List Char}
    (hrun : (d.whole ++ d.fraction).dropWhile (· == '0') = c :: rest) :
    AllDigits (c :: rest) ∧ d.significand = Nat.ofDigitChars 10 (c :: rest) 0 ∧
      (10 : ℚ) ^ (rest.length : ℤ) ≤ d.significand ∧
      (d.significand : ℚ) < 10 ^ ((rest.length : ℤ) + 1) := by
  have hrest : AllDigits (c :: rest) := fun e he =>
    hdigits e ((List.dropWhile_sublist _).subset (hrun ▸ he))
  have hhead : c ≠ '0' := by
    have hnot := List.head?_dropWhile_not (· == '0') (d.whole ++ d.fraction)
    rw [hrun] at hnot
    simpa using hnot
  have hspelled : d.significand = Nat.ofDigitChars 10 (c :: rest) 0 := by
    rw [significand, ← ofDigitChars_dropZeros (d.whole ++ d.fraction), hrun]
  refine ⟨hrest, hspelled, ?_, ?_⟩
  · rw [hspelled, zpow_natCast]
    exact_mod_cast pow_le_ofDigitChars hrest hhead
  · have hlt := ofDigitChars_lt hrest
    rw [← hspelled] at hlt
    exact_mod_cast hlt

/-- Digits scaled up or down by their exponent are a quotient. -/
theorem scaled_eq_ofRatio (negative : Bool) (digits : ℕ) (e : ℤ) :
    ∃ num den : ℕ, 0 < den ∧ (num / den : ℚ) = digits * 10 ^ e ∧
      (if 0 ≤ e then Double.ofRatio negative (digits * Nat.pow 10 e.toNat) 1
        else Double.ofRatio negative digits (Nat.pow 10 (-e).toNat)) =
          Double.ofRatio negative num den := by
  by_cases he : 0 ≤ e
  · obtain ⟨n, rfl⟩ := Int.eq_ofNat_of_zero_le he
    refine ⟨digits * 10 ^ n, 1, Nat.one_pos, ?_, if_pos he⟩
    rw [zpow_natCast, Nat.cast_one, div_one]
    push_cast
    rfl
  · obtain ⟨n, hn⟩ := Int.eq_ofNat_of_zero_le (by omega : 0 ≤ -e)
    obtain rfl : e = -(n : ℤ) := by omega
    refine ⟨digits, 10 ^ n, Nat.pow_pos (by decide), ?_, ?_⟩
    · rw [zpow_neg, zpow_natCast, div_eq_mul_inv]
      push_cast
      rfl
    · rw [if_neg he, neg_neg, Int.toNat_natCast]
      rfl

/-- A decimal is read as the quotient that it stands for, unless it is so small that it is read as
zero or so large that it is read as a power of ten above all doubles. -/
theorem toDouble_cases {d : DecimalText} (hdigits : AllDigits (d.whole ++ d.fraction)) :
    (d.toDouble = Double.ofRatio d.negative 0 1 ∧ d.value < 10 ^ (-331 : ℤ)) ∨
      (∃ n : ℕ, 310 ≤ n ∧ d.toDouble = Double.ofRatio d.negative (Nat.pow 10 n) 1 ∧
        10 ^ (310 : ℤ) ≤ d.value) ∨
      ∃ num den : ℕ, 0 < den ∧ (num / den : ℚ) = d.value ∧
        d.toDouble = Double.ofRatio d.negative num den := by
  rw [toDouble]
  simp only
  cases hrun : (d.whole ++ d.fraction).dropWhile (· == '0') with
  | nil =>
      have hdropped := ofDigitChars_dropZeros (d.whole ++ d.fraction)
      rw [hrun] at hdropped
      have hzero : d.value = 0 := by
        rw [value, significand, ← hdropped]
        simp
      rw [if_pos (.inl rfl), hzero]
      exact .inl ⟨rfl, by positivity⟩
  | cons c rest =>
      obtain ⟨hrest, hspelled, hleading, hbelow⟩ := significand_bounds hdigits hrun
      have hlength : ((c :: rest).length : ℤ) = rest.length + 1 := by
        rw [List.length_cons]
        push_cast
        rfl
      rw [hlength, value]
      generalize d.exponent - d.fraction.length = e
      have hscale : (0 : ℚ) < 10 ^ e := by positivity
      by_cases htiny : e + (rest.length + 1) < -330
      · rw [if_pos (.inr htiny)]
        refine .inl ⟨rfl, ?_⟩
        calc (d.significand : ℚ) * 10 ^ e < 10 ^ ((rest.length : ℤ) + 1) * 10 ^ e :=
              mul_lt_mul_of_pos_right hbelow hscale
          _ = 10 ^ ((rest.length : ℤ) + 1 + e) := by rw [← zpow_add₀ (by norm_num)]
          _ ≤ 10 ^ (-331 : ℤ) := zpow_le_zpow_right₀ (by norm_num) (by omega)
      · rw [if_neg (by simpa using htiny)]
        by_cases hhuge : 310 < e + (rest.length + 1)
        · rw [if_pos hhuge]
          generalize (310 : ℕ) = n
          refine .inr (.inl ⟨n, le_rfl, rfl, ?_⟩)
          calc (10 : ℚ) ^ (310 : ℤ) ≤ 10 ^ ((rest.length : ℤ) + e) :=
                zpow_le_zpow_right₀ (by norm_num) (by omega)
            _ = 10 ^ (rest.length : ℤ) * 10 ^ e := by rw [← zpow_add₀ (by norm_num)]
            _ ≤ d.significand * 10 ^ e := mul_le_mul_of_nonneg_right hleading hscale.le
        · rw [if_neg hhuge, ofDigits_eq hrest, ← hspelled]
          exact .inr (.inr (scaled_eq_ofRatio d.negative d.significand e))

/-- A decimal in the interval of a double is read as that double. -/
theorem toDouble_eq {d : DecimalText} (hfinite : x.isFinite = true) (hunits : x.units ≠ 0)
    (hdigits : AllDigits (d.whole ++ d.fraction)) (hsign : d.negative = x.isNegative)
    (h : (ofDouble x).Contains (d.value * quarters)) : d.toDouble = x := by
  obtain ⟨hlow, hhigh⟩ := h.bounds
  have hleast := (two_le_low hunits).trans hlow
  have hgreatest := hhigh.trans (high_le hfinite)
  rcases toDouble_cases hdigits with ⟨-, htiny⟩ | ⟨-, -, -, hhuge⟩ | ⟨num, den, hden, hratio, hread⟩
  · have hscaled := mul_lt_mul_of_pos_right htiny quarters_pos
    linarith [tiny_lt_two]
  · have hscaled := mul_le_mul_of_nonneg_right hhuge quarters_pos.le
    linarith [high_lt_huge]
  · have hnum : 0 < num := by
      rcases Nat.eq_zero_or_pos num with rfl | hnum
      · -- the value would be zero, which is outside the interval
        rw [← hratio, Nat.cast_zero, zero_div, zero_mul] at hleast
        norm_num at hleast
      · exact hnum
    rw [hread, hsign]
    exact Contains.ofRatio hfinite hunits hnum hden (by rwa [hratio])

end DecimalText

end EmbeddedExpr.Number
