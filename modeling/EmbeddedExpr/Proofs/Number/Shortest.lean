import EmbeddedExpr.Proofs.Number.Rounding

/-!
# The shortest decimal is inside the interval
-/

namespace EmbeddedExpr.Number.RoundingInterval

open Double

/-- A place of the decimal grid in quarters of the unit. -/
def grid (places : ℤ) : ℚ := quarters * 10 ^ (-places)

theorem gridScale_spec (places : ℤ) :
    0 < (gridScale places).1 ∧ 0 < (gridScale places).2 ∧
      ((gridScale places).2 / (gridScale places).1 : ℚ) = grid places := by
  have hone : 0 < 4 * unitsPerOne := Nat.mul_pos (by decide) unitsPerOne_pos
  have hpow (n : ℕ) : ((Nat.pow 10 n : ℕ) : ℚ) = 10 ^ n := Nat.cast_pow 10 n
  unfold gridScale grid
  by_cases hplaces : 0 ≤ places
  · obtain ⟨n, rfl⟩ := Int.eq_ofNat_of_zero_le hplaces
    rw [if_pos hplaces, zpow_neg, zpow_natCast]
    refine ⟨Nat.pow_pos (by decide), hone, ?_⟩
    show ((4 * unitsPerOne : ℕ) : ℚ) / (Nat.pow 10 (n : ℤ).toNat : ℕ) = _
    rw [cast_unitsPerOne, Int.toNat_natCast, hpow, div_eq_mul_inv]
  · obtain ⟨n, hn⟩ := Int.eq_ofNat_of_zero_le (by omega : 0 ≤ -places)
    rw [if_neg hplaces, hn, zpow_natCast]
    refine ⟨Nat.one_pos, Nat.mul_pos hone (Nat.pow_pos (by decide)), ?_⟩
    show ((4 * unitsPerOne * Nat.pow 10 (n : ℤ).toNat : ℕ) : ℚ) / (1 : ℕ) = _
    rw [Nat.cast_mul, cast_unitsPerOne, Int.toNat_natCast, hpow, Nat.cast_one, div_one]

theorem contains_iff {i : RoundingInterval} {n scale den : ℕ} (hscale : 0 < scale) :
    i.Contains (n * (den / scale)) ↔
      if i.closed then i.low * scale ≤ n * den ∧ n * den ≤ i.high * scale
      else i.low * scale < n * den ∧ n * den < i.high * scale := by
  have hpos : (0 : ℚ) < scale := by exact_mod_cast hscale
  unfold Contains
  split
  · rw [← mul_div_assoc, le_div_iff₀ hpos, div_le_iff₀ hpos]
    exact_mod_cast Iff.rfl
  · rw [← mul_div_assoc, lt_div_iff₀ hpos, div_lt_iff₀ hpos]
    exact_mod_cast Iff.rfl

/-- The centre of an interval is inside. -/
def Centred (i : RoundingInterval) : Prop := i.low < i.center ∧ i.center < i.high

/-- Of the two neighbours on the grid a candidate is one that fits. -/
theorem neighbour_eq_some {belowFits aboveFits nearer : Bool} {below n : ℕ}
    (h : (if belowFits && below != 0 && (nearer || !aboveFits) then some below
      else if aboveFits then some (below + 1) else none) = some n) :
    (n = below ∧ n ≠ 0 ∧ belowFits) ∨ (n = below + 1 ∧ aboveFits) := by
  split at h
  · rename_i hfits
    cases h
    simp only [Bool.and_eq_true, bne_iff_ne] at hfits
    exact .inl ⟨rfl, hfits.1.2, hfits.1.1⟩
  · split at h
    · rename_i hfits
      cases h
      exact .inr ⟨rfl, hfits⟩
    · cases h

theorem neighbour_isSome {belowFits aboveFits nearer : Bool} {below : ℕ} (hbelow : below ≠ 0)
    (h : belowFits ∨ aboveFits) :
    (if belowFits && below != 0 && (nearer || !aboveFits) then some below
      else if aboveFits then some (below + 1) else none).isSome := by
  split
  · rfl
  · rename_i hfits
    cases aboveFits with
    | true => rfl
    | false => simp_all

theorem candidate?_contains {i : RoundingInterval} (hi : i.Centred) {tie : TieRule} {places : ℤ}
    {n : ℕ} (h : i.candidate? tie places = some n) : n ≠ 0 ∧ i.Contains (n * grid places) := by
  obtain ⟨hscale, hden, hgrid⟩ := gridScale_spec places
  rw [← hgrid, contains_iff hscale]
  unfold candidate? at h
  simp only at h
  generalize (gridScale places).1 = scale at *
  generalize (gridScale places).2 = den at *
  have hchosen := neighbour_eq_some h
  have hdiv := Nat.div_add_mod (i.center * scale) den
  have hmod := Nat.mod_lt (i.center * scale) hden
  have hlow : i.low * scale < i.center * scale := Nat.mul_lt_mul_of_pos_right hi.1 hscale
  have hhigh : i.center * scale < i.high * scale := Nat.mul_lt_mul_of_pos_right hi.2 hscale
  generalize i.center * scale / den = below at *
  have habove : (below + 1) * den = den * below + den := by ring
  have hbelow : below * den = den * below := Nat.mul_comm _ _
  cases hclosed : i.closed
  · simp only [hclosed, Bool.false_eq_true, if_false, decide_eq_true_eq] at hchosen ⊢
    rcases hchosen with ⟨rfl, hne, hfits⟩ | ⟨rfl, hfits⟩
    · exact ⟨hne, hfits, by omega⟩
    · exact ⟨Nat.succ_ne_zero _, by omega, hfits⟩
  · simp only [hclosed, if_true, decide_eq_true_eq] at hchosen ⊢
    rcases hchosen with ⟨rfl, hne, hfits⟩ | ⟨rfl, hfits⟩
    · exact ⟨hne, hfits, by omega⟩
    · exact ⟨Nat.succ_ne_zero _, by omega, hfits⟩

/-- A grid finer than an interval has a place in it. -/
theorem candidate?_isSome {i : RoundingInterval} (tie : TieRule) {places : ℤ}
    (hcenter : grid places ≤ i.center) (hwidth : i.low + grid places < i.high) :
    (i.candidate? tie places).isSome := by
  obtain ⟨hscale, hden, hgrid⟩ := gridScale_spec places
  have hpos : (0 : ℚ) < (gridScale places).1 := by exact_mod_cast hscale
  have hcenterNat : (gridScale places).2 ≤ i.center * (gridScale places).1 := by
    rw [← hgrid, div_le_iff₀ hpos] at hcenter
    exact_mod_cast hcenter
  have hwidthNat : i.low * (gridScale places).1 + (gridScale places).2 <
      i.high * (gridScale places).1 := by
    rw [← hgrid, ← lt_sub_iff_add_lt', div_lt_iff₀ hpos] at hwidth
    have hrat : (i.low * (gridScale places).1 + (gridScale places).2 : ℚ) <
        i.high * (gridScale places).1 := by linarith
    exact_mod_cast hrat
  unfold candidate?
  simp only
  generalize (gridScale places).1 = scale at *
  generalize (gridScale places).2 = den at *
  apply neighbour_isSome (Nat.div_pos hcenterNat hden).ne'
  generalize i.center * scale / den = below at *
  have habove : (below + 1) * den = below * den + den := by ring
  cases hclosed : i.closed
  · simp only [Bool.false_eq_true, if_false, decide_eq_true_eq]
    omega
  · simp only [if_true, decide_eq_true_eq]
    omega

/-! ### The leading place -/

theorem reachesPowerOfTen_iff {i : RoundingInterval} {e : ℤ} :
    i.reachesPowerOfTen e = true ↔ grid (-e) ≤ i.center := by
  obtain ⟨hscale, -, hgrid⟩ := gridScale_spec (-e)
  have hpos : (0 : ℚ) < (gridScale (-e)).1 := by exact_mod_cast hscale
  unfold reachesPowerOfTen
  simp only
  rw [← hgrid, decide_eq_true_iff, div_le_iff₀ hpos]
  exact_mod_cast Iff.rfl

/-- If `10 ^ m` is at or a little above `2 ^ n`, then `m / n` is a decimal logarithm of two,
too large by so little that powers of it are not ten times too large. -/
theorem ten_zpow_le_two_zpow {m n : ℕ} (hn : 0 < n) (hlow : (2 : ℕ) ^ n ≤ 10 ^ m)
    (hhigh : (10 : ℕ) ^ m ≤ 2 * 2 ^ n) {t e : ℤ} (ht : t ≤ n) (he : e * n ≤ t * m) :
    (10 : ℚ) ^ (e - 1) ≤ 2 ^ t := by
  have hlowRat : (2 : ℚ) ^ n ≤ 10 ^ m := by exact_mod_cast hlow
  have hhighRat : (10 : ℚ) ^ m ≤ 2 * 2 ^ n := by exact_mod_cast hhigh
  have hone : (1 : ℚ) ≤ 10 ^ n := one_le_pow₀ (by norm_num)
  have hclose : ((10 : ℚ) ^ m) ^ t ≤ 10 ^ n * ((2 : ℚ) ^ n) ^ t := by
    by_cases hsign : 0 ≤ t
    · obtain ⟨k, rfl⟩ := Int.eq_ofNat_of_zero_le hsign
      have hk : k ≤ n := by omega
      simp only [zpow_natCast]
      calc ((10 : ℚ) ^ m) ^ k ≤ (2 * 2 ^ n) ^ k := by gcongr
        _ = 2 ^ k * (2 ^ n) ^ k := mul_pow _ _ _
        _ ≤ 10 ^ n * (2 ^ n) ^ k := by
            have hpow : (2 : ℚ) ^ k ≤ 10 ^ n :=
              (pow_le_pow_left₀ (by norm_num) (by norm_num) k).trans
                (pow_le_pow_right₀ (by norm_num) hk)
            gcongr
    · obtain ⟨k, hk⟩ := Int.eq_ofNat_of_zero_le (by omega : 0 ≤ -t)
      obtain rfl : t = -(k : ℤ) := by omega
      simp only [zpow_neg, zpow_natCast]
      calc (((10 : ℚ) ^ m) ^ k)⁻¹ ≤ ((2 ^ n) ^ k)⁻¹ := by gcongr
        _ ≤ 10 ^ n * ((2 ^ n) ^ k)⁻¹ := le_mul_of_one_le_left (by positivity) hone
  have hpower : ((10 : ℚ) ^ (e - 1)) ^ n ≤ (2 ^ t) ^ n := by
    calc ((10 : ℚ) ^ (e - 1)) ^ n = 10 ^ (e * n) / 10 ^ n := by
          rw [← zpow_natCast, ← zpow_mul, sub_mul, one_mul, zpow_sub₀ (by norm_num), zpow_natCast]
      _ ≤ 10 ^ (t * m) / 10 ^ n := by
          have hmono : (10 : ℚ) ^ (e * n) ≤ 10 ^ (t * m) := zpow_le_zpow_right₀ (by norm_num) he
          gcongr
      _ = ((10 : ℚ) ^ m) ^ t / 10 ^ n := by rw [mul_comm t, zpow_mul, zpow_natCast]
      _ ≤ ((2 : ℚ) ^ n) ^ t := by
          rw [div_le_iff₀ (by positivity), mul_comm]
          exact hclose
      _ = (2 ^ t) ^ n := by rw [← zpow_natCast, ← zpow_natCast, ← zpow_mul, ← zpow_mul, mul_comm]
  exact (pow_le_pow_iff_left₀ (by positivity) (by positivity) hn.ne').mp hpower

/-- A power of ten that is guessed from a power of two is not ten times too large. -/
theorem ten_zpow_guess_le {t : ℤ} (ht : t ≤ 100000) :
    (10 : ℚ) ^ (t * 30103 / 100000 - 1) ≤ 2 ^ t := by
  have hlow : (2 : ℕ) ^ 100000 ≤ 10 ^ 30103 := by decide +kernel
  have hhigh : (10 : ℕ) ^ 30103 ≤ 2 * 2 ^ 100000 := by decide +kernel
  have hfloor : t * 30103 / 100000 * (100000 : ℕ) ≤ t * (30103 : ℕ) := by omega
  exact ten_zpow_le_two_zpow (by norm_num) hlow hhigh (by exact_mod_cast ht) hfloor

theorem reachesPowerOfTen_leadingPlace {i : RoundingInterval} (hpos : 0 < i.center)
    (hsize : i.center.log2 ≤ 100000) : i.reachesPowerOfTen i.leadingPlace = true := by
  unfold leadingPlace
  simp only
  obtain ⟨t, ht⟩ : ∃ t : ℤ, (i.center.log2 : ℤ) - 1076 = t := ⟨_, rfl⟩
  rw [ht]
  by_cases hguess : i.reachesPowerOfTen (t * 30103 / 100000) = true
  · rw [hguess]
    by_cases hnext : i.reachesPowerOfTen (t * 30103 / 100000 + 1) = true
    · rwa [if_neg (by simp), if_pos hnext]
    · rwa [if_neg (by simp), if_neg hnext]
  · rw [if_pos (by simpa using hguess), reachesPowerOfTen_iff, grid, neg_neg]
    have hlog : (2 : ℚ) ^ (i.center.log2 : ℤ) ≤ i.center := by
      exact_mod_cast Nat.log2_self_le hpos.ne'
    have hpow : (10 : ℚ) ^ (t * 30103 / 100000 - 1) ≤ 2 ^ t := ten_zpow_guess_le (by omega)
    calc quarters * 10 ^ (t * 30103 / 100000 - 1)
        ≤ quarters * 2 ^ t := mul_le_mul_of_nonneg_left hpow quarters_pos.le
      _ = 2 ^ (1076 + t) := by rw [quarters, zpow_add₀ two_ne_zero]
      _ = 2 ^ (i.center.log2 : ℤ) := by rw [← ht, add_sub_cancel]
      _ ≤ i.center := hlog

/-! ### The interval of a double -/

variable {x : Double}

theorem center_ofDouble (x : Double) :
    (ofDouble x).center = 4 * (x.significand * 2 ^ x.shift) := by
  rw [← units_eq]
  rfl

theorem cast_center_ofDouble (x : Double) :
    ((ofDouble x).center : ℚ) = 4 * (x.significand * 2 ^ x.shift) := by
  rw [center_ofDouble]
  push_cast
  ring

theorem centred_ofDouble (hunits : x.units ≠ 0) : (ofDouble x).Centred := by
  have hlow := low_ofDouble hunits
  have hhigh := high_ofDouble x
  have hreach : (0 : ℚ) < reach x := by
    have hpos : 0 < reach x := by
      unfold reach
      split <;> positivity
    exact_mod_cast hpos
  have hgap : (0 : ℚ) < 2 ^ x.shift := by positivity
  have hcenter := cast_center_ofDouble x
  constructor
  · have hlt : ((ofDouble x).low : ℚ) < (ofDouble x).center := by
      rw [hlow, hcenter]
      linarith
    exact_mod_cast hlt
  · have hlt : ((ofDouble x).center : ℚ) < (ofDouble x).high := by
      rw [hhigh, hcenter]
      linarith
    exact_mod_cast hlt

/-- The interval of a double is wider than one part in `2 ^ 53` of its centre. -/
theorem center_lt_width (hunits : x.units ≠ 0) :
    ((ofDouble x).center : ℚ) < 2 ^ 53 * ((ofDouble x).high - (ofDouble x).low) := by
  have hgap : (0 : ℚ) < 2 ^ x.shift := by positivity
  have hcenter := cast_center_ofDouble x
  rw [hcenter, low_ofDouble hunits, high_ofDouble]
  by_cases hpower : x.fractionField = 0 ∧ 1 < x.exponentField
  · have hreach : (reach x : ℚ) = 2 ^ x.shift := by
      rw [reach, if_pos hpower]
      push_cast
      ring
    have hsplit : x.significand = 2 ^ 52 := by
      rw [significand, if_neg (by omega), hpower.1]
      rfl
    rw [hreach, hsplit]
    push_cast
    linarith
  · have hreach : (reach x : ℚ) = 2 * 2 ^ x.shift := by
      rw [reach, if_neg hpower]
      push_cast
      ring
    have hlt : (x.significand : ℚ) < 2 ^ 53 := by
      have hnat : x.significand < 2 ^ 53 := x.significand_lt
      exact_mod_cast hnat
    have hscaled : (x.significand : ℚ) * 2 ^ x.shift < 2 ^ 53 * 2 ^ x.shift := by gcongr
    rw [hreach]
    linarith

theorem log2_center_le (hfinite : x.isFinite = true) : (ofDouble x).center.log2 ≤ 100000 := by
  have hshift := shift_le hfinite
  have hlt : (ofDouble x).center < 2 ^ (2 + 53 + x.shift) := by
    have hsignificand : x.significand < 2 ^ 53 := x.significand_lt
    calc (ofDouble x).center = 4 * (x.significand * 2 ^ x.shift) := center_ofDouble x
      _ < 4 * (2 ^ 53 * 2 ^ x.shift) := by gcongr
      _ = 2 ^ (2 + 53 + x.shift) := by rw [pow_add, pow_add, mul_assoc]; rfl
  by_cases hzero : (ofDouble x).center = 0
  · rw [hzero]
    simp
  · have hlog := (Nat.log2_lt hzero).mpr hlt
    omega

/-- Seventeen digits always suffice: with `2 ^ 53 < 10 ^ 16` the grid of the seventeenth digit
is finer than the interval. -/
theorem candidate?_seventeen (hfinite : x.isFinite = true) (hunits : x.units ≠ 0)
    (tie : TieRule) :
    ((ofDouble x).candidate? tie (16 - (ofDouble x).leadingPlace)).isSome := by
  have hleading := reachesPowerOfTen_leadingPlace
    (Nat.zero_lt_of_lt (centred_ofDouble hunits).1) (log2_center_le hfinite)
  rw [reachesPowerOfTen_iff] at hleading
  have hpos : 0 < grid (16 - (ofDouble x).leadingPlace) :=
    mul_pos quarters_pos (zpow_pos (by norm_num) _)
  have hfine : grid (16 - (ofDouble x).leadingPlace) * 10 ^ 16 ≤ (ofDouble x).center := by
    have hgrid : grid (16 - (ofDouble x).leadingPlace) * 10 ^ 16 =
        grid (-(ofDouble x).leadingPlace) := by
      rw [grid, grid, mul_assoc, ← zpow_natCast, ← zpow_add₀ (by norm_num)]
      congr 2
      push_cast
      ring
    rwa [hgrid]
  have hwidth := center_lt_width hunits
  apply candidate?_isSome tie
  · linarith
  · linarith

/-- Shortest decimals are inside the interval. -/
theorem shortest_contains (hfinite : x.isFinite = true) (hunits : x.units ≠ 0) (tie : TieRule) :
    ∃ (n : ℕ) (places : ℤ), (ofDouble x).shortest tie = Decimal.ofScaled n places ∧ n ≠ 0 ∧
      (ofDouble x).Contains (n * grid places) := by
  obtain ⟨n, hn⟩ := Option.isSome_iff_exists.mp (candidate?_seventeen hfinite hunits tie)
  unfold shortest
  simp only
  cases hfirst : (List.range 17).findSome? fun k : ℕ =>
      ((ofDouble x).candidate? tie (k - (ofDouble x).leadingPlace)).map fun n =>
        Decimal.ofScaled n (k - (ofDouble x).leadingPlace) with
  | none =>
      -- the last try is the seventeenth digit
      have hlast := List.findSome?_eq_none_iff.mp hfirst 16 (by simp)
      rw [Option.map_eq_none_iff] at hlast
      exact absurd (hn.symm.trans hlast) nofun
  | some decimal =>
      obtain ⟨k, -, hk⟩ := List.exists_of_findSome?_eq_some hfirst
      obtain ⟨m, hm, rfl⟩ := Option.map_eq_some_iff.mp hk
      exact ⟨m, _, rfl, candidate?_contains (centred_ofDouble hunits) hm⟩

end EmbeddedExpr.Number.RoundingInterval
