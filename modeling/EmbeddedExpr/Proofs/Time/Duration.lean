import EmbeddedExpr.Proofs.Text.Escape
import EmbeddedExpr.Proofs.Time.Quantities

/-!
# Durations are read back

A duration is written as decimal seconds of its count of nanoseconds, with a sign if it is
negative.  Such a text is the spelling of a single quantity (`toList_text`), and this quantity is
the count again (`nanos_secondsOf`): the fraction has at most nine digits, so that nothing of it is
cut off, and the zeros dropped at its end do not count.
-/

namespace EmbeddedExpr.Time.Duration

open Number (AllDigits isDigit)

/-! ### Decimal seconds -/

theorem allDigits_paddedDigits (width n : Nat) : AllDigits (paddedDigits width n) :=
  (Number.allDigits_zeros _).append (Number.allDigits_toDigits n)

/-- A number that is not too long for the width fills it with digits that spell it. -/
theorem paddedDigits_spec {width n : Nat} (hpos : 0 < width) (h : n < 10 ^ width) :
    (paddedDigits width n).length = width ∧
      Nat.ofDigitChars 10 (paddedDigits width n) 0 = n := by
  have hlength : (Nat.toDigits 10 n).length ≤ width :=
    (Nat.length_toDigits_le_iff (by decide) hpos).mpr h
  constructor
  · simp only [paddedDigits, List.length_append, List.length_replicate]
    omega
  · simp only [paddedDigits, Nat.ofDigitChars_append, Nat.ofDigitChars_replicate_zero,
      Nat.mul_zero, Nat.ofDigitChars_ten_toDigits]

/-- The digits after the point of so many nanoseconds below a second. -/
def fractionText (nanos : Nat) : List Char :=
  ((paddedDigits 9 nanos).reverse.dropWhile (· == '0')).reverse

/-- The fraction and the zeros dropped from it are nine digits that spell the nanoseconds. -/
theorem fractionText_spec {nanos : Nat} (hnanos : nanos < 1000000000) :
    AllDigits (fractionText nanos) ∧ ∃ k, (fractionText nanos).length + k = 9 ∧
      Nat.ofDigitChars 10 (fractionText nanos) 0 * 10 ^ k = nanos := by
  obtain ⟨hlength, hvalue⟩ := paddedDigits_spec (show 0 < 9 by decide) hnanos
  obtain ⟨k, hk⟩ := Number.reverse_dropWhile_append '0' (paddedDigits 9 nanos)
  have htext : fractionText nanos ++ List.replicate k '0' = paddedDigits 9 nanos := hk
  have hdigits := allDigits_paddedDigits 9 nanos
  refine ⟨fun c hc => hdigits c (htext ▸ List.mem_append_left _ hc), k, ?_, ?_⟩
  · rwa [← htext, List.length_append, List.length_replicate] at hlength
  · rwa [← htext, Nat.ofDigitChars_append, Nat.ofDigitChars_replicate_zero, Nat.mul_comm] at hvalue

/-- So many nanoseconds as a quantity of seconds. -/
def secondsOf (n : Nat) : Quantity where
  whole := Nat.toDigits 10 (n / 1000000000)
  fraction := if n % 1000000000 = 0 then none else some (fractionText (n % 1000000000))
  unit := ['s']
  size := 1000000000
  allDigits := by
    refine (Number.allDigits_toDigits _).append ?_
    split
    · nofun
    · exact (fractionText_spec (Nat.mod_lt n (by decide))).1
  hasDigit := by simp
  isUnit := by decide

/-- The quantity of seconds that a duration is written as, with its sign. -/
def spelling (d : Duration) : Spelling :=
  ⟨if d.isNegative then .minus else .none, [secondsOf d.total.natAbs]⟩

theorem toList_text (d : Duration) : d.text.toList = d.spelling.text := by
  have hseconds : d.seconds.natAbs = d.total.natAbs / 1000000000 := Int.natAbs_tdiv _ _
  have hnanos : d.nanos.natAbs = d.total.natAbs % 1000000000 := Int.natAbs_tmod _ _
  have hsign : (if d.isNegative = true then Sign.minus else Sign.none).text =
      (if d.isNegative = true then "-" else "").toList := by
    split <;> rfl
  simp only [text, Spelling.text, spelling, hsign, Spelling.body, List.flatMap_singleton,
    Quantity.text, secondsOf, fractionText, hseconds, hnanos]
  split <;> simp

/-- The quantity is the count that it was made of. -/
theorem nanos_secondsOf (n : Nat) : (secondsOf n).cutOff.nanos = n := by
  have hsum := Nat.div_add_mod' n 1000000000
  have hwhole : Nat.ofDigitChars 10 (secondsOf n).whole 0 = n / 1000000000 :=
    Nat.ofDigitChars_ten_toDigits
  have hsize : (secondsOf n).size = 1000000000 := rfl
  by_cases hzero : n % 1000000000 = 0
  · have hplaces : (secondsOf n).places = [] := by
      simp [Quantity.places, secondsOf, hzero]
    rw [Quantity.nanos_cutOff_of_short (by simp [hplaces]), Quantity.nanos_eq, hwhole, hplaces,
      hsize, Nat.ofDigitChars_nil, Nat.zero_mul, Nat.zero_div, ← hzero, hsum]
  · have hplaces : (secondsOf n).places = fractionText (n % 1000000000) := by
      simp [Quantity.places, secondsOf, hzero]
    obtain ⟨-, k, hlength, hnanos⟩ :=
      fractionText_spec (Nat.mod_lt n (by decide : 0 < 1000000000))
    -- the digits and the zeros dropped behind them fill the nine places of a second
    have hsecond : 1000000000 = 10 ^ k * 10 ^ (fractionText (n % 1000000000)).length := by
      rw [← Nat.pow_add, Nat.add_comm, hlength]
    have hpart : Nat.ofDigitChars 10 (fractionText (n % 1000000000)) 0 * 1000000000 /
        10 ^ (fractionText (n % 1000000000)).length = n % 1000000000 := by
      rw [congrArg (Nat.ofDigitChars 10 (fractionText (n % 1000000000)) 0 * ·) hsecond,
        ← Nat.mul_assoc, Nat.mul_div_cancel _ (Nat.pow_pos (by decide)), hnanos]
    rw [Quantity.nanos_cutOff_of_short (by rw [hplaces]; omega), Quantity.nanos_eq, hwhole,
      hplaces, hsize, hpart, hsum]

/-- The text of a duration is read as the duration. -/
theorem ofText?_text (d : Duration) : ofText? d.text.toList = some d := by
  have hnanos : d.spelling.cutOff.nanos = d.spelling.sign.apply d.total.natAbs := by
    simp [Spelling.nanos, Spelling.cutOff, spelling, nanos_secondsOf]
  rw [toList_text, Spelling.ofText?_text, ofNanos?_eq_some_iff, hnanos, spelling, isNegative]
  split
  · rename_i hnegative
    rw [decide_eq_true_iff] at hnegative
    rw [Sign.apply]
    omega
  · rename_i hnegative
    rw [decide_eq_true_iff] at hnegative
    rw [Sign.apply]
    omega

/-! ### As the body of a literal -/

/-- The characters of the text of a duration. -/
theorem mem_text {d : Duration} {c : Char} (h : c ∈ d.text.toList) :
    isDigit c = true ∨ c ∈ ['-', '.', 's'] := by
  rw [toList_text, Spelling.text, List.mem_append] at h
  rcases h with hsign | hquantity
  · right
    unfold spelling at hsign
    split at hsign
    · exact List.mem_cons.mpr (.inl (List.mem_singleton.mp hsign))
    · cases hsign
  · have hbody : Spelling.body d.spelling.quantities = (secondsOf d.total.natAbs).text :=
      List.append_nil _
    rw [hbody] at hquantity
    rcases (secondsOf d.total.natAbs).mem_text hquantity with hdigit | rfl | hunit
    · exact .inl hdigit
    · exact .inr (by decide)
    · exact .inr (List.mem_cons_of_mem _ (List.mem_cons_of_mem _ hunit))

/-- Nothing of the text of a duration is written as an escape. -/
theorem escapeBody_text (d : Duration) : Text.escapeBody d.text.toList = d.text.toList := by
  refine Text.escapeBody_eq_self fun c hc => ?_
  rcases mem_text hc with hdigit | hmark
  · exact Text.escapeChar_of_isDigit hdigit
  · have hmarks : ∀ e ∈ ['-', '.', 's'], Text.escapeChar e = [e] := by
      simp [Text.escapeChar, Text.isControl]
    exact hmarks c hmark

end EmbeddedExpr.Time.Duration
