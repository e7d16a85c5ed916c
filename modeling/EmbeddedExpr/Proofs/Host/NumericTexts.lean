import EmbeddedExpr.Host.Codec
import EmbeddedExpr.Proofs.Number.Nearest
import EmbeddedExpr.Proofs.Text.Run
import EmbeddedExpr.Proofs.Time.Zone

/-!
# Numbers that a record states as a text

A record that pins an integer may state it as a decimal.  A decimal without a fraction is read as an
integer of 128 bits; a decimal with a fraction, or without one but too large for that, is read as a
double first and truncated then (`PlainDecimal.payload_cases`).

The decimals that are too large for an integer are too large for a pun as well, and so are the
doubles that they are read as.  What is left are the decimals with a fraction below `2 ^ 64`.  They
are rounded before they are truncated, so that the pun is the whole part of a double nearest to the
decimal.  This is the whole part of the decimal itself unless rounding carries it to the next whole
number, for which it takes more than 15 digits (`PlainDecimal.lt_gap`).
-/

namespace EmbeddedExpr.HostValue

open Double (IsNearest signFactor unitsPerOne wholePart)
open Number (AllDigits numeral isDigit)
open Time.Duration (Sign)

/-! ### Plain decimals -/

/-- A decimal as it is written: digits behind at most one sign, and behind a point more digits. -/
structure PlainDecimal where
  sign : Sign
  whole : List Char
  /-- The digits behind the point.  Without digits there is no point either. -/
  fraction : List Char
  whole_ne_nil : whole ≠ []
  whole_digits : AllDigits whole
  fraction_digits : AllDigits fraction

namespace PlainDecimal

/-- The point and the digits behind it. -/
def fractionText : List Char → List Char
  | [] => []
  | digits => '.' :: digits

/-- The characters behind the sign. -/
def body (d : PlainDecimal) : List Char := d.whole ++ fractionText d.fraction

def characters (d : PlainDecimal) : List Char := d.sign.text ++ d.body

def text (d : PlainDecimal) : String := String.ofList d.characters

def negative (d : PlainDecimal) : Bool :=
  match d.sign with
  | .minus => true
  | _ => false

/-- The number that the digits denote. -/
def magnitude (d : PlainDecimal) : ℚ :=
  numeral 10 d.whole + numeral 10 d.fraction / 10 ^ d.fraction.length

/-- The number that the decimal denotes. -/
def value (d : PlainDecimal) : ℚ := signFactor d.negative * d.magnitude

end PlainDecimal

/-! ### What is pinned -/

/-- The outcome of an integer pun for a number: its whole part if that is in the range of the kind,
and otherwise that the pun is invalid. -/
inductive Pinned (ofWhole : ℤ → Value) (lo hi : ℤ) (q : ℚ) : Except CodecError Value → Prop
  | fits (h : lo ≤ wholePart q ∧ wholePart q < hi) :
      Pinned ofWhole lo hi q (.ok (ofWhole (wholePart q)))
  | refused {e : CodecError} (h : ¬(lo ≤ wholePart q ∧ wholePart q < hi))
      (hcategory : e.category = .invalidTypePun) : Pinned ofWhole lo hi q (.error e)

/-- A text pins both kinds of integers to a number. -/
structure PinsTo (s : String) (q : ℚ) : Prop where
  int : Pinned (fun n => .int (Int64.ofInt n)) (-0x8000000000000000) 0x8000000000000000 q
    (record [("cel_int", text s)]).decode
  uint : Pinned (fun n => .uint (UInt64.ofNat n.toNat)) 0 0x10000000000000000 q
    (record [("cel_uint", text s)]).decode

theorem decode_pun (pun : Pun) (value : HostValue) :
    (record [(pun.field, value)]).decode = decodePun pun value := by
  have hpun : pun? [(pun.field, value)] = some (pun, value) := by cases pun <;> rfl
  rw [decode, hpun]
  rfl

/-- Both kinds are pinned alike, and their integers are less than `2 ^ 64` away from zero. -/
theorem pinsTo_of_forall {s : String} {q : ℚ}
    (h : ∀ (pun : Pun) (ofWhole : ℤ → Value) (lo hi : ℤ), -2 ^ 64 < lo → hi ≤ 2 ^ 64 →
      Pinned ofWhole lo hi q ((wholePayload pun lo hi (text s)).map ofWhole)) : PinsTo s q where
  int := decode_pun .int (text s) ▸ h .int _ _ _ (by norm_num) (by norm_num)
  uint := decode_pun .uint (text s) ▸ h .uint _ _ _ (by norm_num) (by norm_num)

section Payloads

variable {pun : Pun} {value : HostValue} {ofWhole : ℤ → Value} {lo hi : ℤ} {q : ℚ} {x : Double}

theorem pinned_whole {n : ℤ} (h : payload pun value = .ok (.whole n)) (hn : n = q) :
    Pinned ofWhole lo hi q ((wholePayload pun lo hi value).map ofWhole) := by
  obtain rfl : wholePart q = n := hn ▸ Double.wholePart_intCast n
  rw [wholePayload, h]
  simp only
  split
  · exact .fits ‹_›
  · exact .refused ‹_› rfl

theorem pinned_real (h : payload pun value = .ok (.real x)) (hfinite : x.isFinite = true)
    (hwhole : x.truncate = wholePart q) :
    Pinned ofWhole lo hi q ((wholePayload pun lo hi value).map ofWhole) := by
  rw [wholePayload, h]
  simp only [Double.truncateWithin?_of_finite hfinite, hwhole]
  by_cases hrange : lo ≤ wholePart q ∧ wholePart q < hi
  · rw [if_pos hrange]
    exact .fits hrange
  · rw [if_neg hrange]
    exact .refused hrange rfl

/-- Numbers from `2 ^ 64` on are refused if they are read as doubles from there on, or as none. -/
theorem pinned_beyond {s : String}
    (h : payload pun value = if x.isFinite then .ok (.real x) else .error (.punNotNumeric pun s))
    (hlo : -2 ^ 64 < lo) (hhi : hi ≤ 2 ^ 64) (hq : 2 ^ 64 ≤ |q|)
    (hx : x.isFinite = true → 2 ^ 64 ≤ |x.rational|) :
    Pinned ofWhole lo hi q ((wholePayload pun lo hi value).map ofWhole) := by
  have hout {r : ℚ} (hr : 2 ^ 64 ≤ |r|) : ¬(lo ≤ wholePart r ∧ wholePart r < hi) := by
    have habs : 2 ^ 64 ≤ |wholePart r| :=
      Double.le_abs_wholePart (n := 2 ^ 64) (by exact_mod_cast hr)
    rcases le_abs.mp habs with hhigh | hlow <;> omega
  rw [wholePayload, h]
  by_cases hfinite : x.isFinite = true
  · have hrange := hout (hx hfinite)
    rw [← Double.truncate_eq_wholePart] at hrange
    rw [if_pos hfinite]
    simp only [Double.truncateWithin?_of_finite hfinite, if_neg hrange]
    exact .refused (hout hq) rfl
  · rw [if_neg hfinite]
    exact .refused (hout hq) rfl

end Payloads

namespace PlainDecimal

variable {d : PlainDecimal}

/-! ### Reading a plain decimal -/

/-- The parts that a plain decimal is read in when it is read as a double. -/
def decimal (d : PlainDecimal) : Number.DecimalText := ⟨d.negative, d.whole, d.fraction, 0⟩

theorem decimal_digits (d : PlainDecimal) : AllDigits (d.decimal.whole ++ d.decimal.fraction) :=
  d.whole_digits.append d.fraction_digits

theorem isDigit_of_mem_body {c : Char} (h : c ∈ d.body) : isDigit c = true ∨ c = '.' := by
  rcases List.mem_append.mp h with hwhole | hfraction
  · exact .inl (d.whole_digits c hwhole)
  · cases hdigits : d.fraction with
    | nil => rw [hdigits] at hfraction; cases hfraction
    | cons first rest =>
        rw [hdigits] at hfraction
        rcases List.mem_cons.mp hfraction with rfl | hmem
        · exact .inr rfl
        · exact .inl (d.fraction_digits c (hdigits ▸ hmem))

/-- No character of a plain decimal is trimmed. -/
theorem trim_characters (d : PlainDecimal) : Text.trim d.characters = d.characters := by
  have hsolid : ∀ c ∈ d.characters, Text.isBlank c = false := by
    intro c hc
    rcases List.mem_append.mp hc with hsign | hbody
    · cases hs : d.sign <;> simp_all [Sign.text] <;> decide
    · rcases isDigit_of_mem_body hbody with hdigit | rfl
      · obtain ⟨hlow, hhigh⟩ := Number.toNat_of_isDigit hdigit
        simp only [Text.isBlank, decide_eq_false_iff_not]
        omega
      · decide
  have hkeep {text : List Char} (h : ∀ c ∈ text, Text.isBlank c = false) :
      text.dropWhile Text.isBlank = text := by
    cases text with
    | nil => rfl
    | cons c rest => exact List.dropWhile_cons_of_neg (by simp [h c List.mem_cons_self])
  rw [Text.trim, hkeep hsolid, hkeep fun c hc => hsolid c (List.mem_reverse.mp hc),
    List.reverse_reverse]

/-- A plain decimal is read as an integer just if it has no fraction and fits. -/
theorem readInt?_characters (d : PlainDecimal) {lo hi : ℤ} (hlo : lo < 0) :
    Number.readInt? lo hi d.characters =
      if d.fraction = [] ∧ lo ≤ d.sign.apply (numeral 10 d.whole) ∧
        d.sign.apply (numeral 10 d.whole) < hi then some (d.sign.apply (numeral 10 d.whole))
      else none := by
  by_cases hfraction : d.fraction = []
  · rw [characters, body, hfraction, fractionText, List.append_nil,
      Time.Zone.readInt?_signed hlo d.sign d.whole_ne_nil d.whole_digits, Option.filter_some]
    simp only [true_and, decide_eq_true_eq]
  · rw [if_neg fun h => hfraction h.1, ← Option.not_isSome_iff_eq_none, Option.isSome_iff_exists]
    rintro ⟨n, hn⟩
    obtain ⟨-, sign, digits, htext, -, hdigits, -⟩ := (Time.Zone.readInt?_eq_some_iff hlo).mp hn
    obtain ⟨c, rest, hrest⟩ := List.exists_cons_of_ne_nil hfraction
    -- the point is neither a sign nor a digit
    have hpoint : '.' ∈ sign.text ++ digits := by
      rw [htext, characters, body, hrest, fractionText]
      · simp
      · exact nofun
    rcases List.mem_append.mp hpoint with hsign | hdigit
    · cases sign <;> simp [Sign.text] at hsign
    · exact absurd (hdigits _ hdigit) (by decide)

theorem readMagnitude?_body (d : PlainDecimal) :
    Number.readMagnitude? d.negative d.body = some d.decimal := by
  have hstop : ∀ c ∈ (fractionText d.fraction).head?, isDigit c = false := by
    intro c hc
    cases hfraction : d.fraction with
    | nil => rw [hfraction] at hc; cases hc
    | cons first rest =>
        rw [hfraction] at hc
        cases hc
        rfl
  obtain ⟨htake, hdrop⟩ := Text.takeWhile_append_stop d.whole_digits hstop
  have hwhole : d.whole.isEmpty = false := by simpa using d.whole_ne_nil
  rw [Number.readMagnitude?, body, htake, hdrop]
  cases hfraction : d.fraction with
  | nil => simp [fractionText, hwhole, Number.readExponent?, decimal, hfraction]
  | cons first rest =>
      have hdigits := d.fraction_digits
      rw [hfraction] at hdigits
      have hend : ∀ c ∈ ([] : List Char).head?, isDigit c = false := nofun
      obtain ⟨hall, hnone⟩ := Text.takeWhile_append_stop hdigits hend
      rw [List.append_nil] at hall hnone
      simp [fractionText, hwhole, hall, hnone, Number.readExponent?, decimal, hfraction]

theorem readDouble?_characters (d : PlainDecimal) :
    Number.readDouble? d.characters = some d.decimal.toDouble := by
  have hread := d.readMagnitude?_body
  rw [negative] at hread
  rw [characters]
  cases hsign : d.sign with
  | plus =>
      rw [hsign] at hread
      simp only [Sign.text, List.cons_append, List.nil_append, Number.readDouble?, hread]
  | minus =>
      rw [hsign] at hread
      simp only [Sign.text, List.cons_append, List.nil_append, Number.readDouble?, hread]
  | none =>
      rw [hsign] at hread
      have hfirst : ∀ c ∈ d.body.head?, isDigit c = true ∨ c = '.' :=
        fun c hc => isDigit_of_mem_body (List.mem_of_mem_head? hc)
      rw [Sign.text, List.nil_append, Number.readDouble?]
      · simp only at hread
        rw [hread]
      · intro rest hplus
        exact absurd (hfirst '+' (by rw [hplus]; rfl)) (by decide)
      · intro rest hminus
        exact absurd (hfirst '-' (by rw [hminus]; rfl)) (by decide)

/-! ### The number of a plain decimal -/

theorem numeral_eq_ofDigitChars {digits : List Char} (h : AllDigits digits) :
    numeral 10 digits = Nat.ofDigitChars 10 digits 0 := by
  rcases eq_or_ne digits [] with rfl | hne
  · rfl
  · exact (Number.readNat?_eq_some_iff.mp (Number.readNat?_eq h hne)).2.2

/-- The digits of both sides of the point, as one number. -/
theorem significand_decimal (d : PlainDecimal) : d.decimal.significand =
    numeral 10 d.whole * 10 ^ d.fraction.length + numeral 10 d.fraction := by
  rw [Number.DecimalText.significand, decimal, Nat.ofDigitChars_append,
    Nat.ofDigitChars_eq_ofDigitChars_zero, numeral_eq_ofDigitChars d.whole_digits,
    numeral_eq_ofDigitChars d.fraction_digits, mul_comm]

theorem magnitude_eq (d : PlainDecimal) :
    d.magnitude = d.decimal.significand / 10 ^ d.fraction.length := by
  rw [significand_decimal, magnitude]
  push_cast
  rw [add_div, mul_div_cancel_right₀ _ (by positivity)]

theorem value_decimal (d : PlainDecimal) : d.decimal.value = d.magnitude := by
  rw [magnitude_eq, Number.DecimalText.value, decimal, zero_sub, zpow_neg, zpow_natCast,
    div_eq_mul_inv]

theorem magnitude_nonneg (d : PlainDecimal) : 0 ≤ d.magnitude := by
  unfold magnitude
  positivity

theorem abs_value (d : PlainDecimal) : |d.value| = d.magnitude := by
  rw [value, Double.abs_signFactor_mul, abs_of_nonneg d.magnitude_nonneg]

theorem value_of_no_fraction (h : d.fraction = []) :
    (d.sign.apply (numeral 10 d.whole) : ℚ) = d.value := by
  have hmagnitude : d.magnitude = numeral 10 d.whole := by
    rw [magnitude, h]
    simp [numeral]
  rw [value, hmagnitude, negative, signFactor]
  cases d.sign <;> simp [Sign.apply]

/-- With 15 digits at most, the next whole number is too far away to be rounded to. -/
theorem lt_gap (h : (d.whole ++ d.fraction).length ≤ 15) :
    d.magnitude < 2 ^ 53 * (⌊d.magnitude⌋ + 1 - d.magnitude) := by
  have hscale : (0 : ℚ) < 10 ^ d.fraction.length := by positivity
  have hfew : d.decimal.significand < 10 ^ 15 :=
    (Number.ofDigitChars_lt d.decimal_digits).trans_le (Nat.pow_le_pow_right (by decide) h)
  have hwhole : (d.decimal.significand : ℚ) = d.magnitude * 10 ^ d.fraction.length := by
    rw [magnitude_eq, div_mul_cancel₀ _ hscale.ne']
  -- the distance is a whole number of units of the last digit
  have hnext := mul_lt_mul_of_pos_right (Int.lt_floor_add_one d.magnitude) hscale
  rw [← hwhole] at hnext
  have hunit : (d.decimal.significand : ℤ) + 1 ≤
      (⌊d.magnitude⌋ + 1) * 10 ^ d.fraction.length := by
    exact_mod_cast hnext
  have hunit : (d.decimal.significand : ℚ) + 1 ≤
      (⌊d.magnitude⌋ + 1) * 10 ^ d.fraction.length := by
    exact_mod_cast hunit
  have hfew : (d.decimal.significand : ℚ) < 10 ^ 15 := by exact_mod_cast hfew
  refine lt_of_mul_lt_mul_right ?_ hscale.le
  rw [hwhole] at hfew hunit
  linarith

/-! ### What a plain decimal is pinned to -/

/-- A plain decimal without a fraction is read as the integer it denotes, if it fits 128 bits, and
any other as a double. -/
theorem payload_cases (d : PlainDecimal) (pun : Pun) :
    (d.fraction = [] ∧ ∃ n : ℤ, n = d.value ∧ payload pun (.text d.text) = .ok (.whole n)) ∨
      (d.fraction = [] → 2 ^ 64 ≤ d.magnitude) ∧ payload pun (.text d.text) =
        if d.decimal.toDouble.isFinite then .ok (.real d.decimal.toDouble)
          else .error (.punNotNumeric pun d.text) := by
  have htrimmed : Text.trim d.text.toList = d.characters := by
    rw [text, String.toList_ofList, trim_characters]
  have hread : Number.readInt? Number.leastInt128 Number.boundInt128 d.characters = _ :=
    d.readInt?_characters (by decide)
  cases hint : Number.readInt? Number.leastInt128 Number.boundInt128 d.characters with
  | some n =>
      rw [hint] at hread
      obtain ⟨⟨hfraction, -⟩, hsome⟩ := Option.ite_none_right_eq_some.mp hread.symm
      obtain rfl := Option.some.inj hsome
      refine .inl ⟨hfraction, _, value_of_no_fraction hfraction, ?_⟩
      rw [payload]
      simp only [htrimmed, hint]
  | none =>
      refine .inr ⟨fun hfraction => ?_, ?_⟩
      · have hout : ¬(Number.leastInt128 ≤ d.sign.apply (numeral 10 d.whole) ∧
            d.sign.apply (numeral 10 d.whole) < Number.boundInt128) := by
          intro hrange
          rw [hint, if_pos ⟨hfraction, hrange⟩] at hread
          cases hread
        have hlarge : 2 ^ 64 ≤ |d.sign.apply (numeral 10 d.whole)| := by
          rw [Number.leastInt128, Number.boundInt128] at hout
          rw [le_abs]
          omega
        rw [← abs_value, ← value_of_no_fraction hfraction]
        exact_mod_cast hlarge
      · rw [payload]
        simp only [htrimmed, hint, readDouble?_characters]

theorem pinsTo_of_beyond (h : 2 ^ 64 ≤ d.magnitude) : PinsTo d.text d.value := by
  refine pinsTo_of_forall fun pun ofWhole lo hi hlo hhi => ?_
  rcases d.payload_cases pun with ⟨-, n, hn, hpayload⟩ | ⟨-, hpayload⟩
  · exact pinned_whole hpayload hn
  · refine pinned_beyond hpayload hlo hhi (h.trans_eq d.abs_value.symm) fun hfinite => ?_
    obtain ⟨-, hunits⟩ :=
      Double.le_units_toDouble d.decimal_digits (h.trans_eq d.value_decimal.symm) hfinite
    rw [Double.abs_rational, le_div_iff₀ Double.unitsPerOne_cast_pos]
    exact_mod_cast hunits

theorem pinsTo_of_no_fraction (h : d.fraction = []) : PinsTo d.text d.value := by
  rcases le_or_gt (2 ^ 64) d.magnitude with hge | hlt
  · exact pinsTo_of_beyond hge
  · refine pinsTo_of_forall fun pun ofWhole lo hi _ _ => ?_
    rcases d.payload_cases pun with ⟨-, n, hn, hpayload⟩ | ⟨hlarge, -⟩
    · exact pinned_whole hpayload hn
    · exact absurd (hlarge h) hlt.not_ge

theorem rounded_decimal (h : d.magnitude < 2 ^ 64) :
    Double.Rounded d.decimal.toDouble d.negative (d.magnitude * (unitsPerOne : ℕ)) := by
  have hlt : d.decimal.value < 2 ^ (1023 : ℤ) := by
    rw [value_decimal]
    calc d.magnitude < 2 ^ 64 := h
      _ = 2 ^ (64 : ℤ) := (zpow_natCast 2 64).symm
      _ ≤ 2 ^ (1023 : ℤ) := zpow_le_zpow_right₀ one_le_two (by norm_num)
  have hrounded := Double.rounded_toDouble d.decimal_digits hlt
  rwa [value_decimal] at hrounded

/-- A fraction takes the decimal through a double. -/
theorem pinsTo_of_truncate (hfraction : d.fraction ≠ []) (hlt : d.magnitude < 2 ^ 64) {q : ℚ}
    (hwhole : d.decimal.toDouble.truncate = wholePart q) : PinsTo d.text q := by
  have hfinite := (rounded_decimal hlt).finite
  refine pinsTo_of_forall fun pun ofWhole lo hi _ _ => ?_
  rcases d.payload_cases pun with ⟨hnone, -⟩ | ⟨-, hpayload⟩
  · exact absurd hnone hfraction
  · rw [if_pos hfinite] at hpayload
    exact pinned_real hpayload hfinite hwhole

end PlainDecimal

/-- A plain decimal pins an integer to its whole part if it has no fraction, if it has 15 digits at
most, if it is out of the range of both kinds or if the next whole number is farther away than its
part in `2 ^ 53`.  In the range, a decimal with a fraction always pins the integer to the whole part
of a double nearest to it. -/
theorem text_pins_whole_part (d : PlainDecimal) :
    (d.fraction = [] ∨ (d.whole ++ d.fraction).length ≤ 15 ∨ 2 ^ 64 ≤ d.magnitude ∨
        d.magnitude < 2 ^ 53 * (⌊d.magnitude⌋ + 1 - d.magnitude) → PinsTo d.text d.value) ∧
      (d.fraction ≠ [] → d.magnitude < 2 ^ 64 →
        ∃ x, IsNearest x d.value ∧ PinsTo d.text x.rational) := by
  constructor
  · intro h
    by_cases hfraction : d.fraction = []
    · exact PlainDecimal.pinsTo_of_no_fraction hfraction
    rcases le_or_gt (2 ^ 64) d.magnitude with hge | hlt
    · exact PlainDecimal.pinsTo_of_beyond hge
    have hgap : d.magnitude < 2 ^ 53 * (⌊d.magnitude⌋ + 1 - d.magnitude) := by
      rcases h with hnone | hfew | hge | hgap
      · exact absurd hnone hfraction
      · exact PlainDecimal.lt_gap hfew
      · exact absurd hge hlt.not_ge
      · exact hgap
    have hrounded := PlainDecimal.rounded_decimal hlt
    exact PlainDecimal.pinsTo_of_truncate hfraction hlt
      (hrounded.truncate_eq d.magnitude_nonneg hgap)
  · intro hfraction hlt
    have hnearest := (PlainDecimal.rounded_decimal hlt).isNearest
      (mul_nonneg d.magnitude_nonneg Double.unitsPerOne_cast_pos.le)
    rw [mul_div_cancel_right₀ _ Double.unitsPerOne_cast_pos.ne'] at hnearest
    exact ⟨_, hnearest, PlainDecimal.pinsTo_of_truncate hfraction hlt
      (Double.truncate_eq_wholePart _)⟩

/-- The decimal `-12.75`. -/
def belowMinusTwelve : PlainDecimal :=
  ⟨.minus, ['1', '2'], ['7', '5'], by decide, by decide, by decide⟩

theorem text_pins_whole_part_negative :
    belowMinusTwelve.text = "-12.75" ∧ wholePart belowMinusTwelve.value = -12 ∧
      PinsTo "-12.75" belowMinusTwelve.value ∧
      ∃ x, IsNearest x belowMinusTwelve.value ∧ PinsTo "-12.75" x.rational := by
  have hmagnitude : belowMinusTwelve.magnitude = 51 / 4 := by
    have hdigits : numeral 10 belowMinusTwelve.whole = 12 ∧
        numeral 10 belowMinusTwelve.fraction = 75 := by decide
    rw [PlainDecimal.magnitude, hdigits.1, hdigits.2]
    norm_num [belowMinusTwelve]
  have hwhole : wholePart belowMinusTwelve.value = -12 := by
    rw [PlainDecimal.value, hmagnitude, Double.wholePart_signFactor_mul _ (by norm_num)]
    norm_num [PlainDecimal.negative, belowMinusTwelve]
  exact ⟨rfl, hwhole, (text_pins_whole_part belowMinusTwelve).1 (.inr (.inl (by decide))),
    (text_pins_whole_part belowMinusTwelve).2 (by decide) (by rw [hmagnitude]; norm_num)⟩

/-- The decimal `9007199254740993.0`, one more than `2 ^ 53`. -/
def oddAboveDoubles : PlainDecimal :=
  ⟨.none, "9007199254740993".toList, ['0'], by decide, by decide, by decide⟩

/-- A whole number with a fraction of zero is pinned to the whole number before it. -/
theorem text_pins_rounded :
    oddAboveDoubles.text = "9007199254740993.0" ∧ oddAboveDoubles.value = 9007199254740993 ∧
      (record [("cel_int", text "9007199254740993.0")]).decode =
        .ok (.int 9007199254740992) ∧ ¬PinsTo "9007199254740993.0" oddAboveDoubles.value := by
  have hdigits : numeral 10 oddAboveDoubles.whole = 9007199254740993 ∧
      numeral 10 oddAboveDoubles.fraction = 0 := by decide
  have hvalue : oddAboveDoubles.value = 9007199254740993 := by
    rw [PlainDecimal.value, PlainDecimal.magnitude, hdigits.1, hdigits.2]
    norm_num [signFactor, PlainDecimal.negative, oddAboveDoubles]
  have hpayload : wholePayload .int (-0x8000000000000000) 0x8000000000000000
      (text "9007199254740993.0") = .ok 9007199254740992 := by decide +kernel
  have hdecode : (record [("cel_int", text "9007199254740993.0")]).decode =
      .ok (.int 9007199254740992) := by
    refine (decode_pun .int _).trans ?_
    rw [decodePun, hpayload]
    rfl
  refine ⟨rfl, hvalue, hdecode, fun h => ?_⟩
  have hpinned := h.int
  have hwhole : wholePart 9007199254740993 = 9007199254740993 :=
    Double.wholePart_intCast 9007199254740993
  rw [hdecode, hvalue] at hpinned
  generalize houtcome : Except.ok (Value.int 9007199254740992) = outcome at hpinned
  cases hpinned with
  | fits _ =>
      rw [hwhole] at houtcome
      have hword := Value.int.inj (Except.ok.inj houtcome)
      exact absurd hword (by decide)
  | refused _ _ => cases houtcome

end EmbeddedExpr.HostValue
