import EmbeddedExpr.Proofs.Number.Decimal

/-!
# The text of a double is read as that double

A layout only places the digits of a decimal: zeros go before or after them, a point between
them, or an exponent behind them.  Each of its forms is a `Spelling` of the decimal, and the
number that a spelling stands for does not depend on the form
(`positional_spelling`, `scientific_spelling`).  With the shortest decimal inside the rounding
interval, the text of a double gives the double back (`write_spelling`).
-/

namespace EmbeddedExpr.Number

open Double RoundingInterval

/-! ### Decimals -/

namespace Decimal

/-- The digits of a decimal as characters. -/
def text (d : Decimal) : List Char := d.digits.map Nat.digitChar

/-- The number that a decimal stands for. -/
def value (d : Decimal) : ℚ :=
  Nat.ofDigitChars 10 d.text 0 * 10 ^ (d.exponent + 1 - d.text.length)

/-- The digits of a decimal are digits and do not start with a zero. -/
structure Proper (d : Decimal) : Prop where
  allDigits : AllDigits d.text
  leads : ∃ c rest, d.text = c :: rest ∧ c ≠ '0'

theorem map_digitChar_digitsOf (n : ℕ) : (digitsOf n).map Nat.digitChar = Nat.toDigits 10 n := by
  rw [digitsOf, List.map_map]
  conv_rhs => rw [← List.map_id (Nat.toDigits 10 n)]
  apply List.map_congr_left
  intro c hc
  exact digitChar_toNat (isDigit_of_mem_toDigits hc)

/-- Nothing but zeros is dropped. -/
theorem dropTrailingZeros_append (digits : List ℕ) :
    ∃ k, dropTrailingZeros digits ++ List.replicate k 0 = digits :=
  reverse_dropWhile_append 0 digits

/-- Dropping the zeros at the end changes neither the first digit nor the number. -/
theorem ofScaled_spec {n : ℕ} (hn : n ≠ 0) (places : ℤ) :
    (ofScaled n places).Proper ∧ (ofScaled n places).value = n * 10 ^ (-places) := by
  obtain ⟨k, hk⟩ := dropTrailingZeros_append (digitsOf n)
  have htext : (ofScaled n places).text ++ List.replicate k '0' = Nat.toDigits 10 n := by
    have hmap := congrArg (List.map Nat.digitChar) hk
    rwa [List.map_append, List.map_replicate, map_digitChar_digitsOf] at hmap
  have hlength : (digitsOf n).length = (ofScaled n places).text.length + k := by
    rw [← List.length_map (f := Nat.digitChar), map_digitChar_digitsOf, ← htext,
      List.length_append, List.length_replicate]
  have hn' : n = 10 ^ k * Nat.ofDigitChars 10 (ofScaled n places).text 0 := by
    rw [← Nat.ofDigitChars_replicate_zero, ← Nat.ofDigitChars_append, htext,
      Nat.ofDigitChars_ten_toDigits]
  refine ⟨⟨?_, ?_⟩, ?_⟩
  · intro c hc
    exact isDigit_of_mem_toDigits (htext ▸ List.mem_append_left _ hc)
  · cases hcase : (ofScaled n places).text with
    | nil =>
        rw [hcase] at hn'
        exact absurd hn' hn
    | cons c rest =>
        rw [hcase, List.cons_append] at htext
        exact ⟨c, rest, rfl, head_toDigits hn htext.symm⟩
  · have hexponent : (ofScaled n places).exponent = (digitsOf n).length - 1 - places := rfl
    have hcast : (n : ℚ) = 10 ^ (k : ℤ) * Nat.ofDigitChars 10 (ofScaled n places).text 0 := by
      rw [zpow_natCast]
      exact_mod_cast hn'
    have hsum : (ofScaled n places).exponent + 1 - (ofScaled n places).text.length =
        k + -places := by
      rw [hexponent, hlength]
      push_cast
      ring
    rw [value, hsum, zpow_add₀ (by norm_num), hcast]
    ring

end Decimal

/-! ### Spellings -/

/-- The parts of an unsigned number as written. -/
structure Spelling where
  whole : List Char
  fraction : Option (List Char)
  exponent : Option ℤ

namespace Spelling

def fractionText : Option (List Char) → List Char
  | none => []
  | some digits => '.' :: digits

def exponentText : Option ℤ → List Char
  | none => []
  | some e => 'e' :: (if 0 ≤ e then '+' else '-') :: Nat.toDigits 10 e.natAbs

def text (s : Spelling) : List Char := s.whole ++ fractionText s.fraction ++ exponentText s.exponent

def decimal (s : Spelling) (negative : Bool) : DecimalText :=
  ⟨negative, s.whole, s.fraction.getD [], s.exponent.getD 0⟩

/-- Digits on both sides of a point, and no needless zero before it. -/
structure WellFormed (s : Spelling) : Prop where
  whole : AllDigits s.whole
  whole_ne_nil : s.whole ≠ []
  noNeedlessZero : s.whole.head? = some '0' → s.whole.length = 1
  fraction : ∀ digits ∈ s.fraction, AllDigits digits ∧ digits ≠ []

/-- A number that is written as a double: with a point or an exponent. -/
def IsReal (s : Spelling) : Prop := s.fraction.isSome ∨ s.exponent.isSome

theorem WellFormed.allDigits {s : Spelling} (h : s.WellFormed) (negative : Bool) :
    AllDigits ((s.decimal negative).whole ++ (s.decimal negative).fraction) := by
  apply h.whole.append
  show AllDigits (s.fraction.getD [])
  cases hfraction : s.fraction with
  | none => exact List.forall_mem_nil _
  | some digits => exact (h.fraction digits hfraction).1

end Spelling

/-- The text is a spelling of the decimal as a double. -/
def Decimal.HasSpelling (d : Decimal) (text : String) : Prop :=
  ∃ s : Spelling, s.WellFormed ∧ s.IsReal ∧ text.toList = s.text ∧
    ∀ negative, (s.decimal negative).value = d.value

open Layout

theorem toList_digitText (digits : List ℕ) :
    (digitText digits).toList = digits.map Nat.digitChar := String.toList_ofList

theorem toList_zeros (n : ℕ) :
    (digitText (List.replicate n 0)).toList = List.replicate n '0' := by
  rw [toList_digitText, List.map_replicate]
  rfl

variable {d : Decimal}

/-- Below one the point stands before the digits. -/
theorem positional_small (h : d.Proper) (hexponent : d.exponent < 0) :
    d.HasSpelling (positionalText true d) := by
  obtain ⟨c, rest, htext, -⟩ := h.leads
  have hne : d.text ≠ [] := by
    rw [htext]
    exact List.cons_ne_nil c rest
  obtain ⟨k, hk⟩ := Int.eq_ofNat_of_zero_le (by omega : 0 ≤ -d.exponent - 1)
  refine ⟨⟨['0'], some (List.replicate k '0' ++ d.text), none⟩, ⟨?_, ?_, ?_, ?_⟩, .inl rfl, ?_, ?_⟩
  · exact allDigits_zeros 1
  · exact List.cons_ne_nil _ _
  · exact fun _ => rfl
  · rintro digits ⟨⟩
    exact ⟨(allDigits_zeros k).append h.allDigits, List.append_ne_nil_of_right_ne_nil _ hne⟩
  · rw [positionalText, if_pos hexponent, hk, Int.toNat_natCast, String.toList_append,
      String.toList_append, toList_zeros, toList_digitText]
    simp [Spelling.text, Spelling.fractionText, Spelling.exponentText, Decimal.text]
  · intro negative
    have hsignificand : (Spelling.decimal ⟨['0'], some (List.replicate k '0' ++ d.text), none⟩
        negative).significand = Nat.ofDigitChars 10 d.text 0 := by
      show Nat.ofDigitChars 10 (List.replicate 1 '0' ++ (List.replicate k '0' ++ d.text)) 0 = _
      rw [Nat.ofDigitChars_append, Nat.ofDigitChars_replicate_zero, Nat.ofDigitChars_append,
        Nat.ofDigitChars_replicate_zero]
      simp
    have hplaces : (0 : ℤ) - (List.replicate k '0' ++ d.text).length =
        d.exponent + 1 - d.text.length := by
      rw [List.length_append, List.length_replicate]
      push_cast
      omega
    rw [DecimalText.value, hsignificand, Decimal.value, ← hplaces]
    rfl

/-- A whole number is filled up with zeros. -/
theorem positional_whole (h : d.Proper) {e : ℕ} (hexponent : d.exponent = e)
    (hlength : d.text.length ≤ e + 1) :
    d.HasSpelling (positionalText true d) := by
  obtain ⟨c, rest, htext, hc⟩ := h.leads
  have hdigits : d.digits.length ≤ e + 1 := by rwa [Decimal.text, List.length_map] at hlength
  obtain ⟨k, hk⟩ : ∃ k, e + 1 = d.text.length + k := ⟨_, (Nat.add_sub_of_le hlength).symm⟩
  refine ⟨⟨d.text ++ List.replicate k '0', some ['0'], none⟩, ⟨?_, ?_, ?_, ?_⟩, .inl rfl, ?_, ?_⟩
  · exact h.allDigits.append (allDigits_zeros k)
  · rw [htext]
    exact List.cons_ne_nil _ _
  · intro hzero
    rw [htext] at hzero
    exact absurd (Option.some.inj hzero) hc
  · rintro digits ⟨⟩
    exact ⟨allDigits_zeros 1, List.cons_ne_nil _ _⟩
  · -- the whole part takes all digits, and `k` zeros behind them
    have hfill : e + 1 - d.digits.length = k := by
      rw [Decimal.text, List.length_map] at hk
      omega
    rw [positionalText, if_neg (by omega), hexponent]
    simp only [Int.toNat_natCast, List.take_of_length_le hdigits, List.drop_of_length_le hdigits,
      List.isEmpty_nil, if_true, hfill, String.toList_append, toList_digitText, List.map_replicate]
    simp [Spelling.text, Spelling.fractionText, Spelling.exponentText, Decimal.text]
  · intro negative
    have hsignificand : (Spelling.decimal ⟨d.text ++ List.replicate k '0', some ['0'], none⟩
        negative).significand = 10 ^ (k + 1) * Nat.ofDigitChars 10 d.text 0 := by
      show Nat.ofDigitChars 10 (d.text ++ List.replicate k '0' ++ List.replicate 1 '0') 0 = _
      rw [Nat.ofDigitChars_append, Nat.ofDigitChars_replicate_zero, Nat.ofDigitChars_append,
        Nat.ofDigitChars_replicate_zero]
      ring
    have hplaces : d.exponent + 1 - d.text.length = k := by omega
    rw [DecimalText.value, hsignificand, Decimal.value, hplaces]
    show ((10 ^ (k + 1) * Nat.ofDigitChars 10 d.text 0 : ℕ) : ℚ) * 10 ^ ((0 : ℤ) - 1) = _
    rw [zero_sub, zpow_neg, zpow_one, zpow_natCast]
    push_cast
    ring

/-- The point stands between two digits. -/
theorem positional_split (h : d.Proper) {e : ℕ} (hexponent : d.exponent = e)
    (hlength : e + 1 < d.text.length) :
    d.HasSpelling (positionalText true d) := by
  obtain ⟨c, rest, htext, hc⟩ := h.leads
  have hdigits : e + 1 < d.digits.length := by rwa [Decimal.text, List.length_map] at hlength
  refine ⟨⟨d.text.take (e + 1), some (d.text.drop (e + 1)), none⟩, ⟨?_, ?_, ?_, ?_⟩, .inl rfl,
    ?_, ?_⟩
  · exact fun c hc => h.allDigits c (List.mem_of_mem_take hc)
  · rw [htext, List.take_succ_cons]
    exact List.cons_ne_nil _ _
  · intro hzero
    rw [htext, List.take_succ_cons] at hzero
    exact absurd (Option.some.inj hzero) hc
  · rintro digits ⟨⟩
    exact ⟨fun c hc => h.allDigits c (List.mem_of_mem_drop hc),
      List.ne_nil_of_length_pos (by rw [List.length_drop]; omega)⟩
  · have hfraction : (d.digits.drop (e + 1)).isEmpty = false := by
      rw [List.isEmpty_eq_false_iff]
      exact List.ne_nil_of_length_pos (by rw [List.length_drop]; omega)
    have hfill : e + 1 - (d.digits.take (e + 1)).length = 0 := by
      rw [List.length_take_of_le hdigits.le, Nat.sub_self]
    rw [positionalText, if_neg (by omega), hexponent]
    simp only [Int.toNat_natCast, hfraction, hfill, Bool.false_eq_true, if_false,
      String.toList_append, toList_digitText, List.map_replicate, List.map_take, List.map_drop]
    simp [Spelling.text, Spelling.fractionText, Spelling.exponentText, Decimal.text]
  · intro negative
    have hsignificand : (Spelling.decimal ⟨d.text.take (e + 1), some (d.text.drop (e + 1)), none⟩
        negative).significand = Nat.ofDigitChars 10 d.text 0 := by
      show Nat.ofDigitChars 10 (d.text.take (e + 1) ++ d.text.drop (e + 1)) 0 = _
      rw [List.take_append_drop]
    have hplaces : (0 : ℤ) - (d.text.drop (e + 1)).length = d.exponent + 1 - d.text.length := by
      rw [List.length_drop, hexponent]
      omega
    rw [DecimalText.value, hsignificand, Decimal.value, ← hplaces]
    rfl

theorem positional_spelling (h : d.Proper) :
    d.HasSpelling (positionalText true d) := by
  by_cases hexponent : d.exponent < 0
  · exact positional_small h hexponent
  · obtain ⟨e, he⟩ := Int.eq_ofNat_of_zero_le (by omega : 0 ≤ d.exponent)
    by_cases hlength : d.text.length ≤ e + 1
    · exact positional_whole h he hlength
    · exact positional_split h he (by omega)

/-- The digits behind the first one, which are left out with their point if there are none. -/
def behindPoint (rest : List Char) : Option (List Char) := if rest = [] then none else some rest

theorem getD_behindPoint (rest : List Char) : (behindPoint rest).getD [] = rest := by
  unfold behindPoint
  split
  · rename_i hnil
    rw [hnil]
    rfl
  · rfl

theorem toList_scientificText {c : Char} {rest : List Char} (htext : d.text = c :: rest) :
    (scientificText "+" d).toList = Spelling.text ⟨[c], behindPoint rest, some d.exponent⟩ := by
  obtain ⟨first, digits, hdigits, rfl, rfl⟩ := List.map_eq_cons_iff.mp htext
  have hsign : (if 0 ≤ d.exponent then "+" else "-").toList =
      [if 0 ≤ d.exponent then '+' else '-'] := by
    split <;> rfl
  have hnumber : (toString d.exponent.natAbs).toList = Nat.toDigits 10 d.exponent.natAbs :=
    Nat.toList_repr
  have hpoint : (if d.digits.length ≤ 1 then "" else "." ++ digitText (d.digits.drop 1)).toList =
      Spelling.fractionText (behindPoint (digits.map Nat.digitChar)) := by
    rw [behindPoint, hdigits]
    cases digits with
    | nil => rfl
    | cons a more =>
        rw [if_neg (by simp), if_neg (by simp), String.toList_append, toList_digitText]
        rfl
  rw [scientificText]
  simp only [String.toList_append, hsign, hnumber, hpoint, toList_digitText, Spelling.text,
    Spelling.exponentText]
  rw [hdigits]
  simp

theorem scientific_spelling (h : d.Proper) :
    d.HasSpelling (scientificText "+" d) := by
  obtain ⟨c, rest, htext, hc⟩ := h.leads
  have hall : AllDigits (c :: rest) := htext ▸ h.allDigits
  refine ⟨⟨[c], behindPoint rest, some d.exponent⟩, ⟨?_, ?_, ?_, ?_⟩, .inr rfl,
    toList_scientificText htext, ?_⟩
  · intro a ha
    rw [List.mem_singleton.mp ha]
    exact hall c (List.mem_cons_self ..)
  · exact List.cons_ne_nil _ _
  · exact fun _ => rfl
  · intro digits hdigits
    rw [behindPoint] at hdigits
    split at hdigits
    · cases hdigits
    · rename_i hne
      cases hdigits
      exact ⟨fun a ha => hall a (List.mem_cons_of_mem _ ha), hne⟩
  · intro negative
    have hsignificand : (Spelling.decimal ⟨[c], behindPoint rest, some d.exponent⟩
        negative).significand = Nat.ofDigitChars 10 d.text 0 := by
      show Nat.ofDigitChars 10 ([c] ++ (behindPoint rest).getD []) 0 = _
      rw [getD_behindPoint, htext]
      rfl
    have hplaces : d.exponent - ((behindPoint rest).getD []).length =
        d.exponent + 1 - d.text.length := by
      rw [getD_behindPoint, htext, List.length_cons]
      push_cast
      ring
    rw [DecimalText.value, hsignificand, Decimal.value, ← hplaces]
    rfl

/-! ### Doubles -/

variable {x : Double}

/-- A double without units is the zero of its sign. -/
theorem ofRatio_zero (hunits : x.units = 0) : Double.ofRatio x.isNegative 0 1 = x := by
  have hsignificand : x.significand = 0 := by
    rw [units_eq] at hunits
    exact (Nat.mul_eq_zero.mp hunits).resolve_right (Nat.two_pow_pos x.shift).ne'
  have hshift : x.shift = 0 := by
    unfold significand at hsignificand
    unfold shift
    split at hsignificand <;> omega
  have hword := ofBits_word x
  rw [hsignificand, hshift] at hword
  exact hword

/-- The text of a finite double spells a decimal that is read as the double. -/
theorem write_spelling (hfinite : x.isFinite = true) :
    ∃ s : Spelling, s.WellFormed ∧ s.IsReal ∧
      (Layout.document.write x).toList = (if x.isNegative then ['-'] else []) ++ s.text ∧
      (s.decimal x.isNegative).toDouble = x := by
  have hwrite (s : Spelling)
      (h : (if Layout.document.positional (shortestDecimal .toEven x).exponent
          then positionalText true (shortestDecimal .toEven x)
          else scientificText "+" (shortestDecimal .toEven x)).toList = s.text) :
      (Layout.document.write x).toList = (if x.isNegative then ['-'] else []) ++ s.text := by
    rw [Layout.write, ← h]
    show (if x.isNegative then "-" ++ _ else _ : String).toList = _
    split
    · rw [String.toList_append]
      rfl
    · rfl
  -- zero has no shortest decimal and is written apart, with its sign
  by_cases hunits : x.units = 0
  · refine ⟨⟨['0'], some ['0'], none⟩, ⟨?_, ?_, ?_, ?_⟩, .inl rfl, hwrite _ ?_, ?_⟩
    · exact allDigits_zeros 1
    · exact List.cons_ne_nil _ _
    · exact fun _ => rfl
    · rintro digits ⟨⟩
      exact ⟨allDigits_zeros 1, List.cons_ne_nil _ _⟩
    · rw [shortestDecimal, if_pos hunits]
      rfl
    · exact ofRatio_zero hunits
  · obtain ⟨n, places, hshortest, hn, hcontains⟩ := shortest_contains hfinite hunits .toEven
    obtain ⟨hproper, hvalue⟩ := Decimal.ofScaled_spec hn places
    have hdecimal : shortestDecimal .toEven x = Decimal.ofScaled n places := by
      rw [shortestDecimal, if_neg hunits, hshortest]
    obtain ⟨s, hwell, hreal, htext, hspelled⟩ : (Decimal.ofScaled n places).HasSpelling
        (if Layout.document.positional (Decimal.ofScaled n places).exponent
          then positionalText true (Decimal.ofScaled n places)
          else scientificText "+" (Decimal.ofScaled n places)) := by
      split
      · exact positional_spelling hproper
      · exact scientific_spelling hproper
    refine ⟨s, hwell, hreal, hwrite s (hdecimal ▸ htext), ?_⟩
    apply DecimalText.toDouble_eq hfinite hunits (hwell.allDigits _) rfl
    rw [hspelled, hvalue, mul_assoc, mul_comm _ quarters]
    exact hcontains

end EmbeddedExpr.Number
