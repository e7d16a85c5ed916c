import EmbeddedExpr.Proofs.Time.Calendar
import EmbeddedExpr.Proofs.Time.Duration
import EmbeddedExpr.Time.Rfc3339

/-!
# Timestamps are read back

Reading a text goes from left to right, so there is one lemma for each part of a written timestamp
that says what is read there and that the rest is left (`date_append`, `fraction_append`,
`clock_append`).  The parts of a number of fixed width are the digits of the number
(`digits_padded`), those of a date are a day that exists and has the number that it was made of
(`Date.exists_ofDays`, `Date.toDays_ofDays`), and those of the time of day make up the second of the
day, where a leap second is the one after second 59.

Put together, the text of a timestamp is read as the timestamp if its year has four digits
(`read_write`).  Any other year starts with a sign, at which reading stops (`read_write_of_not`).
-/

namespace EmbeddedExpr.Time.Rfc3339

open Duration (allDigits_paddedDigits paddedDigits paddedDigits_spec)
open Number (AllDigits)

/-! ### Digits -/

theorem digits_append {run : List Char} (h : AllDigits run) (acc : Nat) (rest : List Char) :
    digits run.length acc (run ++ rest) = .ok (Nat.ofDigitChars 10 run acc, rest) := by
  induction run generalizing acc with
  | nil => rfl
  | cons c run ih =>
      obtain ⟨hc, hrun⟩ := List.forall_mem_cons.mp h
      have hvalue : Number.digitValue? c = some (c.toNat - '0'.toNat) := by
        rw [Number.digitValue?_eq, if_pos (Number.isDigit_eq c ▸ hc)]
      rw [List.length_cons, List.cons_append, digits, hvalue, Nat.ofDigitChars_cons,
        Nat.mul_comm 10]
      exact ih hrun _

theorem digits_padded {width n : Nat} (hpos : 0 < width) (h : n < 10 ^ width) (rest : List Char) :
    digits width 0 (paddedDigits width n ++ rest) = .ok (n, rest) := by
  obtain ⟨hlength, hvalue⟩ := paddedDigits_spec hpos h
  have hread := digits_append (allDigits_paddedDigits width n) 0 rest
  rwa [hlength, hvalue] at hread

/-! ### Dates -/

/-- A date as it is written. -/
def dateText (d : Date) : List Char :=
  yearText d.year ++ '-' :: (twoDigits d.month ++ '-' :: twoDigits d.day)

/-- A month or a day has at most two digits. -/
theorem le_of_exists {d : Date} (h : d.exists? = true) : d.month ≤ 12 ∧ d.day ≤ 31 := by
  rw [Date.exists?, decide_eq_true_iff] at h
  obtain ⟨-, hmonth, -, hday⟩ := h
  refine ⟨hmonth, Nat.le_trans hday ?_⟩
  unfold Date.daysInMonth
  split
  · split <;> decide
  · split <;> decide

theorem date_append {d : Date} (hyear : 0 ≤ d.year ∧ d.year ≤ 9999) (h : d.exists? = true)
    (rest : List Char) : date (dateText d ++ rest) = .ok (d, rest) := by
  obtain ⟨hmonth, hday⟩ := le_of_exists h
  have hyear' : ((d.year.toNat : Nat) : Int) = d.year := Int.toNat_of_nonneg hyear.1
  have hdigits (rest : List Char) : digits 4 0 (yearText d.year ++ rest) =
      .ok (d.year.toNat, rest) := by
    rw [yearText, if_pos hyear]
    exact digits_padded (by decide) (by omega) rest
  have htwo (n : Nat) (hn : n ≤ 31) (rest : List Char) : digits 2 0 (twoDigits n ++ rest) =
      .ok (n, rest) :=
    digits_padded (by decide) (by omega) rest
  have hdash (rest : List Char) : oneOf ['-'] ('-' :: rest) = .ok rest := rfl
  simp only [dateText, List.append_assoc, List.cons_append, date, bind, Except.bind, hdigits,
    hdash, htwo d.month (by omega), htwo d.day hday, hyear', if_pos h]

/-! ### Times of day -/

theorem fraction_append {nanos : Nat} (h : nanos < 1000000000) (rest : List Char) :
    fraction (fractionText nanos ++ 'Z' :: rest) = .ok (nanos, 'Z' :: rest) := by
  have hread {width n : Nat} (hpos : 0 < width) (hwidth : width ≤ 9) (hn : n < 10 ^ width) :
      fraction ('.' :: (paddedDigits width n ++ 'Z' :: rest)) =
        .ok (n * 10 ^ (9 - width), 'Z' :: rest) := by
    have hdigits := allDigits_paddedDigits width n
    obtain ⟨hlength, hvalue⟩ := paddedDigits_spec hpos hn
    have hstop : ∀ c ∈ ('Z' :: rest).head?, Number.isDigit c = false := by
      rintro _ ⟨⟩
      rfl
    obtain ⟨htake, hdrop⟩ := Text.takeWhile_append_stop hdigits hstop
    have hnonempty : (paddedDigits width n).isEmpty = false := by
      rw [List.isEmpty_eq_false_iff, ← List.length_pos_iff, hlength]
      exact hpos
    have hcounted : (paddedDigits width n).take 9 = paddedDigits width n :=
      List.take_of_length_le (by omega)
    simp only [fraction, htake, hdrop, hcounted, Number.ofDigits_eq hdigits, hvalue, hlength,
      hnonempty, Option.getD_some, Nat.pow_eq]
    rfl
  unfold fractionText
  split
  · rename_i hzero
    rw [hzero]
    rfl
  split
  · rename_i hmillis
    have hvalue : nanos / 1000000 * 10 ^ (9 - 3) = nanos :=
      Nat.div_mul_cancel (Nat.dvd_of_mod_eq_zero hmillis)
    rw [List.cons_append, hread (by decide) (by decide) (by omega), hvalue]
  split
  · rename_i hmicros
    have hvalue : nanos / 1000 * 10 ^ (9 - 6) = nanos :=
      Nat.div_mul_cancel (Nat.dvd_of_mod_eq_zero hmicros)
    rw [List.cons_append, hread (by decide) (by decide) (by omega), hvalue]
  · rw [List.cons_append, hread (by decide) (by decide) (by omega), Nat.sub_self, Nat.pow_zero,
      Nat.mul_one]

/-- A second of the day and its nanoseconds as they are written. -/
def clockText (seconds nanos : Nat) : List Char :=
  twoDigits (seconds / 3600) ++ ':' :: (twoDigits (seconds / 60 % 60) ++
    ':' :: (twoDigits (seconds % 60 + nanos / 1000000000) ++ fractionText (nanos % 1000000000)))

/-- The second 60 is that of a leap second, which is the one after second 59. -/
theorem clock_append {seconds nanos : Nat} (hseconds : seconds < 86400)
    (hnanos : nanos < 2000000000) (hleap : 1000000000 ≤ nanos → seconds % 60 = 59) (rest : List Char) :
    clock (clockText seconds nanos ++ 'Z' :: rest) = .ok (seconds, nanos, 'Z' :: rest) := by
  have htwo (n : Nat) (hn : n ≤ 60) (rest : List Char) : digits 2 0 (twoDigits n ++ rest) =
      .ok (n, rest) :=
    digits_padded (by decide) (by omega) rest
  have hfields : seconds / 3600 < 24 ∧ seconds / 60 % 60 < 60 ∧
      seconds % 60 + nanos / 1000000000 ≤ 60 := by omega
  have hcolon (rest : List Char) : oneOf [':'] (':' :: rest) = .ok rest := rfl
  simp only [clockText, List.append_assoc, List.cons_append, clock, bind, Except.bind, hcolon,
    htwo (seconds / 3600) (by omega), htwo (seconds / 60 % 60) (by omega),
    htwo (seconds % 60 + nanos / 1000000000) (by omega),
    fraction_append (Nat.mod_lt nanos (by decide)), if_pos hfields]
  have hwhole : seconds / 3600 * 3600 + seconds / 60 % 60 * 60 + seconds % 60 = seconds := by omega
  split
  · have hminute : seconds / 3600 * 3600 + seconds / 60 % 60 * 60 + 59 = seconds := by omega
    have hsecond : nanos % 1000000000 + 1000000000 = nanos := by omega
    rw [hminute, hsecond]
  · have hminute : seconds / 3600 * 3600 + seconds / 60 % 60 * 60 +
        (seconds % 60 + nanos / 1000000000) = seconds := by omega
    have hsecond : nanos % 1000000000 = nanos := by omega
    rw [hminute, hsecond]

/-! ### Timestamps -/

section

variable (t : Timestamp)

/-- The day of a timestamp. -/
def dateOf : Date := Date.ofDays (t.seconds / Timestamp.secondsPerDay)

/-- The year of a timestamp is one of four digits. -/
def FourDigits : Prop := 0 ≤ (dateOf t).year ∧ (dateOf t).year ≤ 9999

theorem fourDigits_iff : FourDigits t ↔ -62167219200 ≤ t.seconds ∧ t.seconds ≤ 253402300799 := by
  have hfirst : 0 ≤ (dateOf t).year ↔ -719528 ≤ t.seconds / 86400 := Date.le_year_ofDays_iff
  have hlast : 10000 ≤ (dateOf t).year ↔ 2932897 ≤ t.seconds / 86400 := Date.le_year_ofDays_iff
  unfold FourDigits
  omega

theorem toList_write : (write t).toList = dateText (dateOf t) ++
    'T' :: (clockText (t.seconds % Timestamp.secondsPerDay).toNat t.nanos ++ ['Z']) := by
  simp [write, dateText, clockText, dateOf]

theorem le_length_paddedDigits (width n : Nat) : width ≤ (paddedDigits width n).length := by
  simp only [paddedDigits, List.length_append, List.length_replicate]
  omega

theorem not_byteLength_write_lt : ¬ Text.byteLength (write t).toList < 19 := by
  have hbytes := Text.length_le_byteLength (write t).toList
  have hyear : 4 ≤ (yearText (dateOf t).year).length := by
    unfold yearText
    split
    · exact le_length_paddedDigits 4 _
    · exact Nat.le_succ_of_le (le_length_paddedDigits 4 _)
  have htwo (n : Nat) : 2 ≤ (twoDigits n).length := le_length_paddedDigits 2 n
  have hmonth := htwo (dateOf t).month
  have hday := htwo (dateOf t).day
  have hhour := htwo ((t.seconds % Timestamp.secondsPerDay).toNat / 3600)
  have hminute := htwo ((t.seconds % Timestamp.secondsPerDay).toNat / 60 % 60)
  have hsecond := htwo ((t.seconds % Timestamp.secondsPerDay).toNat % 60 + t.nanos / 1000000000)
  have hlength : 19 ≤ (write t).toList.length := by
    rw [toList_write]
    simp only [dateText, clockText, List.length_append, List.length_cons]
    omega
  omega

/-- The text of a timestamp in a year of four digits is read as the timestamp. -/
theorem read_write (h : FourDigits t) : read (write t).toList = .ok t := by
  obtain ⟨-, -, hnanos, hleap⟩ := t.valid
  have hday := Int.emod_nonneg t.seconds (b := 86400) (by decide)
  have hday' := Int.emod_lt_of_pos t.seconds (b := 86400) (by decide)
  have hsum := Int.mul_ediv_add_emod t.seconds 86400
  have hdate := date_append h (Date.exists_ofDays _)
    ('T' :: (clockText (t.seconds % Timestamp.secondsPerDay).toNat t.nanos ++ ['Z']))
  have hbelow : (t.seconds % Timestamp.secondsPerDay).toNat < 86400 := by
    unfold Timestamp.secondsPerDay
    omega
  have hleap' : 1000000000 ≤ t.nanos → (t.seconds % Timestamp.secondsPerDay).toNat % 60 = 59 := by
    unfold Timestamp.secondsPerDay
    omega
  have hclock := clock_append hbelow hnanos hleap' []
  have hmark (rest : List Char) : oneOf ['T', 't', ' '] ('T' :: rest) = .ok rest := rfl
  have hseconds : (dateOf t).toDays * Timestamp.secondsPerDay +
      ((t.seconds % Timestamp.secondsPerDay).toNat : Nat) - 0 = t.seconds := by
    rw [dateOf, Date.toDays_ofDays]
    unfold Timestamp.secondsPerDay
    omega
  have hparts : Timestamp.ofParts? t.seconds t.nanos = some t := dif_pos t.valid
  have hbytes := not_byteLength_write_lt t
  rw [toList_write] at hbytes ⊢
  simp only [read, bind, Except.bind, if_neg hbytes, hdate, hmark, hclock, offset, true_or, if_true,
    hseconds, hparts]
  rfl

/-- The sign in front of any other year is not read. -/
theorem read_write_of_not (h : ¬ FourDigits t) : read (write t).toList = .error .invalid := by
  have hdate (rest : List Char) : date (dateText (dateOf t) ++ rest) = .error .invalid := by
    have hunread (c : Char) (hc : Number.digitValue? c = none) (text : List Char) :
        date (c :: text) = .error .invalid := by
      simp only [date, bind, Except.bind, digits, hc]
    rw [dateText, yearText, if_neg (show ¬ (_ ∧ _) from h), List.append_assoc, List.cons_append]
    split
    · exact hunread '-' (by decide) _
    · exact hunread '+' (by decide) _
  have hbytes := not_byteLength_write_lt t
  rw [toList_write] at hbytes ⊢
  simp only [read, bind, Except.bind, if_neg hbytes, hdate]

end

end EmbeddedExpr.Time.Rfc3339
