import EmbeddedExpr.Time.Calendar
import Mathlib.Tactic.IntervalCases

/-!
# Days of the calendar

The day with a number exists in the calendar and has this number (`exists_ofDays`,
`toDays_ofDays`), and it is not before a year just if it is not before its first day
(`le_year_ofDays_iff`).

The year is found by taking the leap days out of the day of the era.  What is left,
`withoutLeapDays`, never decreases from one day to the next, so it is enough to see at the first
day of each of the four hundred years, and at the last day before it, that it passes a multiple
of 365 there (`withoutLeapDays_yearStart`).  The months from March have their starts on a straight
line (`monthStart`), and the last of them ends where the year does (`daysInMonth_february`).
-/

namespace EmbeddedExpr.Time.Date

/-! ### Years of an era -/

/-- The first day of a year of an era.  The year 400 is the first one of the next era. -/
def yearStart (year : Int) : Int := 365 * year + year / 4 - year / 100 + year / 400

/-- A day of an era less the leap days before it, as far as the year depends on them. -/
def withoutLeapDays (day : Int) : Int := day - day / 1460 + day / 36524 - day / 146096

theorem withoutLeapDays_mono {a b : Int} (h : a ≤ b) : withoutLeapDays a ≤ withoutLeapDays b := by
  unfold withoutLeapDays
  omega

theorem withoutLeapDays_yearStart : ∀ year : Nat, year < 401 →
    365 * (year : Int) ≤ withoutLeapDays (yearStart year) ∧
      (0 < year → withoutLeapDays (yearStart year - 1) < 365 * year) := by
  decide +kernel

theorem yearStart_le_iff {year day : Int} (hyear : 0 ≤ year ∧ year ≤ 400) (hday : 0 ≤ day) :
    yearStart year ≤ day ↔ 365 * year ≤ withoutLeapDays day := by
  obtain ⟨hstart, hend⟩ := withoutLeapDays_yearStart year.toNat (by omega)
  rw [Int.toNat_of_nonneg hyear.1] at hstart hend
  constructor
  · intro h
    exact Int.le_trans hstart (withoutLeapDays_mono h)
  · intro h
    by_contra hbefore
    have hpos : 0 < year.toNat := by
      unfold yearStart at hbefore
      omega
    have hlt := hend hpos
    have hle := withoutLeapDays_mono (Int.le_sub_one_of_lt (Int.not_le.mp hbefore))
    omega

/-- A day of an era lies in the year that its number without leap days has. -/
theorem yearStart_le {day : Int} (hday : 0 ≤ day ∧ day < 146097) :
    0 ≤ withoutLeapDays day / 365 ∧ withoutLeapDays day / 365 < 400 ∧
      yearStart (withoutLeapDays day / 365) ≤ day ∧
      day < yearStart (withoutLeapDays day / 365 + 1) := by
  have hfirst : 0 ≤ withoutLeapDays day := withoutLeapDays_mono hday.1
  have hlast : withoutLeapDays day ≤ 145999 := withoutLeapDays_mono (Int.le_sub_one_of_lt hday.2)
  refine ⟨by omega, by omega, ?_, ?_⟩
  · rw [yearStart_le_iff (by omega) hday.1]
    omega
  · rw [← Int.not_le, yearStart_le_iff (by omega) hday.1]
    omega

/-! ### Months from March -/

/-- The date of a day of a month, both of a year that begins in March. -/
def ofMarch (year month day : Int) : Date :=
  let fromJanuary := if month < 10 then month + 3 else month - 9
  ⟨year + (if fromJanuary ≤ 2 then 1 else 0), fromJanuary.toNat, day.toNat⟩

/-- The first day of a month of a year that begins in March. -/
def monthStart (month : Int) : Int := (153 * month + 2) / 5

theorem year_ofMarch {year month day : Int} (hmonth : 0 ≤ month ∧ month < 12) :
    (ofMarch year month day).year = year + (if month < 10 then 0 else 1) := by
  simp only [ofMarch]
  split <;> omega

theorem toDays_ofMarch {year month day : Int} (hmonth : 0 ≤ month ∧ month < 12) (hday : 1 ≤ day) :
    (ofMarch year month day).toDays = yearStart year + monthStart month + day - 719469 := by
  have hdays : (ofMarch year month day).toDays = year / 400 * 146097 + (year % 400 * 365 +
      year % 400 / 4 - year % 400 / 100 + (monthStart month + day - 1)) - 719468 := by
    have hday' : ((day.toNat : Nat) : Int) = day := Int.toNat_of_nonneg (by omega)
    by_cases hbefore : month < 10
    · have hname : (((month + 3).toNat : Nat) : Int) = month + 3 := Int.toNat_of_nonneg (by omega)
      have hlate : ¬ month + 3 ≤ 2 ∧ ¬ (month + 3).toNat ≤ 2 := by omega
      have hback : (month + 3 + 9) % 12 = month := by omega
      simp only [ofMarch, toDays, if_pos hbefore, if_neg hlate.1, if_neg hlate.2, hname, hday',
        hback, Int.add_zero, monthStart]
    · have hname : (((month - 9).toNat : Nat) : Int) = month - 9 := Int.toNat_of_nonneg (by omega)
      have hearly : month - 9 ≤ 2 ∧ (month - 9).toNat ≤ 2 := by omega
      have hback : (month - 9 + 9) % 12 = month := by omega
      simp only [ofMarch, toDays, if_neg hbefore, if_pos hearly.1, if_pos hearly.2, hname, hday',
        hback, Int.add_sub_cancel, monthStart]
  rw [hdays, yearStart]
  omega

/-- The months but the last, which is February, have the same length in every year. -/
theorem daysInMonth_eq (year : Int) {month : Nat} (hmonth : month < 11) :
    (daysInMonth year ((month + 2) % 12 + 1) : Int) =
      monthStart (month + 1) - monthStart month := by
  interval_cases month <;> rfl

theorem isLeapYear_iff {year : Int} :
    isLeapYear year = true ↔ year % 4 = 0 ∧ (year % 100 ≠ 0 ∨ year % 400 = 0) := by
  simp [isLeapYear]

/-- February ends where its year does. -/
theorem daysInMonth_february (year : Int) :
    (daysInMonth (year + 1) 2 : Int) = yearStart (year + 1) - yearStart year - monthStart 11 := by
  unfold yearStart monthStart
  rw [daysInMonth, if_pos rfl]
  simp only [isLeapYear_iff]
  split <;> omega

theorem exists_ofMarch {year month day : Int} (hmonth : 0 ≤ month ∧ month < 12)
    (hday : 1 ≤ day ∧ day ≤ monthStart (month + 1) - monthStart month)
    (hlast : monthStart month + day ≤ yearStart (year + 1) - yearStart year) :
    (ofMarch year month day).exists? = true := by
  obtain ⟨n, rfl⟩ := Int.eq_ofNat_of_zero_le hmonth.1
  have hn : n < 12 := by omega
  have hname : (ofMarch year n day).month = (n + 2) % 12 + 1 := by
    simp only [ofMarch]
    split <;> omega
  have hlength : day ≤ daysInMonth (ofMarch year n day).year ((n + 2) % 12 + 1) := by
    by_cases hfebruary : n = 11
    · subst hfebruary
      rw [year_ofMarch hmonth, if_neg (by decide), daysInMonth_february]
      exact Int.le_sub_left_of_add_le hlast
    · rw [daysInMonth_eq _ (by omega)]
      exact hday.2
  rw [exists?, decide_eq_true_iff, hname]
  refine ⟨by omega, by omega, ?_, ?_⟩
  · exact Int.lt_toNat.mpr hday.1
  · exact Int.toNat_le.mpr hlength

/-! ### All days -/

/-- The day of a year of an era that has been counted from the first of March. -/
theorem monthStart_le {day : Int} (h : 0 ≤ day ∧ day ≤ 365) :
    0 ≤ (5 * day + 2) / 153 ∧ (5 * day + 2) / 153 < 12 ∧
      monthStart ((5 * day + 2) / 153) ≤ day ∧ day < monthStart ((5 * day + 2) / 153 + 1) := by
  unfold monthStart
  omega

/-- The year and the month from March of a day, and the day of this month. -/
theorem ofDays_eq (days : Int) : ∃ year month day : Int, ofDays days = ofMarch year month day ∧
    (0 ≤ month ∧ month < 12) ∧ (1 ≤ day ∧ day ≤ monthStart (month + 1) - monthStart month) ∧
    monthStart month + day ≤ yearStart (year + 1) - yearStart year ∧
    yearStart year + monthStart month + day - 719469 = days := by
  have hsum := Int.mul_ediv_add_emod (days + 719468) 146097
  have hdayOfEra : 0 ≤ (days + 719468) % 146097 ∧ (days + 719468) % 146097 < 146097 :=
    ⟨Int.emod_nonneg _ (by decide), Int.emod_lt_of_pos _ (by decide)⟩
  obtain ⟨hfirst, hlast, hstart, hend⟩ := yearStart_le hdayOfEra
  have hdays : ofDays days =
      let era := (days + 719468) / 146097
      let dayOfEra := (days + 719468) % 146097
      let yearOfEra := withoutLeapDays dayOfEra / 365
      let dayOfYear := dayOfEra - (365 * yearOfEra + yearOfEra / 4 - yearOfEra / 100)
      let month := (5 * dayOfYear + 2) / 153
      ofMarch (yearOfEra + era * 400) month (dayOfYear - monthStart month + 1) := rfl
  dsimp only at hdays
  generalize (days + 719468) / 146097 = era at hdays hsum
  generalize (days + 719468) % 146097 = dayOfEra at hdays hsum hfirst hlast hstart hend
  generalize withoutLeapDays dayOfEra / 365 = yearOfEra at hdays hfirst hlast hstart hend
  generalize hdayOfYear : dayOfEra - (365 * yearOfEra + yearOfEra / 4 - yearOfEra / 100) =
    dayOfYear at hdays
  -- four hundred years on, the days are those of an era more
  have hera (year : Int) : yearStart (year + era * 400) = yearStart year + era * 146097 := by
    unfold yearStart
    omega
  have hstart' : yearStart yearOfEra = 365 * yearOfEra + yearOfEra / 4 - yearOfEra / 100 := by
    unfold yearStart
    omega
  have hlength : yearStart (yearOfEra + 1) ≤ yearStart yearOfEra + 366 := by
    unfold yearStart
    omega
  have hbounds : 0 ≤ dayOfYear ∧ dayOfYear ≤ 365 := by omega
  obtain ⟨hmonth, hmonth', hday, hday'⟩ := monthStart_le hbounds
  refine ⟨_, _, _, hdays, ⟨hmonth, hmonth'⟩, ⟨by omega, by omega⟩, ?_, ?_⟩
  · rw [Int.add_right_comm, hera, hera]
    omega
  · rw [hera]
    omega

/-- Counting the days of a date leads back to it. -/
theorem toDays_ofDays (days : Int) : (ofDays days).toDays = days := by
  obtain ⟨year, month, day, hdate, hmonth, hday, -, hdays⟩ := ofDays_eq days
  rw [hdate, toDays_ofMarch hmonth hday.1, hdays]

theorem exists_ofDays (days : Int) : (ofDays days).exists? = true := by
  obtain ⟨year, month, day, hdate, hmonth, hday, hlast, -⟩ := ofDays_eq days
  rw [hdate]
  exact exists_ofMarch hmonth hday hlast

theorem yearStart_mono {a b : Int} (h : a ≤ b) : yearStart a ≤ yearStart b := by
  unfold yearStart
  omega

theorem toDays_newYear (year : Int) :
    (Date.mk year 1 1).toDays = yearStart (year - 1) + 307 - 719469 := by
  have hdate : Date.mk year 1 1 = ofMarch (year - 1) 10 1 := by
    simp [ofMarch]
  rw [hdate, toDays_ofMarch (by decide) (by decide), Int.add_assoc (yearStart _)]
  rfl

/-- A day is not before a year just if it is not before the first of January. -/
theorem le_year_ofDays_iff {year days : Int} :
    year ≤ (ofDays days).year ↔ (Date.mk year 1 1).toDays ≤ days := by
  obtain ⟨year', month, day, hdate, hmonth, hday, hlast, hdays⟩ := ofDays_eq days
  have hlength : yearStart (year - 1) + 365 ≤ yearStart year := by
    unfold yearStart
    omega
  rw [hdate, year_ofMarch hmonth, toDays_newYear]
  by_cases hbefore : month < 10
  · have hmonths : 0 ≤ monthStart month ∧ monthStart (month + 1) ≤ 306 := by
      unfold monthStart
      omega
    rw [if_pos hbefore, Int.add_zero]
    constructor
    · intro hle
      have hmono := yearStart_mono hle
      omega
    · intro hle
      by_contra hearlier
      have hmono : yearStart year' ≤ yearStart (year - 1) := yearStart_mono (by omega)
      omega
  · have hmonths : 306 ≤ monthStart month := by
      unfold monthStart
      omega
    rw [if_neg hbefore]
    constructor
    · intro hle
      have hmono : yearStart (year - 1) ≤ yearStart year' := yearStart_mono (by omega)
      omega
    · intro hle
      by_contra hearlier
      have hmono : yearStart (year' + 1) ≤ yearStart (year - 1) := yearStart_mono (by omega)
      omega

end EmbeddedExpr.Time.Date
