import EmbeddedExpr.Host.Codec
import EmbeddedExpr.Proofs.Time.Quantities
import EmbeddedExpr.Proofs.Time.Shifts

/-!
# The fields that durations are kept in

A duration is kept in two words, its seconds in 64 bits and the nanoseconds beyond them in 32
bits, and is computed with through its count of nanoseconds in 128 bits.  `Fields` are such words,
and the definitions on them take every step in the width that it has: `step` fails where 128 bits
do not suffice, and `Number.int128?` refuses what does not fit in a text or a record.

Two words stand for a count (`Fields.exact`), and normalized words are the only ones for theirs
(`parts_unique`), so that they are the fields of the duration of this count
(`Fields.eq_fields_iff`).  What is left is one equation for each definition.  Sums, differences and
opposites of counts stay far below the bounds (`Fields.natAbs_exact_lt`), and so do the counts of
times (`Timestamp.bounds`).  In a text only the power of ten is not refused and always fits
(`Fields.ofComponent_eq`).  Nothing in a sum is negative, so that what is refused on the way has no
duration in the end (`Fields.sumFrom_eq`, by induction on the components).
-/

namespace EmbeddedExpr.Time

/-! ### Arithmetic in 128 bits -/

/-- A step of a computation has no result of 128 bits. -/
structure Overflow
  deriving DecidableEq

/-- The result of a step in 128 bits. -/
def step (n : Int) : Except Overflow Int :=
  match Number.int128? n with
  | some n => .ok n
  | none => .error ⟨⟩

/-- So many seconds and nanoseconds as nanoseconds. -/
def countOf (seconds nanos : Int) : Except Overflow Int := do
  let whole ← step (seconds * nanosPerSecond)
  step (whole + nanos)

namespace Duration

/-- A duration as it is kept. -/
structure Fields where
  /-- Whole seconds. -/
  seconds : Int64
  /-- The nanoseconds beyond the seconds. -/
  nanos : Int32
  deriving DecidableEq

namespace Fields

/-- Less than a second of nanoseconds, not to the other side of zero than the seconds. -/
structure Normalized (f : Fields) : Prop where
  nanos_le : f.nanos.toInt.natAbs ≤ 999999999
  not_above : f.seconds.toInt < 0 → f.nanos.toInt ≤ 0
  not_below : 0 < f.seconds.toInt → 0 ≤ f.nanos.toInt

/-- The whole span in nanoseconds. -/
def total (f : Fields) : Except Overflow Int := countOf f.seconds.toInt f.nanos.toInt

/-! #### Building -/

/-- The fields of a count of nanoseconds, if its seconds fit their word. -/
def ofNanos? (total : Int) : Option Fields :=
  (Number.int64? (total.tdiv nanosPerSecond)).map fun seconds =>
    ⟨seconds, Int32.ofInt (total.tmod nanosPerSecond)⟩

/-- The fields of a count that is the result of a step. -/
def ofStep (total : Int) : Except Overflow (Option Fields) := (step total).map ofNanos?

def ofParts (seconds nanos : Int64) : Except Overflow (Option Fields) :=
  (countOf seconds.toInt nanos.toInt).map ofNanos?

def ofSeconds (seconds : Int64) : Fields := ⟨seconds, 0⟩

def ofMillis (millis : Int64) : Fields :=
  ⟨millis / 1000, (millis % 1000 * 1000000).toInt32⟩

/-- The fields of the time from `u` to `t`. -/
def since (t u : Timestamp) : Except Overflow (Option Fields) := do
  let m ← countOf t.seconds t.nanos
  let n ← countOf u.seconds u.nanos
  ofStep (m - n)

/-- The fields of a record of seconds and nanoseconds.  What does not fit is refused. -/
def ofRecord? (seconds nanos : Int) : Option Fields := do
  let whole ← Number.int128? (seconds * nanosPerSecond)
  let total ← Number.int128? (whole + nanos)
  ofNanos? total

/-! #### Arithmetic -/

/-- The fields of what two counts are put together to. -/
def combine (operation : Int → Int → Int) (a b : Fields) : Except Overflow (Option Fields) := do
  let m ← a.total
  let n ← b.total
  ofStep (operation m n)

def add : Fields → Fields → Except Overflow (Option Fields) := combine (· + ·)

def sub : Fields → Fields → Except Overflow (Option Fields) := combine (· - ·)

def neg (f : Fields) : Except Overflow (Option Fields) := do
  let n ← f.total
  ofStep (-n)

/-- The order of two durations. -/
def order (a b : Fields) : Except Overflow Ordering := do
  let m ← a.total
  let n ← b.total
  return compare m n

/-! #### Texts -/

/-- The number that a run of digits spells, if it fits. -/
def readDigits? (digits : List Char) : Option Int :=
  if digits.isEmpty then some 0
  else Number.readInt? Number.leastInt128 Number.boundInt128 digits

/-- The nanoseconds of a component.  What does not fit is refused, but for the power of ten that
the fraction is divided by. -/
def ofComponent (c : Component) : Except Overflow (Option Int) :=
  if c.whole.isEmpty ∧ c.fraction.isEmpty then .ok none
  else
    match unitNanos? c.unit with
    | none => .ok none
    | some unit => do
      let digits := c.fraction.take fractionDigits
      let scale ← step (Nat.pow 10 digits.length)
      return do
        let whole ← readDigits? c.whole
        let amount ← Number.int128? (whole * unit)
        let numerator ← readDigits? digits
        let fraction ← Number.int128? (numerator * unit)
        Number.int128? (amount + fraction.tdiv scale)

/-- The nanoseconds of the components of a text, added to those before. -/
def sumFrom (before : Int) (text : List Char) : Except Overflow (Option Int) :=
  if text.isEmpty then .ok (some before)
  else
    match ofComponent (Component.split text) with
    | .error e => .error e
    | .ok none => .ok none
    | .ok (some amount) =>
      match Number.int128? (before + amount) with
      | none => .ok none
      | some before =>
        -- a component that is read is not empty
        if _h : (Component.split text).rest.length < text.length then
          sumFrom before (Component.split text).rest
        else .ok none
termination_by text.length

/-- The fields of the duration that a text denotes behind its sign. -/
def ofBody (negative : Bool) (body : List Char) : Except Overflow (Option Fields) :=
  if body = ['0'] then .ok (some ⟨0, 0⟩)
  else if body.isEmpty then .ok none
  else
    match sumFrom 0 body with
    | .error e => .error e
    | .ok none => .ok none
    | .ok (some total) => if negative then ofStep (-total) else .ok (ofNanos? total)

/-- The fields of the duration that a text denotes. -/
def ofText (text : List Char) : Except Overflow (Option Fields) :=
  match text with
  | '-' :: body => ofBody true body
  | '+' :: body => ofBody false body
  | body => ofBody false body

/-! #### Results -/

/-- The fields that durations are made with. -/
inductive Produced : Fields → Prop
  | ofNanos {n f} : ofNanos? n = some f → Produced f
  | ofParts {seconds nanos f} : ofParts seconds nanos = .ok (some f) → Produced f
  | ofSeconds (seconds) : Produced (ofSeconds seconds)
  | ofMillis (millis) : Produced (ofMillis millis)
  | add {a b f} : add a b = .ok (some f) → Produced f
  | sub {a b f} : sub a b = .ok (some f) → Produced f
  | neg {a f} : neg a = .ok (some f) → Produced f
  | ofText {text f} : ofText text = .ok (some f) → Produced f
  | since {t u f} : since t u = .ok (some f) → Produced f
  | ofRecord {seconds nanos f} : ofRecord? seconds nanos = some f → Produced f

/-- What is made of a count: the normalized fields with this count where there are any, which is
where its whole seconds fit their word. -/
structure IsExact (result : Option Fields) (count : Int) : Prop where
  eq_some_iff : ∀ f, result = some f ↔ f.Normalized ∧ f.total = .ok count
  isSome_iff : result.isSome ↔ DurationRange count

end Fields

/-- The fields that a duration is kept in. -/
def fields (d : Duration) : Fields := ⟨Int64.ofInt d.seconds, Int32.ofInt d.nanos⟩

end Duration

/-! ### Steps that fit -/

theorem step_eq_ok {n : Int} (h : n.natAbs < 0x80000000000000000000000000000000) :
    step n = .ok n := by
  have hrange : Number.leastInt128 ≤ n ∧ n < Number.boundInt128 := by
    unfold Number.leastInt128 Number.boundInt128
    omega
  rw [step, Number.int128?, if_pos hrange]

theorem countOf_eq_ok {seconds nanos : Int} (hseconds : seconds.natAbs ≤ 0x8000000000000000)
    (hnanos : nanos.natAbs ≤ 0x8000000000000000) :
    countOf seconds nanos = .ok (seconds * nanosPerSecond + nanos) := by
  have hwhole : step (seconds * nanosPerSecond) = .ok (seconds * nanosPerSecond) :=
    step_eq_ok (by unfold nanosPerSecond; omega)
  rw [countOf, hwhole]
  exact step_eq_ok (by unfold nanosPerSecond; omega)

theorem natAbs_toInt64_le (n : Int64) : n.toInt.natAbs ≤ 0x8000000000000000 := by
  have hlow := n.le_toInt
  have hhigh := n.toInt_lt
  omega

theorem natAbs_toInt32_le (n : Int32) : n.toInt.natAbs ≤ 0x80000000 := by
  have hlow := n.le_toInt
  have hhigh := n.toInt_lt
  omega

/-! ### Seconds and nanoseconds of a count -/

/-- A remainder is on the side of zero of what it is a remainder of. -/
theorem tmod_sign (n k : Int) : (0 ≤ n → 0 ≤ n.tmod k) ∧ (n ≤ 0 → n.tmod k ≤ 0) := by
  refine ⟨fun hpositive => Int.tmod_nonneg k hpositive, fun hnegative => ?_⟩
  have hopposite := Int.tmod_nonneg k (Int.neg_nonneg_of_nonpos hnegative)
  rw [Int.neg_tmod] at hopposite
  exact Int.neg_nonneg.mp hopposite

/-- Seconds and nanoseconds that are not on different sides of zero are those of their count. -/
theorem parts_unique {seconds nanos : Int} (hnanos : nanos.natAbs ≤ 999999999)
    (habove : seconds < 0 → nanos ≤ 0) (hbelow : 0 < seconds → 0 ≤ nanos) :
    (seconds * nanosPerSecond + nanos).tdiv nanosPerSecond = seconds ∧
      (seconds * nanosPerSecond + nanos).tmod nanosPerSecond = nanos := by
  have hquotient : (seconds * nanosPerSecond + nanos).tdiv nanosPerSecond = seconds := by
    unfold nanosPerSecond
    rcases Int.le_total 0 (seconds * 1000000000 + nanos) with hsign | hsign
    · rw [Int.tdiv_eq_ediv_of_nonneg hsign]
      omega
    · rw [← Int.neg_inj, ← Int.neg_tdiv, Int.tdiv_eq_ediv_of_nonneg (by omega)]
      omega
  have hsum := Int.tdiv_mul_add_tmod (seconds * nanosPerSecond + nanos) nanosPerSecond
  rw [hquotient] at hsum
  exact ⟨hquotient, Int.add_left_cancel hsum⟩

namespace Duration

section

variable (d : Duration)

theorem seconds_mul_add_nanos : d.seconds * nanosPerSecond + d.nanos = d.total :=
  Int.tdiv_mul_add_tmod d.total nanosPerSecond

theorem natAbs_nanos_le : d.nanos.natAbs ≤ 999999999 := by
  have hremainder : d.nanos.natAbs = d.total.natAbs % 1000000000 :=
    Int.natAbs_tmod d.total nanosPerSecond
  omega

theorem seconds_fields : d.fields.seconds.toInt = d.seconds := by
  obtain ⟨hlow, hhigh⟩ := d.inRange
  exact Int64.toInt_ofInt_of_le (by rw [seconds]; omega) (by rw [seconds]; omega)

theorem nanos_fields : d.fields.nanos.toInt = d.nanos := by
  have hnanos := d.natAbs_nanos_le
  exact Int32.toInt_ofInt_of_le (by omega) (by omega)

theorem normalized_fields : d.fields.Normalized := by
  have hsum := d.seconds_mul_add_nanos
  have hnanos := d.natAbs_nanos_le
  obtain ⟨habove, hbelow⟩ : (0 ≤ d.total → 0 ≤ d.nanos) ∧ (d.total ≤ 0 → d.nanos ≤ 0) :=
    tmod_sign d.total nanosPerSecond
  unfold nanosPerSecond at hsum
  refine ⟨?_, ?_, ?_⟩ <;> simp only [seconds_fields, nanos_fields] <;> omega

end

namespace Fields

variable {f : Fields} {d : Duration}

/-- The count that fields stand for. -/
def exact (f : Fields) : Int := f.seconds.toInt * nanosPerSecond + f.nanos.toInt

theorem total_eq (f : Fields) : f.total = .ok f.exact := by
  have hnanos := natAbs_toInt32_le f.nanos
  exact countOf_eq_ok (natAbs_toInt64_le f.seconds) (by omega)

theorem exact_fields (d : Duration) : d.fields.exact = d.total := by
  rw [exact, seconds_fields, nanos_fields, seconds_mul_add_nanos]

/-- Normalized fields are those of the duration of their count. -/
theorem eq_fields_iff : f = d.fields ↔ f.Normalized ∧ f.exact = d.total := by
  constructor
  · rintro rfl
    exact ⟨d.normalized_fields, exact_fields d⟩
  · rintro ⟨⟨hnanos, habove, hbelow⟩, htotal⟩
    obtain ⟨hquotient, hremainder⟩ := parts_unique hnanos habove hbelow
    rw [← exact, htotal] at hquotient hremainder
    rw [fields, Duration.seconds, Duration.nanos, hquotient, hremainder, Int64.ofInt_toInt,
      Int32.ofInt_toInt]

theorem Normalized.exists_fields (h : f.Normalized) : ∃ d : Duration, f = d.fields := by
  have hseconds := f.seconds.le_toInt
  have hseconds' := f.seconds.toInt_lt
  have hrange : DurationRange f.exact := by
    rw [DurationRange, exact, (parts_unique h.nanos_le h.not_above h.not_below).1]
    omega
  exact ⟨⟨f.exact, hrange⟩, eq_fields_iff.mpr ⟨h, rfl⟩⟩

/-- Normalized fields are told apart by their counts. -/
theorem Normalized.eq_iff {a b : Fields} (ha : a.Normalized) (hb : b.Normalized) :
    a = b ↔ a.exact = b.exact := by
  obtain ⟨d, rfl⟩ := hb.exists_fields
  rw [eq_fields_iff, exact_fields, and_iff_right ha]

/-! ### Building -/

theorem ofNanos?_eq (total : Int) : ofNanos? total = (Duration.ofNanos? total).map fields := by
  unfold ofNanos? Duration.ofNanos? Number.int64?
  by_cases hrange : DurationRange total
  · rw [dif_pos hrange, if_pos (show _ ∧ _ from hrange)]
    rfl
  · rw [dif_neg hrange, if_neg (show ¬ (_ ∧ _) from hrange)]
    rfl

theorem isExact_ofNanos? (n : Int) : IsExact (ofNanos? n) n := by
  refine ⟨fun f => ?_, ?_⟩
  · simp only [ofNanos?_eq, Option.map_eq_some_iff, Duration.ofNanos?_eq_some_iff, total_eq,
      Except.ok.injEq]
    constructor
    · rintro ⟨d, rfl, rfl⟩
      exact ⟨d.normalized_fields, exact_fields d⟩
    · rintro ⟨hnormalized, rfl⟩
      obtain ⟨d, rfl⟩ := hnormalized.exists_fields
      exact ⟨d, (exact_fields d).symm, rfl⟩
  · rw [ofNanos?_eq, Option.isSome_map, Duration.ofNanos?]
    by_cases hrange : DurationRange n
    · rw [dif_pos hrange]
      exact iff_of_true rfl hrange
    · rw [dif_neg hrange]
      exact iff_of_false nofun hrange

theorem ofStep_eq_ok {n : Int} (h : n.natAbs < 0x80000000000000000000000000000000) :
    ofStep n = .ok (ofNanos? n) := by
  rw [ofStep, step_eq_ok h]
  rfl

theorem ofParts_eq (seconds nanos : Int64) :
    ofParts seconds nanos = .ok ((Duration.ofParts? seconds.toInt nanos.toInt).map fields) := by
  rw [ofParts, countOf_eq_ok (natAbs_toInt64_le seconds) (natAbs_toInt64_le nanos),
    Duration.ofParts?, ← ofNanos?_eq]
  rfl

theorem ofSeconds_eq (seconds : Int64) : ofSeconds seconds = (Duration.ofSeconds seconds).fields :=
  eq_fields_iff.mpr ⟨⟨Nat.zero_le _, fun _ => Int.le_refl 0, fun _ => Int.le_refl 0⟩,
    Int.add_zero _⟩

theorem ofMillis_eq (m : Int64) : ofMillis m = (Duration.ofMillis m).fields := by
  have hm := natAbs_toInt64_le m
  have hsum := Int.tdiv_mul_add_tmod m.toInt 1000
  have hbound : (m.toInt.tmod 1000).natAbs = m.toInt.natAbs % 1000 := Int.natAbs_tmod _ _
  have hseconds : (ofMillis m).seconds.toInt = m.toInt.tdiv 1000 := by
    rw [show (ofMillis m).seconds = m / 1000 from rfl, Int64.toInt_div,
      show (1000 : Int64).toInt = 1000 by decide]
    exact Int.bmod_eq_of_le (by omega) (by omega)
  have hnanos : (ofMillis m).nanos.toInt = m.toInt.tmod 1000 * 1000000 := by
    have hproduct : (m % 1000 * 1000000).toInt = m.toInt.tmod 1000 * 1000000 := by
      rw [Int64.toInt_mul, Int64.toInt_mod, show (1000 : Int64).toInt = 1000 by decide,
        show (1000000 : Int64).toInt = 1000000 by decide]
      exact Int.bmod_eq_of_le (by omega) (by omega)
    rw [show (ofMillis m).nanos = (m % 1000 * 1000000).toInt32 from rfl, Int64.toInt_toInt32,
      hproduct]
    exact Int.bmod_eq_of_le (by omega) (by omega)
  obtain ⟨habove, hbelow⟩ := tmod_sign m.toInt 1000
  refine eq_fields_iff.mpr ⟨⟨by omega, by omega, by omega⟩, ?_⟩
  rw [exact, hseconds, hnanos, nanosPerSecond]
  change _ = m.toInt * 1000000
  omega

theorem since_eq (t u : Timestamp) : since t u = .ok ((t.since? u).map fields) := by
  have ht := t.bounds
  have hu := u.bounds
  have htotal : countOf t.seconds t.nanos = .ok t.total := countOf_eq_ok (by omega) (by omega)
  have htotal' : countOf u.seconds u.nanos = .ok u.total := countOf_eq_ok (by omega) (by omega)
  rw [Timestamp.since?, ← ofNanos?_eq, since, htotal, htotal']
  refine ofStep_eq_ok ?_
  unfold Timestamp.total nanosPerSecond
  omega

theorem ofRecord?_eq (seconds nanos : Int) :
    ofRecord? seconds nanos = (HostValue.duration? seconds nanos).map fields := by
  unfold ofRecord? HostValue.duration?
  cases Number.int128? (seconds * nanosPerSecond) with
  | none => rfl
  | some whole =>
      rw [Option.bind_some, ← ofNanos?_eq]
      change (Number.int128? (whole + nanos)).bind ofNanos? = _
      rw [Number.int128?]
      split
      · rfl
      · -- a count that does not fit has too many seconds
        rename_i hwide
        have hrange : ¬ DurationRange (whole + nanos) := by
          rw [durationRange_iff]
          unfold Number.leastInt128 Number.boundInt128 at hwide
          unfold nanosPerSecond
          omega
        rw [ofNanos?_eq, Duration.ofNanos?, dif_neg hrange]
        rfl

/-! ### Arithmetic -/

/-- Counts stay far below the bounds of 128 bits. -/
theorem natAbs_exact_lt (f : Fields) : f.exact.natAbs < 0x1000000000000000000000000 := by
  have hseconds := natAbs_toInt64_le f.seconds
  have hnanos := natAbs_toInt32_le f.nanos
  unfold exact nanosPerSecond
  omega

theorem combine_eq {operation : Int → Int → Int} {a b : Fields}
    (h : (operation a.exact b.exact).natAbs < 0x80000000000000000000000000000000) :
    combine operation a b = .ok (ofNanos? (operation a.exact b.exact)) := by
  rw [combine, total_eq, total_eq]
  exact ofStep_eq_ok h

theorem add_eq (a b : Fields) : a.add b = .ok (ofNanos? (a.exact + b.exact)) := by
  have ha := a.natAbs_exact_lt
  have hb := b.natAbs_exact_lt
  exact combine_eq (by omega)

theorem sub_eq (a b : Fields) : a.sub b = .ok (ofNanos? (a.exact - b.exact)) := by
  have ha := a.natAbs_exact_lt
  have hb := b.natAbs_exact_lt
  exact combine_eq (by omega)

theorem neg_eq (f : Fields) : f.neg = .ok (ofNanos? (-f.exact)) := by
  have hbound := f.natAbs_exact_lt
  rw [neg, total_eq]
  exact ofStep_eq_ok (by omega)

theorem order_eq (a b : Fields) : a.order b = .ok (compare a.exact b.exact) := by
  rw [order, total_eq, total_eq]
  rfl

/-! ### Texts -/

open Number (AllDigits int128?)

theorem int128?_of_lt {n : ℕ} (h : n < 0x80000000000000000000000000000000) :
    int128? (n : Int) = some (n : Int) := by
  rw [int128?, Number.leastInt128, Number.boundInt128, if_pos (by omega)]

theorem int128?_of_le {n : ℕ} (h : 0x80000000000000000000000000000000 ≤ n) :
    int128? (n : Int) = none := by
  rw [int128?, Number.leastInt128, Number.boundInt128, if_neg (by omega)]

theorem readDigits?_eq {digits : List Char} (h : AllDigits digits) :
    readDigits? digits = int128? (Nat.ofDigitChars 10 digits 0 : ℕ) := by
  cases digits with
  | nil => rfl
  | cons c rest =>
      have hc : Number.isDigit c = true := h c List.mem_cons_self
      have hplus : c ≠ '+' := Number.ne_of_isDigit hc rfl
      have hminus : c ≠ '-' := Number.ne_of_isDigit hc rfl
      rw [readDigits?, if_neg nofun, Number.readInt?, Number.readNat?_eq h nofun, int128?]
      · simp only [Option.map_some, Option.filter_some, decide_eq_true_eq]
        rfl
      · rintro _ ⟨⟩
        exact hplus rfl
      · rintro _ ⟨⟩
        exact hminus rfl

theorem size_bounds {unit : List Char} {size : ℕ} (h : unitNanos? unit = some size) :
    1 ≤ size ∧ size ≤ 3600000000000 := by
  have hall : ∀ entry ∈ unitSizes, 1 ≤ entry.2 ∧ entry.2 ≤ 3600000000000 := by decide
  exact hall _ (unitNanos?_eq_some_iff.mp h)

/-- The fraction of a component always fits, and what is more than fits cannot be made less. -/
theorem amount_eq {whole unit numerator scale : ℕ} (hpos : 1 ≤ unit) (hunit : unit ≤ 3600000000000)
    (hnumerator : numerator < 1000000000000000000) :
    (do let whole ← int128? whole
        let amount ← int128? (whole * unit)
        let numerator ← int128? numerator
        let fraction ← int128? (numerator * unit)
        int128? (amount + fraction.tdiv scale)) =
      int128? (whole * unit + numerator * unit / scale : ℕ) := by
  have hproduct : numerator * unit < 0x80000000000000000000000000000000 :=
    calc numerator * unit ≤ 1000000000000000000 * 3600000000000 :=
          Nat.mul_le_mul (Nat.le_of_lt hnumerator) hunit
      _ < 0x80000000000000000000000000000000 := by decide
  have hle : whole ≤ whole * unit := Nat.le_mul_of_pos_right whole hpos
  generalize hamount : whole * unit = amount at hle
  generalize hfraction : numerator * unit = fraction at hproduct
  have hamount' : (whole : Int) * unit = (amount : ℕ) := by rw [← hamount, Int.natCast_mul]
  have hfraction' : (numerator : Int) * unit = (fraction : ℕ) := by
    rw [← hfraction, Int.natCast_mul]
  rw [int128?_of_lt (n := numerator) (by omega)]
  by_cases hfits : amount < 0x80000000000000000000000000000000
  · rw [int128?_of_lt (n := whole) (by omega), Option.bind_eq_bind, Option.bind_some, hamount',
      int128?_of_lt hfits, Option.bind_some, Option.bind_some, hfraction', int128?_of_lt hproduct,
      Option.bind_some, ← Int.ofNat_tdiv, ← Int.natCast_add]
  · have hnone : int128? (amount : Int) = none := int128?_of_le (by omega)
    have hsum : amount ≤ amount + fraction / scale := Nat.le_add_right _ _
    rw [int128?_of_le (n := amount + fraction / scale) (by omega)]
    by_cases hwhole : whole < 0x80000000000000000000000000000000
    · rw [int128?_of_lt hwhole, Option.bind_eq_bind, Option.bind_some, hamount', hnone]
      rfl
    · rw [int128?_of_le (n := whole) (by omega)]
      rfl

theorem ofComponent_eq {c : Component} (hwhole : AllDigits c.whole)
    (hfraction : AllDigits c.fraction) :
    ofComponent c = .ok (c.nanos?.bind fun n => int128? n) := by
  have hdigits : AllDigits (c.fraction.take fractionDigits) := fun d hd =>
    hfraction d (List.mem_of_mem_take hd)
  have hscale : Nat.pow 10 (c.fraction.take fractionDigits).length ≤ 1000000000000000000 :=
    Nat.pow_le_pow_right (n := 10) (j := 18) (by decide) (List.length_take_le _ _)
  have hlt := Number.ofDigitChars_lt hdigits
  unfold ofComponent Component.nanos?
  split
  · rfl
  cases hunit : unitNanos? c.unit with
  | none => rfl
  | some unit =>
      obtain ⟨hpos, hle⟩ := size_bounds hunit
      dsimp only
      rw [step_eq_ok (by omega), Option.map_some, Option.bind_some, Number.ofDigits_eq hwhole,
        Number.ofDigits_eq hdigits, Option.getD_some, Option.getD_some,
        ← amount_eq hpos hle (Nat.lt_of_lt_of_le hlt hscale), ← readDigits?_eq hwhole,
        ← readDigits?_eq hdigits]
      rfl

theorem ofComponent_split (text : List Char) :
    ofComponent (Component.split text) =
      .ok ((Component.split text).nanos?.bind fun n => int128? n) := by
  obtain ⟨fraction, -, -, hdigits, -⟩ := Quantity.split_spec text
  exact ofComponent_eq (fun c hc => hdigits c (List.mem_append_left _ hc))
    fun c hc => hdigits c (List.mem_append_right _ hc)

/-- What has come to more than fits stays so. -/
theorem bind_int128?_of_le {before : ℕ} (h : 0x80000000000000000000000000000000 ≤ before)
    (sum : Option ℕ) : (sum.bind fun n => int128? (before + n : ℕ)) = none := by
  cases sum with
  | none => rfl
  | some n =>
      have hle : before ≤ before + n := Nat.le_add_right before n
      rw [Option.bind_some, int128?_of_le (Nat.le_trans h hle)]

theorem componentSum?_of_none {text : List Char} (hempty : ¬ text.isEmpty)
    (h : (Component.split text).nanos? = none) : componentSum? text = none := by
  rw [componentSum?, if_neg hempty]
  split
  · rfl
  · rename_i hsome
    rw [h] at hsome
    cases hsome

theorem componentSum?_of_some {text : List Char} {amount : ℕ} (hempty : ¬ text.isEmpty)
    (h : (Component.split text).nanos? = some amount) :
    componentSum? text = (componentSum? (Component.split text).rest).map (amount + ·) := by
  rw [componentSum?, if_neg hempty]
  split
  · rename_i hnone
    rw [hnone] at h
    cases h
  · rename_i hsome
    rw [hsome] at h
    cases h
    rfl

theorem sumFrom_of_component {before amount : Int} {text : List Char} (hempty : ¬ text.isEmpty)
    (hlt : (Component.split text).rest.length < text.length)
    (h : ofComponent (Component.split text) = .ok (some amount)) :
    sumFrom before text =
      (int128? (before + amount)).elim (.ok none) (sumFrom · (Component.split text).rest) := by
  rw [sumFrom, if_neg hempty, h]
  cases hnext : int128? (before + amount) with
  | none => simp only [hnext, Option.elim_none]
  | some next => simp only [hnext, Option.elim_some, dif_pos hlt]

/-- Adding up from the left in 128 bits is adding up, if the whole sum fits. -/
theorem sumFrom_eq {before : ℕ} (hbefore : before < 0x80000000000000000000000000000000)
    (text : List Char) :
    sumFrom before text = .ok ((componentSum? text).bind fun n => int128? (before + n : ℕ)) := by
  induction text using componentSum?.induct generalizing before with
  | case1 text hempty =>
      rw [sumFrom, if_pos hempty, componentSum?, if_pos hempty, Option.bind_some, Nat.add_zero,
        int128?_of_lt hbefore]
  | case2 text hempty hnone =>
      rw [sumFrom, if_neg hempty, ofComponent_split, hnone, componentSum?_of_none hempty hnone]
      rfl
  | case3 text hempty amount hsome hlt ih =>
      have hsum (read : ℕ → Option Int) : ((componentSum? text).bind fun n => read (before + n)) =
          (componentSum? (Component.split text).rest).bind fun n => read (before + amount + n) := by
        simp only [componentSum?_of_some hempty hsome, Option.bind_map, Function.comp_def,
          Nat.add_assoc]
      have hcomponent := ofComponent_split text
      rw [hsome, Option.bind_some] at hcomponent
      rw [hsum fun n => int128? n]
      by_cases hamount : amount < 0x80000000000000000000000000000000
      · rw [int128?_of_lt hamount] at hcomponent
        rw [sumFrom_of_component hempty hlt hcomponent, ← Int.natCast_add]
        by_cases hfits : before + amount < 0x80000000000000000000000000000000
        · rw [int128?_of_lt hfits, Option.elim_some, ih hfits]
        · rw [int128?_of_le (Nat.le_of_not_lt hfits), bind_int128?_of_le (Nat.le_of_not_lt hfits),
            Option.elim_none]
      · rw [int128?_of_le (Nat.le_of_not_lt hamount)] at hcomponent
        rw [bind_int128?_of_le (by omega), sumFrom, if_neg hempty, hcomponent]

theorem ofNanos?_eq_none {total : Int} (h : 0x80000000000000000000000000000000 ≤ total.natAbs) :
    Duration.ofNanos? total = none := by
  have hrange : ¬ DurationRange total := by
    rw [durationRange_iff]
    unfold nanosPerSecond
    omega
  rw [Duration.ofNanos?, dif_neg hrange]

theorem ofBody_eq (sign : Sign) (body : List Char) :
    ofBody (sign matches .minus) body =
      .ok (((bodySum? body).bind fun n => Duration.ofNanos? (sign.apply n)).map fields) := by
  unfold ofBody bodySum?
  split
  · cases sign <;> rfl
  split
  · rfl
  have hsum : sumFrom 0 body = .ok ((componentSum? body).bind fun n => int128? (0 + n : ℕ)) :=
    sumFrom_eq (show (0 : ℕ) < 0x80000000000000000000000000000000 by decide) body
  simp only [Nat.zero_add] at hsum
  rw [hsum]
  cases componentSum? body with
  | none => rfl
  | some total =>
      rw [Option.bind_some, Option.bind_some]
      by_cases hfits : total < 0x80000000000000000000000000000000
      · rw [int128?_of_lt hfits, ← ofNanos?_eq]
        cases sign with
        | none => rfl
        | plus => rfl
        | minus => exact ofStep_eq_ok (by omega)
      · have hnone : Duration.ofNanos? (sign.apply total) = none :=
          ofNanos?_eq_none (by cases sign <;> rw [Sign.apply] <;> omega)
        rw [int128?_of_le (Nat.le_of_not_lt hfits), hnone]
        rfl

theorem ofText_eq (text : List Char) : ofText text = .ok ((Duration.ofText? text).map fields) := by
  obtain ⟨sign, body, rfl, hfits⟩ := exists_sign text
  rw [ofText?_append hfits, ← ofBody_eq]
  cases sign with
  | minus => rfl
  | plus => rfl
  | none =>
      have hhead := hfits rfl
      rw [Sign.text, List.nil_append]
      unfold ofText
      split
      · exact absurd rfl (hhead '-' rfl).1
      · exact absurd rfl (hhead '+' rfl).2
      · rfl

/-! ### All that durations are made with -/

section

variable (a b : Duration)

theorem add_fields : a.fields.add b.fields = .ok ((a.add? b).map fields) := by
  rw [add_eq, ofNanos?_eq, exact_fields, exact_fields, Duration.add?]

theorem sub_fields : a.fields.sub b.fields = .ok ((a.sub? b).map fields) := by
  rw [sub_eq, ofNanos?_eq, exact_fields, exact_fields, Duration.sub?]

theorem neg_fields : a.fields.neg = .ok (a.neg?.map fields) := by
  rw [neg_eq, ofNanos?_eq, exact_fields, Duration.neg?]

theorem order_fields : a.fields.order b.fields = .ok (compare a b) := by
  rw [order_eq, exact_fields, exact_fields]
  rfl

end

theorem normalized_of_ofNanos? {n : Int} (h : ofNanos? n = some f) : f.Normalized :=
  (((isExact_ofNanos? n).eq_some_iff f).mp h).1

theorem normalized_of_map {result : Option Duration} (h : result.map fields = some f) :
    f.Normalized := by
  obtain ⟨d, -, rfl⟩ := Option.map_eq_some_iff.mp h
  exact d.normalized_fields

theorem Produced.normalized (h : Produced f) : f.Normalized := by
  cases h with
  | ofNanos h => exact normalized_of_ofNanos? h
  | ofParts h => exact normalized_of_map (Except.ok.inj (ofParts_eq _ _ ▸ h))
  | ofSeconds seconds => exact ofSeconds_eq seconds ▸ normalized_fields _
  | ofMillis millis => exact ofMillis_eq millis ▸ normalized_fields _
  | add h => exact normalized_of_ofNanos? (Except.ok.inj (add_eq _ _ ▸ h))
  | sub h => exact normalized_of_ofNanos? (Except.ok.inj (sub_eq _ _ ▸ h))
  | neg h => exact normalized_of_ofNanos? (Except.ok.inj (neg_eq _ ▸ h))
  | ofText h => exact normalized_of_map (Except.ok.inj (ofText_eq _ ▸ h))
  | since h => exact normalized_of_map (Except.ok.inj (since_eq _ _ ▸ h))
  | ofRecord h => exact normalized_of_map (ofRecord?_eq _ _ ▸ h)

/-- The fields that durations are kept in are exact.  Whatever they are made with, they are
normalized, and what is made of a count has this count just where its whole seconds fit their word.
So have the sums, the differences and the opposites of normalized fields, which are equal and in
order as their counts are.  The normalized fields are those of the durations, they have the counts
of these, and all that durations are made with comes to the same on the fields without a step that
leaves 128 bits. -/
theorem fields_exact :
    (∀ f, Produced f → f.Normalized) ∧
    (∀ n, IsExact (ofNanos? n) n) ∧
    (∀ a b : Fields, a.Normalized → b.Normalized → ∃ m n, a.total = .ok m ∧ b.total = .ok n ∧
      (∃ sum, a.add b = .ok sum ∧ IsExact sum (m + n)) ∧
      (∃ difference, a.sub b = .ok difference ∧ IsExact difference (m - n)) ∧
      (∃ opposite, a.neg = .ok opposite ∧ IsExact opposite (-m)) ∧
      (a = b ↔ m = n) ∧ a.order b = .ok (compare m n)) ∧
    (∀ f, f.Normalized ↔ ∃ d : Duration, d.fields = f) ∧
    (∀ d : Duration, d.fields.total = .ok d.total) ∧
    (∀ n, ofNanos? n = (Duration.ofNanos? n).map fields) ∧
    (∀ seconds nanos : Int64, ofParts seconds nanos =
      .ok ((Duration.ofParts? seconds.toInt nanos.toInt).map fields)) ∧
    (∀ seconds, ofSeconds seconds = (Duration.ofSeconds seconds).fields) ∧
    (∀ millis, ofMillis millis = (Duration.ofMillis millis).fields) ∧
    (∀ a b : Duration, a.fields.add b.fields = .ok ((a.add? b).map fields) ∧
      a.fields.sub b.fields = .ok ((a.sub? b).map fields) ∧
      a.fields.neg = .ok (a.neg?.map fields) ∧ a.fields.order b.fields = .ok (compare a b)) ∧
    (∀ text, ofText text = .ok ((Duration.ofText? text).map fields)) ∧
    (∀ t u : Timestamp, since t u = .ok ((t.since? u).map fields)) ∧
    ∀ seconds nanos, ofRecord? seconds nanos = (HostValue.duration? seconds nanos).map fields := by
  refine ⟨fun f => Produced.normalized, isExact_ofNanos?, fun a b ha hb => ?_, fun f => ?_,
    fun d => ?_, ofNanos?_eq, ofParts_eq, ofSeconds_eq, ofMillis_eq, fun a b => ?_, ofText_eq,
    since_eq, ofRecord?_eq⟩
  · exact ⟨a.exact, b.exact, a.total_eq, b.total_eq,
      ⟨_, a.add_eq b, isExact_ofNanos? _⟩, ⟨_, a.sub_eq b, isExact_ofNanos? _⟩,
      ⟨_, a.neg_eq, isExact_ofNanos? _⟩, ha.eq_iff hb, a.order_eq b⟩
  · constructor
    · intro h
      obtain ⟨d, rfl⟩ := h.exists_fields
      exact ⟨d, rfl⟩
    · rintro ⟨d, rfl⟩
      exact d.normalized_fields
  · rw [total_eq, exact_fields]
  · exact ⟨add_fields a b, sub_fields a b, neg_fields a, order_fields a b⟩

/-- The least duration and a nanosecond before zero. -/
theorem fields_exact_least :
    let least : Fields := ⟨Int64.minValue, -999999999⟩
    let before : Fields := ⟨0, -1⟩
    Produced before ∧ least.Normalized ∧ before.Normalized ∧
      least.add before = .ok none ∧ least.neg = .ok none ∧
      least ≠ before ∧ least.order before = .ok .lt := by
  intro least before
  obtain ⟨hproduced, -, hpair, -⟩ := fields_exact
  have hbefore : Produced before := .ofNanos (n := -1) rfl
  have hleast : least.Normalized := ⟨by decide, by decide, by decide⟩
  obtain ⟨m, n, hm, hn, ⟨sum, hsum, hexact⟩, -, ⟨opposite, hopposite, hexact'⟩, heq, horder⟩ :=
    hpair least before hleast (hproduced before hbefore)
  obtain rfl : -9223372036854775808999999999 = m :=
    Except.ok.inj (Eq.trans (by decide) hm)
  obtain rfl : -1 = n := Except.ok.inj (Eq.trans (by decide) hn)
  have hnone : sum = none := by
    rw [← Option.not_isSome_iff_eq_none, hexact.isSome_iff]
    decide
  have hnone' : opposite = none := by
    rw [← Option.not_isSome_iff_eq_none, hexact'.isSome_iff]
    decide
  rw [hnone] at hsum
  rw [hnone'] at hopposite
  refine ⟨hbefore, hleast, hproduced before hbefore, hsum, hopposite, ?_, horder⟩
  rw [ne_eq, heq]
  decide

end Fields

end Duration

end EmbeddedExpr.Time
