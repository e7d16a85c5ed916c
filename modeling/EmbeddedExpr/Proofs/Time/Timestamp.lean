import EmbeddedExpr.Eval.Operators
import EmbeddedExpr.Time.Rfc3339

/-!
# Timestamps and the durations between them

Arithmetic counts nanoseconds since the epoch, while the order of timestamps goes by the second
first.  A count belongs to one timestamp outside the leap seconds (`ofNanos?_eq_some_iff`), so
that a sum or a difference never is in a leap second, and an instant of a leap second has the
count of one in the second after it.  Two timestamps stand in the order of their counts just if
neither overruns the other (`compare_eq_compare_total_iff`).

Apart from that, timestamps and durations are an affine pair: the difference of two timestamps is
always a duration, adding it leads from the one to the other, and adding and subtracting a
duration undo each other (`affine_unless_leap`).
-/

namespace EmbeddedExpr.Time

namespace Duration

theorem ofNanos?_total (d : Duration) : ofNanos? d.total = some d :=
  ofNanos?_eq_some_iff.mpr rfl

/-- The counts of the durations lie between two bounds. -/
theorem durationRange_iff {total : Int} :
    DurationRange total ↔
      -0x8000000000000001 * nanosPerSecond < total ∧
        total < 0x8000000000000000 * nanosPerSecond := by
  unfold DurationRange nanosPerSecond
  rcases Int.le_total 0 total with hsign | hsign
  · rw [Int.tdiv_eq_ediv_of_nonneg hsign]
    omega
  · have hneg : total.tdiv 1000000000 = -(-total / 1000000000) := by
      rw [← Int.tdiv_eq_ediv_of_nonneg (by omega), Int.neg_tdiv, Int.neg_neg]
    rw [hneg]
    omega

end Duration

namespace Timestamp

variable {t u : Timestamp}

/-- An instant in a leap second. -/
def IsLeap (t : Timestamp) : Prop := 1000000000 ≤ t.nanos

/-- The first instant is in a leap second, the other one in the second after it but, counted from
the start of its second, not later. -/
def Overruns (t u : Timestamp) : Prop :=
  u.seconds = t.seconds + 1 ∧ u.nanos + 1000000000 ≤ t.nanos

/-! ### Counts of nanoseconds -/

/-- A count leads back to its timestamp unless that is in a leap second. -/
theorem ofNanos?_eq_some_iff {total : Int} :
    ofNanos? total = some t ↔ t.total = total ∧ ¬ t.IsLeap := by
  have hvalid := t.valid
  unfold ofNanos? ofParts? Timestamp.total IsLeap nanosPerSecond
  constructor
  · intro h
    split at h
    · cases h
      dsimp only
      omega
    · cases h
  · rintro ⟨rfl, hleap⟩
    have hseconds : (t.seconds * 1000000000 + t.nanos) / 1000000000 = t.seconds := by omega
    have hnanos : ((t.seconds * 1000000000 + t.nanos) % 1000000000).toNat = t.nanos := by omega
    rw [dif_pos (by rw [hseconds, hnanos]; exact hvalid)]
    simp only [hseconds, hnanos]

theorem bounds (t : Timestamp) :
    -8334601228800 ≤ t.seconds ∧ t.seconds ≤ 8210266876799 ∧ t.nanos < 2000000000 := by
  obtain ⟨hfirst, hlast, hnanos, -⟩ := t.valid
  have hlow : firstSecond = -8334601228800 := by decide +kernel
  have hhigh : lastSecond = 8210266876799 := by decide +kernel
  exact ⟨hlow ▸ hfirst, hhigh ▸ hlast, hnanos⟩

/-- The time between any two timestamps is representable. -/
theorem exists_since? (t u : Timestamp) :
    ∃ d : Duration, u.since? t = some d ∧ t.total + d.total = u.total := by
  have ht := t.bounds
  have hu := u.bounds
  have hrange : DurationRange (u.total - t.total) := by
    rw [Duration.durationRange_iff]
    unfold total nanosPerSecond
    omega
  refine ⟨⟨_, hrange⟩, dif_pos hrange, ?_⟩
  dsimp only
  omega

/-! ### The order -/

theorem compare_eq_eq_iff : compare t u = .eq ↔ t = u := by
  show (compare t.seconds u.seconds).then (compare t.nanos u.nanos) = .eq ↔ _
  rw [Ordering.then_eq_eq, Int.compare_eq_eq, Nat.compare_eq_eq]
  cases t
  cases u
  rw [mk.injEq]

/-- The sign of what leads from one count to another is their order. -/
theorem compare_zero_eq {a b n : Int} (h : a + n = b) : compare 0 n = compare a b := by
  rcases Int.lt_trichotomy 0 n with hpos | hzero | hneg
  · rw [Int.compare_eq_lt.mpr hpos, eq_comm, Int.compare_eq_lt]
    omega
  · rw [Int.compare_eq_eq.mpr hzero, eq_comm, Int.compare_eq_eq]
    omega
  · rw [Int.compare_eq_gt.mpr hneg, eq_comm, Int.compare_eq_gt]
    omega

/-- Timestamps stand in the order of their counts unless one of them overruns the other. -/
theorem compare_eq_compare_total_iff :
    compare t u = compare t.total u.total ↔ ¬ t.Overruns u ∧ ¬ u.Overruns t := by
  have hnanos := t.valid.2.2.1
  have hnanos' := u.valid.2.2.1
  show (compare t.seconds u.seconds).then (compare t.nanos u.nanos) = _ ↔ _
  unfold Overruns Timestamp.total nanosPerSecond
  rcases Int.lt_trichotomy t.seconds u.seconds with hearlier | hsame | hlater
  · -- the counts are in this order too, but for the nanoseconds of a leap second
    rw [Int.compare_eq_lt.mpr hearlier, Ordering.lt_then, eq_comm, Int.compare_eq_lt]
    omega
  · rw [Int.compare_eq_eq.mpr hsame, Ordering.eq_then, hsame]
    refine iff_of_true ?_ (by omega)
    rcases Nat.lt_trichotomy t.nanos u.nanos with hlt | heq | hgt
    · rw [Nat.compare_eq_lt.mpr hlt, eq_comm, Int.compare_eq_lt]
      omega
    · rw [Nat.compare_eq_eq.mpr heq, eq_comm, Int.compare_eq_eq]
      omega
    · rw [Nat.compare_eq_gt.mpr hgt, eq_comm, Int.compare_eq_gt]
      omega
  · rw [Int.compare_eq_gt.mpr hlater, Ordering.gt_then, eq_comm, Int.compare_eq_gt]
    omega

end Timestamp

end EmbeddedExpr.Time

namespace EmbeddedExpr.Eval

open Time (Duration Timestamp)
open Value (timestamp duration)

section

variable {t u s : Timestamp} {d : Duration}

theorem orOverflow_map_eq_ok_iff {α : Type} {operation : String} {make : α → Value}
    (hmake : Function.Injective make) {result : Option α} {a : α} :
    orOverflow operation (result.map make) = .ok (make a) ↔ result = some a := by
  cases result with
  | none => exact iff_of_false nofun nofun
  | some b => simp [orOverflow, hmake.eq_iff]

theorem timestamp_add_eq_ok_iff :
    applyArith .add (timestamp t) (duration d) = .ok (timestamp s) ↔ t.add? d = some s :=
  orOverflow_map_eq_ok_iff fun _ _ => timestamp.inj

theorem timestamp_sub_eq_ok_iff :
    applyArith .sub (timestamp s) (duration d) = .ok (timestamp t) ↔ s.sub? d = some t :=
  orOverflow_map_eq_ok_iff fun _ _ => timestamp.inj

theorem timestamp_since_eq_ok_iff :
    applyArith .sub (timestamp u) (timestamp t) = .ok (duration d) ↔ u.since? t = some d :=
  orOverflow_map_eq_ok_iff fun _ _ => duration.inj

/-- The relations of two timestamps tell the sign of a number just if their order is that of zero
and this number. -/
theorem relations_eq_sign_iff {n : Int} :
    (applyRelation .lt (timestamp t) (timestamp u) = .ok (decide (0 < n)) ∧
      applyRelation .eq (timestamp t) (timestamp u) = .ok (decide (n = 0)) ∧
      applyRelation .gt (timestamp t) (timestamp u) = .ok (decide (n < 0))) ↔
        compare t u = compare 0 n := by
  have hlt : applyRelation .lt (timestamp t) (timestamp u) = .ok (compare t u == .lt) := rfl
  have heq : applyRelation .eq (timestamp t) (timestamp u) = .ok (compare t u == .eq) := by
    rw [applyRelation, Value.equals, Except.ok.injEq, Bool.eq_iff_iff, decide_eq_true_iff,
      beq_iff_eq, Timestamp.compare_eq_eq_iff]
  have hgt : applyRelation .gt (timestamp t) (timestamp u) = .ok (compare t u == .gt) := rfl
  rw [hlt, heq, hgt]
  simp only [Except.ok.injEq]
  rcases Int.lt_trichotomy 0 n with hpos | hzero | hneg
  · rw [Int.compare_eq_lt.mpr hpos]
    cases compare t u <;> simp <;> omega
  · rw [Int.compare_eq_eq.mpr hzero]
    cases compare t u <;> simp <;> omega
  · rw [Int.compare_eq_gt.mpr hneg]
    cases compare t u <;> simp <;> omega

end

/-- Timestamps and durations are an affine pair but for leap seconds: the difference of two
timestamps is a duration, which leads from the one to the other just if that is not in a leap
second, and whose sign is their order just if neither overruns the other.  A duration that was
added is the difference to the sum, and subtracting it again leads back just if the start is not
in a leap second. -/
theorem affine_unless_leap (t u : Timestamp) :
    (∃ d, applyArith .sub (timestamp u) (timestamp t) = .ok (duration d) ∧
      (applyArith .add (timestamp t) (duration d) = .ok (timestamp u) ↔ ¬ u.IsLeap) ∧
      (applyRelation .lt (timestamp t) (timestamp u) = .ok (decide (0 < d.total)) ∧
        applyRelation .eq (timestamp t) (timestamp u) = .ok (decide (d.total = 0)) ∧
        applyRelation .gt (timestamp t) (timestamp u) = .ok (decide (d.total < 0)) ↔
          ¬ t.Overruns u ∧ ¬ u.Overruns t)) ∧
    ∀ d s, applyArith .add (timestamp t) (duration d) = .ok (timestamp s) →
      applyArith .sub (timestamp s) (timestamp t) = .ok (duration d) ∧
      (applyArith .sub (timestamp s) (duration d) = .ok (timestamp t) ↔ ¬ t.IsLeap) := by
  constructor
  · obtain ⟨d, hsince, htotal⟩ := Timestamp.exists_since? t u
    refine ⟨d, timestamp_since_eq_ok_iff.mpr hsince, ?_, ?_⟩
    · rw [timestamp_add_eq_ok_iff, Timestamp.add?, htotal, Timestamp.ofNanos?_eq_some_iff,
        and_iff_right rfl]
    · rw [relations_eq_sign_iff, Timestamp.compare_zero_eq htotal,
        Timestamp.compare_eq_compare_total_iff]
  · intro d s hadd
    obtain ⟨hsum, -⟩ := Timestamp.ofNanos?_eq_some_iff.mp (timestamp_add_eq_ok_iff.mp hadd)
    constructor
    · have hdifference : s.total - t.total = d.total := by omega
      rw [timestamp_since_eq_ok_iff, Timestamp.since?, hdifference, Duration.ofNanos?_total]
    · have hstart : s.total - d.total = t.total := by omega
      rw [timestamp_sub_eq_ok_iff, Timestamp.sub?, hstart, Timestamp.ofNanos?_eq_some_iff,
        and_iff_right rfl]

/-- Half a second leads from the last quarter of a year's last second into the next year. -/
theorem affine_newYear :
    let before : Timestamp := ⟨1483228799, 750000000, by decide +kernel⟩
    let after : Timestamp := ⟨1483228800, 250000000, by decide +kernel⟩
    let half : Duration := ⟨500000000, by decide⟩
    applyArith .add (timestamp before) (duration half) = .ok (timestamp after) ∧
      applyArith .sub (timestamp after) (timestamp before) = .ok (duration half) ∧
      applyArith .sub (timestamp after) (duration half) = .ok (timestamp before) := by
  intro before after half
  have hadd : applyArith .add (timestamp before) (duration half) = .ok (timestamp after) :=
    timestamp_add_eq_ok_iff.mpr (by decide +kernel)
  obtain ⟨hsince, hsub⟩ := (affine_unless_leap before after).2 half after hadd
  exact ⟨hadd, hsince, hsub.mpr (by unfold Timestamp.IsLeap; decide)⟩

/-- Half a second into a leap second is before a quarter of a second into the next year, but the
time from the one to the other is negative, and there is no way back into the leap second. -/
theorem affine_fails_in_leap_second :
    ∃ t u d e, Time.Rfc3339.read "2016-12-31T23:59:60.5Z".toList = .ok t ∧
      Time.Rfc3339.read "2017-01-01T00:00:00.25Z".toList = .ok u ∧
      applyRelation .lt (timestamp t) (timestamp u) = .ok true ∧
      applyArith .sub (timestamp u) (timestamp t) = .ok (duration d) ∧ d.total = -250000000 ∧
      applyArith .sub (timestamp t) (timestamp u) = .ok (duration e) ∧
      applyArith .add (timestamp u) (duration e) ≠ .ok (timestamp t) :=
  ⟨⟨1483228799, 1500000000, by decide +kernel⟩, ⟨1483228800, 250000000, by decide +kernel⟩,
    ⟨-250000000, by decide⟩, ⟨250000000, by decide⟩, rfl, rfl, rfl,
    timestamp_since_eq_ok_iff.mpr (by decide +kernel), rfl,
    timestamp_since_eq_ok_iff.mpr (by decide +kernel),
    mt timestamp_add_eq_ok_iff.mp (by decide +kernel)⟩

end EmbeddedExpr.Eval
