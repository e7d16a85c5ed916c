import EmbeddedExpr.Proofs.Time.Timestamp
import EmbeddedExpr.Proofs.Value.Comparison

/-!
# Timestamps shifted by durations

A sum of a timestamp and a duration is the instant outside the leap seconds with the sum of their
counts (`add?_eq_some_iff`), so that shifting by one duration after the other is shifting by
their sum, and subtracting a duration is adding its opposite.  The same start makes the order of
the sums that of the durations: no sum is in a leap second, and so none overruns another
(`compare_add?`).

All of it holds for instants before and after the epoch, and also for those in a leap second,
whose counts are those of the second after it.
-/

namespace EmbeddedExpr.Time

namespace Duration

variable {a b c : Duration}

theorem compare_eq_compare_total (a b : Duration) : compare a b = compare a.total b.total := rfl

theorem compare_eq_eq_iff : compare a b = .eq ↔ a = b := by
  rw [compare_eq_compare_total, Int.compare_eq_eq]
  cases a
  cases b
  rw [mk.injEq]

theorem add?_eq_some_iff : a.add? b = some c ↔ c.total = a.total + b.total :=
  ofNanos?_eq_some_iff

theorem neg?_eq_some_iff : a.neg? = some c ↔ c.total = -a.total :=
  ofNanos?_eq_some_iff

end Duration

namespace Timestamp

variable {t s u : Timestamp} {a b c : Duration}

theorem add?_eq_some_iff : t.add? a = some s ↔ s.total = t.total + a.total ∧ ¬ s.IsLeap :=
  ofNanos?_eq_some_iff

/-- A shift by one duration and then by another is the shift by their sum. -/
theorem add?_add? (hs : t.add? a = some s) (hc : a.add? b = some c) : s.add? b = t.add? c := by
  obtain ⟨hstart, -⟩ := add?_eq_some_iff.mp hs
  have hsum := Duration.add?_eq_some_iff.mp hc
  rw [add?, add?, hstart, hsum, Int.add_assoc]

/-- Subtracting a duration is adding its opposite. -/
theorem sub?_eq_add? (hc : a.neg? = some c) : t.sub? a = t.add? c := by
  rw [sub?, add?, Duration.neg?_eq_some_iff.mp hc, Int.sub_eq_add_neg]

theorem not_overruns (hs : ¬ s.IsLeap) : ¬ s.Overruns u := by
  unfold IsLeap at hs
  unfold Overruns
  omega

/-- The sums of one timestamp stand in the order of the durations. -/
theorem compare_add? (hs : t.add? a = some s) (hu : t.add? b = some u) :
    compare s u = compare a b := by
  obtain ⟨hsum, hleap⟩ := add?_eq_some_iff.mp hs
  obtain ⟨hsum', hleap'⟩ := add?_eq_some_iff.mp hu
  calc
    compare s u = compare s.total u.total :=
      compare_eq_compare_total_iff.mpr ⟨not_overruns hleap, not_overruns hleap'⟩
    _ = compare 0 (b.total - a.total) := (compare_zero_eq (by omega)).symm
    _ = compare a.total b.total := compare_zero_eq (by omega)
    _ = compare a b := (Duration.compare_eq_compare_total a b).symm

end Timestamp

end EmbeddedExpr.Time

namespace EmbeddedExpr.Eval

open Time (Duration Timestamp)
open Value (timestamp duration)

theorem duration_add_eq_ok_iff {a b c : Duration} :
    applyArith .add (duration a) (duration b) = .ok (duration c) ↔ a.add? b = some c :=
  orOverflow_map_eq_ok_iff fun _ _ => duration.inj

theorem duration_neg_eq_ok_iff {a c : Duration} :
    applyUnary .neg (duration a) = .ok (duration c) ↔ a.neg? = some c :=
  orOverflow_map_eq_ok_iff fun _ _ => duration.inj

theorem decide_eq_beq {α : Type} [DecidableEq α] [Ord α] {x y : α}
    (h : compare x y = .eq ↔ x = y) : decide (x = y) = (compare x y == .eq) := by
  rw [Bool.eq_iff_iff, beq_iff_eq, decide_eq_true_iff, h]

/-- The relations of timestamps are those of their order. -/
theorem relation_timestamp {op : RelationOp} (hop : op ≠ .mem) (s u : Timestamp) :
    applyRelation op (timestamp s) (timestamp u) = .ok (satisfies op (compare s u)) := by
  apply applyRelation_of_order hop rfl
  rw [Value.equals, decide_eq_beq Timestamp.compare_eq_eq_iff]

/-- The relations of durations are those of their order. -/
theorem relation_duration {op : RelationOp} (hop : op ≠ .mem) (a b : Duration) :
    applyRelation op (duration a) (duration b) = .ok (satisfies op (compare a b)) := by
  apply applyRelation_of_order hop rfl
  rw [Value.equals, decide_eq_beq Duration.compare_eq_eq_iff]

/-- Shifts of a timestamp compose.  Adding one duration and then another is adding their sum, to
the same result and undefined where that is; subtracting a duration is adding its opposite,
wherever there is one; and two sums stand in every relation in which the durations stand. -/
theorem shifts_compose (t : Timestamp) (a b : Duration) :
    (∀ s c, applyArith .add (timestamp t) (duration a) = .ok (timestamp s) →
      applyArith .add (duration a) (duration b) = .ok (duration c) →
      applyArith .add (timestamp s) (duration b) = applyArith .add (timestamp t) (duration c)) ∧
    (∀ c, applyUnary .neg (duration a) = .ok (duration c) →
      ∀ s, applyArith .sub (timestamp t) (duration a) = .ok s ↔
        applyArith .add (timestamp t) (duration c) = .ok s) ∧
    ∀ s u, applyArith .add (timestamp t) (duration a) = .ok (timestamp s) →
      applyArith .add (timestamp t) (duration b) = .ok (timestamp u) →
      ∀ op, op ≠ .mem →
        applyRelation op (timestamp s) (timestamp u) =
          applyRelation op (duration a) (duration b) := by
  refine ⟨?_, ?_, ?_⟩
  · intro s c hs hc
    have hshift := Timestamp.add?_add? (timestamp_add_eq_ok_iff.mp hs)
      (duration_add_eq_ok_iff.mp hc)
    exact congrArg (fun sum => orOverflow "addition" (sum.map timestamp)) hshift
  · intro c hc s
    have hshift := Timestamp.sub?_eq_add? (t := t) (duration_neg_eq_ok_iff.mp hc)
    change orOverflow _ ((t.sub? a).map timestamp) = _ ↔
      orOverflow _ ((t.add? c).map timestamp) = _
    rw [hshift]
    -- only the names of the two operations differ
    cases t.add? c with
    | none => exact iff_of_false nofun nofun
    | some u => exact Iff.rfl
  · intro s u hs hu op hop
    rw [relation_timestamp hop, relation_duration hop, Timestamp.compare_add?
      (timestamp_add_eq_ok_iff.mp hs) (timestamp_add_eq_ok_iff.mp hu)]

/-- From the middle of a leap second before the epoch, back by three quarters of a second and on
by a half. -/
theorem shifts_compose_beforeEpoch :
    let t : Timestamp := ⟨-86401, 1500000000, by decide +kernel⟩
    let back : Duration := ⟨-750000000, by decide⟩
    let half : Duration := ⟨500000000, by decide⟩
    let quarter : Duration := ⟨-250000000, by decide⟩
    let opposite : Duration := ⟨750000000, by decide⟩
    let s : Timestamp := ⟨-86401, 750000000, by decide +kernel⟩
    let u : Timestamp := ⟨-86399, 0, by decide +kernel⟩
    applyArith .add (timestamp t) (duration back) = .ok (timestamp s) ∧
      applyArith .add (timestamp t) (duration half) = .ok (timestamp u) ∧
      applyArith .add (duration back) (duration half) = .ok (duration quarter) ∧
      applyUnary .neg (duration back) = .ok (duration opposite) ∧
      applyArith .add (timestamp s) (duration half) =
        applyArith .add (timestamp t) (duration quarter) ∧
      applyArith .sub (timestamp t) (duration back) =
        .ok (timestamp ⟨-86399, 250000000, by decide +kernel⟩) ∧
      applyRelation .lt (timestamp s) (timestamp u) = .ok true := by
  intro t back half quarter opposite s u
  have hs : applyArith .add (timestamp t) (duration back) = .ok (timestamp s) :=
    timestamp_add_eq_ok_iff.mpr (by decide +kernel)
  have hu : applyArith .add (timestamp t) (duration half) = .ok (timestamp u) :=
    timestamp_add_eq_ok_iff.mpr (by decide +kernel)
  have hsum : applyArith .add (duration back) (duration half) = .ok (duration quarter) :=
    duration_add_eq_ok_iff.mpr (by decide +kernel)
  have hopposite : applyUnary .neg (duration back) = .ok (duration opposite) :=
    duration_neg_eq_ok_iff.mpr (by decide +kernel)
  obtain ⟨hadd, hsub, hrelation⟩ := shifts_compose t back half
  refine ⟨hs, hu, hsum, hopposite, hadd s quarter hs hsum, ?_, ?_⟩
  · exact (hsub opposite hopposite _).mpr (timestamp_add_eq_ok_iff.mpr (by decide +kernel))
  · exact hrelation s u hs hu .lt (by decide)

end EmbeddedExpr.Eval
