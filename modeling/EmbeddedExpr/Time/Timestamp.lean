import EmbeddedExpr.Time.Calendar
import EmbeddedExpr.Time.Duration

/-!
# Timestamps

A timestamp counts seconds since 1970-01-01T00:00:00Z and nanoseconds within the
second.  Nanoseconds from `10^9` on are a leap second, which can only follow the
last second of a minute.  Timestamps are ordered by seconds, then nanoseconds;
arithmetic counts a leap second as the time it runs into.
-/

namespace EmbeddedExpr.Time

namespace Timestamp

def secondsPerDay : Int := 86400

/-- The first representable second, at the start of the year -262143. -/
def firstSecond : Int := (Date.mk (-262143) 1 1).toDays * secondsPerDay

/-- The last representable second, at the end of the year 262142. -/
def lastSecond : Int := (Date.mk 262142 12 31).toDays * secondsPerDay + (secondsPerDay - 1)

/-- The pairs of seconds and nanoseconds that are timestamps. -/
def Valid (seconds : Int) (nanos : Nat) : Prop :=
  firstSecond ≤ seconds ∧ seconds ≤ lastSecond ∧ nanos < 2000000000 ∧
    (1000000000 ≤ nanos → seconds % 60 = 59)

instance (seconds : Int) (nanos : Nat) : Decidable (Valid seconds nanos) :=
  inferInstanceAs (Decidable (_ ∧ _ ∧ _ ∧ _))

end Timestamp

/-- A point in time. -/
structure Timestamp where
  /-- Seconds since the epoch. -/
  seconds : Int
  /-- Nanoseconds within the second; from `10^9` on, within the leap second after it. -/
  nanos : Nat
  valid : Timestamp.Valid seconds nanos
  deriving DecidableEq

namespace Timestamp

/-- The timestamp with these parts, if there is one. -/
def ofParts? (seconds : Int) (nanos : Nat) : Option Timestamp :=
  if h : Valid seconds nanos then some ⟨seconds, nanos, h⟩ else none

/-- Nanoseconds since the epoch; a leap second overlaps the second after it. -/
def total (t : Timestamp) : Int :=
  t.seconds * nanosPerSecond + t.nanos

/-- The timestamp so many nanoseconds after the epoch, never a leap second. -/
def ofNanos? (total : Int) : Option Timestamp :=
  ofParts? (total / nanosPerSecond) (total % nanosPerSecond).toNat

def add? (t : Timestamp) (d : Duration) : Option Timestamp :=
  ofNanos? (t.total + d.total)

def sub? (t : Timestamp) (d : Duration) : Option Timestamp :=
  ofNanos? (t.total - d.total)

/-- The time from `u` to `t`. -/
def since? (t u : Timestamp) : Option Duration :=
  Duration.ofNanos? (t.total - u.total)

instance : Ord Timestamp :=
  ⟨fun t u => (compare t.seconds u.seconds).then (compare t.nanos u.nanos)⟩

end Timestamp

end EmbeddedExpr.Time
