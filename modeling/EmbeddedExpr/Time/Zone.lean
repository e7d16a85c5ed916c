import EmbeddedExpr.Time.Timestamp

/-!
# Time zones

A zone is `UTC`, `Z` or `z`, or a sign and two fields of two characters with a
colon between them.  Each field is read as an integer, so it may carry a sign of
its own; the offset must stay below a day.  The fields of a local time are those
of the timestamp moved by the offset.
-/

namespace EmbeddedExpr.Time

/-- A fixed offset from UTC, less than a day to either side. -/
structure Zone where
  /-- Seconds to the east. -/
  offset : Int
  inDay : -86400 < offset ∧ offset < 86400
  deriving DecidableEq

namespace Zone

def utc : Zone := ⟨0, by decide⟩

/-- A field of two characters. -/
def field? (text : List Char) : Option Int :=
  if text.length = 2 then Number.readInt? (-0x80000000) (0x80000000) text else none

/-- The zone with an offset in hours and minutes. -/
def ofOffset? (sign hours minutes : Int) : Option Zone :=
  let offset := sign * (hours * 3600 + minutes * 60)
  if h : minutes < 60 ∧ -86400 < offset ∧ offset < 86400 then some ⟨offset, h.2⟩ else none

/-- The zone a text names. -/
def ofText? (text : List Char) : Option Zone :=
  if text = ['U', 'T', 'C'] ∨ text = ['Z'] ∨ text = ['z'] then some utc
  else
    match text with
    | [] => none
    | mark :: fields =>
      if mark = '+' ∨ mark = '-' then
        let hours := fields.takeWhile (· != ':')
        match fields.dropWhile (· != ':') with
        | [] => none
        | _ :: minutes => do
          let h ← field? hours
          let m ← field? minutes
          ofOffset? (if mark = '+' then 1 else -1) h m
      else none

end Zone

/-- A timestamp as the clocks of a zone show it. -/
structure LocalTime where
  /-- Days since 1970-01-01. -/
  days : Int
  /-- Seconds since midnight. -/
  clock : Int
  nanos : Nat

namespace LocalTime

def ofTimestamp (t : Timestamp) (zone : Zone) : LocalTime :=
  let seconds := t.seconds + zone.offset
  ⟨seconds / Timestamp.secondsPerDay, seconds % Timestamp.secondsPerDay, t.nanos⟩

def date (t : LocalTime) : Date := Date.ofDays t.days

def hour (t : LocalTime) : Int := t.clock / 3600

def minute (t : LocalTime) : Int := t.clock / 60 % 60

def second (t : LocalTime) : Int := t.clock % 60

/-- Whole milliseconds of the nanoseconds; a leap second counts from 1000. -/
def millisecond (t : LocalTime) : Int := t.nanos / 1000000

end LocalTime

end EmbeddedExpr.Time
