import EmbeddedExpr.Text.Utf8
import EmbeddedExpr.Time.Timestamp

/-!
# Timestamps as RFC 3339 text

Writing always uses UTC, as many fraction digits as needed in groups of three,
and second 60 for a leap second; years outside 0 to 9999 carry a sign.  Reading
goes from left to right and stops at the first fault: the fields of the date,
the existence of the day, the fields of the time, the fraction, the range of the
time, the offset, and the end of the text.
-/

namespace EmbeddedExpr.Time.Rfc3339

/-! ### Writing -/

/-- A number with at least two digits. -/
def twoDigits (n : Nat) : List Char := Duration.paddedDigits 2 n

/-- The year, with a sign if it does not have exactly four digits. -/
def yearText (year : Int) : List Char :=
  if 0 ≤ year ∧ year ≤ 9999 then Duration.paddedDigits 4 year.toNat
  else (if year < 0 then '-' else '+') :: Duration.paddedDigits 4 year.natAbs

/-- The fraction of a second. -/
def fractionText (nanos : Nat) : List Char :=
  if nanos = 0 then []
  else if nanos % 1000000 = 0 then '.' :: Duration.paddedDigits 3 (nanos / 1000000)
  else if nanos % 1000 = 0 then '.' :: Duration.paddedDigits 6 (nanos / 1000)
  else '.' :: Duration.paddedDigits 9 nanos

/-- The text of a timestamp. -/
def write (t : Timestamp) : String :=
  let date := Date.ofDays (t.seconds / Timestamp.secondsPerDay)
  let clock := (t.seconds % Timestamp.secondsPerDay).toNat
  let leap := t.nanos / 1000000000
  String.ofList <|
    yearText date.year ++ '-' :: twoDigits date.month ++ '-' :: twoDigits date.day ++
      'T' :: twoDigits (clock / 3600) ++ ':' :: twoDigits (clock / 60 % 60) ++
      ':' :: twoDigits (clock % 60 + leap) ++ fractionText (t.nanos % 1000000000) ++ ['Z']

/-! ### Reading -/

/-- Why a text is no timestamp. -/
inductive Fault
  /-- The text ends too early. -/
  | tooShort
  /-- A character stands where another is needed. -/
  | invalid
  /-- A field has a value that does not occur. -/
  | outOfRange
  /-- Text is left after the offset. -/
  | trailing
  deriving DecidableEq, Repr

/-- The wording of a fault. -/
def Fault.message : Fault → String
  | tooShort => "premature end of input"
  | invalid => "input contains invalid characters"
  | outOfRange => "input is out of range"
  | trailing => "trailing input"

/-- A number of exactly `count` digits, continuing from `acc`. -/
def digits (count acc : Nat) (text : List Char) : Except Fault (Nat × List Char) :=
  match count, text with
  | 0, text => .ok (acc, text)
  | _ + 1, [] => .error .tooShort
  | count + 1, c :: rest =>
    match Number.digitValue? c with
    | some d => digits count (acc * 10 + d) rest
    | none => .error .invalid

/-- One of the given characters. -/
def oneOf (allowed : List Char) : List Char → Except Fault (List Char)
  | [] => .error .tooShort
  | c :: rest => if allowed.contains c then .ok rest else .error .invalid

/-- The nanoseconds of an optional fraction, of which nine digits count. -/
def fraction (text : List Char) : Except Fault (Nat × List Char) :=
  match text with
  | '.' :: rest =>
    let run := rest.takeWhile Number.isDigit
    if run.isEmpty then .error (if rest.isEmpty then .tooShort else .invalid)
    else
      let counted := run.take 9
      let value := (Number.ofDigits 10 Number.digitValue? 0 counted).getD 0
      .ok (value * Nat.pow 10 (9 - counted.length), rest.dropWhile Number.isDigit)
  | rest => .ok (0, rest)

/-- Two digits of an offset.  Fewer than two bytes are an early end, whatever they hold. -/
def offsetPair (text : List Char) : Except Fault (Nat × List Char) :=
  if Text.byteLength text < 2 then .error .tooShort else digits 2 0 text

/-- The offset from UTC in seconds. -/
def offset (text : List Char) : Except Fault (Int × List Char) :=
  match text with
  | [] => .error .tooShort
  | c :: rest =>
    if c = 'Z' ∨ c = 'z' then .ok (0, rest)
    else if c = '+' ∨ c = '-' ∨ c = '\u2212' then do
      let (hours, rest) ← offsetPair rest
      let rest ← oneOf [':'] rest
      let (minutes, rest) ← offsetPair rest
      if 60 ≤ minutes then .error .outOfRange
      else
        let size : Int := hours * 3600 + minutes * 60
        .ok (if c = '+' then size else -size, rest)
    else .error .invalid

/-- The date at the start of a text. -/
def date (text : List Char) : Except Fault (Date × List Char) := do
  let (year, rest) ← digits 4 0 text
  let rest ← oneOf ['-'] rest
  let (month, rest) ← digits 2 0 rest
  let rest ← oneOf ['-'] rest
  let (day, rest) ← digits 2 0 rest
  let date : Date := ⟨year, month, day⟩
  if date.exists? then .ok (date, rest) else .error .outOfRange

/-- The time of day at the start of a text, as seconds and nanoseconds.  Second 60
is the leap second after second 59. -/
def clock (text : List Char) : Except Fault (Nat × Nat × List Char) := do
  let (hour, rest) ← digits 2 0 text
  let rest ← oneOf [':'] rest
  let (minute, rest) ← digits 2 0 rest
  let rest ← oneOf [':'] rest
  let (second, rest) ← digits 2 0 rest
  let (nanos, rest) ← fraction rest
  if hour < 24 ∧ minute < 60 ∧ second ≤ 60 then
    if second = 60 then .ok (hour * 3600 + minute * 60 + 59, nanos + 1000000000, rest)
    else .ok (hour * 3600 + minute * 60 + second, nanos, rest)
  else .error .outOfRange

/-- The timestamp a text denotes. -/
def read (text : List Char) : Except Fault Timestamp := do
  if Text.byteLength text < 19 then throw .tooShort
  let (date, rest) ← date text
  let rest ← oneOf ['T', 't', ' '] rest
  let (seconds, nanos, rest) ← clock rest
  let (offset, rest) ← offset rest
  if !rest.isEmpty then throw .trailing
  if 86400 ≤ offset.natAbs then throw .outOfRange
  match Timestamp.ofParts? (date.toDays * Timestamp.secondsPerDay + seconds - offset) nanos with
  | some t => .ok t
  | none => .error .outOfRange

end EmbeddedExpr.Time.Rfc3339
