import EmbeddedExpr.Host.Value
import EmbeddedExpr.Number.Layout
import EmbeddedExpr.Number.Reading
import EmbeddedExpr.Number.Word
import EmbeddedExpr.Text.Blank

/-!
# Between host values and runtime values

Decoding settles the kind of a number: a double without a fraction that fits a
signed word is an integer, and a record that pins a kind is that kind.  Records
of a duration become durations, all other records maps with text keys.  Encoding
writes integers as big integers and a map as the record of the texts of its
keys; of several keys with one text the last in the order of keys stays.
-/

namespace EmbeddedExpr

open HostValue (Pun)

/-- Why a host value is no runtime value. -/
inductive CodecError
  /-- A record that pins a kind has other fields too. -/
  | punFields (pun : Pun) (count : Nat)
  | punNotFinite (pun : Pun) (payload : Double)
  | punNotNumeric (pun : Pun) (payload : String)
  | punKind (pun : Pun) (payload : String)
  /-- The payload does not fit the pinned kind. -/
  | punRange (pun : Pun) (payload : String)
  | functionValue
  | bigintRange (n : Int)
  | durationRange (seconds nanos : Int)
  deriving DecidableEq

namespace CodecError

/-- The classes of errors. -/
inductive Category
  | invalidTypePun | unsupported | outOfRange
  deriving DecidableEq, Repr

def category : CodecError → Category
  | punFields _ _ | punNotFinite _ _ | punNotNumeric _ _ | punKind _ _ | punRange _ _ =>
    .invalidTypePun
  | functionValue => .unsupported
  | bigintRange _ | durationRange _ _ => .outOfRange

/-- The name of the kind that a pun pins. -/
def kindName : Pun → String
  | .int => "int"
  | .uint => "uint"
  | .double => "double"

/-- What is wrong, without the class of the error. -/
def detail : CodecError → String
  | punFields pun count =>
    "a " ++ pun.field ++ " record must have exactly one field, found " ++ toString count
  | punNotFinite pun payload =>
    pun.field ++ " payload " ++ Number.doubleText payload ++ " is not finite"
  | punNotNumeric pun payload => pun.field ++ " payload '" ++ payload ++ "' is not a number"
  | punKind pun payload =>
    pun.field ++ " payload must be a number, bigint or numeric string, found " ++ payload
  | punRange pun payload =>
    pun.field ++ " payload " ++ payload ++ " does not fit in " ++ kindName pun
  | functionValue => "functions must be bound with bind_func, not passed as values"
  | bigintRange n => toString n ++ " does not fit in int"
  | durationRange seconds nanos =>
    "duration \x7bsec: " ++ toString seconds ++ ", nsec: " ++ toString nanos ++ "\x7d"

/-- The wording of an error. -/
def message (e : CodecError) : String :=
  match e.category with
  | .invalidTypePun => "invalid type pun: " ++ e.detail
  | .unsupported => "unsupported host value: " ++ e.detail
  | .outOfRange => "value out of range: " ++ e.detail

end CodecError

namespace HostValue

/-! ### Decoding -/

/-- The runtime value of a number. -/
def decodeNumber (x : Double) : Value :=
  match if x.isIntegral then Number.int64? x.truncate else none with
  | some i => .int i
  | none => .double x

/-- The number that the payload of a pun states. -/
inductive Payload
  | whole (n : Int)
  | real (x : Double)

/-- The payload of a pun: a big integer, a finite number or the text of one. -/
def payload (pun : Pun) : HostValue → Except CodecError Payload
  | bigint n => .ok (.whole n)
  | number x => if x.isFinite then .ok (.real x) else .error (.punNotFinite pun x)
  | text s =>
    let trimmed := Text.trim s.toList
    match Number.readInt? Number.leastInt128 Number.boundInt128 trimmed with
    | some n => .ok (.whole n)
    | none =>
      match Number.readDouble? trimmed with
      | some x => if x.isFinite then .ok (.real x) else .error (.punNotNumeric pun s)
      | none => .error (.punNotNumeric pun s)
  | other => .error (.punKind pun other.kindName)

/-- The integer that a payload states, truncated, if it lies in `lo ≤ n < hi`. -/
def wholePayload (pun : Pun) (lo hi : Int) (value : HostValue) : Except CodecError Int :=
  match payload pun value with
  | .error e => .error e
  | .ok (.whole n) =>
    if lo ≤ n ∧ n < hi then .ok n else .error (.punRange pun (toString n))
  | .ok (.real x) =>
    match x.truncateWithin? lo hi with
    | some n => .ok n
    | none => .error (.punRange pun (Number.doubleText x))

/-- The value of a record that pins a kind. -/
def decodePun (pun : Pun) (value : HostValue) : Except CodecError Value :=
  match pun with
  | .int => (wholePayload .int (-0x8000000000000000) (0x8000000000000000) value).map fun n => .int (Int64.ofInt n)
  | .uint => (wholePayload .uint 0 (0x10000000000000000) value).map fun n => .uint (UInt64.ofNat n.toNat)
  | .double =>
    match payload .double value with
    | .error e => .error e
    | .ok (.whole n) => .ok (.double (Double.ofInt n))
    | .ok (.real x) => .ok (.double x)

/-- The kind that a record pins, with the payload. -/
def pun? (fields : List (String × HostValue)) : Option (Pun × HostValue) :=
  [Pun.int, Pun.uint, Pun.double].findSome? fun pun =>
    (Entries.get? fields pun.field).map fun value => (pun, value)

/-- The bound below which a number counts as a whole number of a duration. -/
def wholeBound : Int := (Double.ofInt 1000000000000000000000000000000).truncate

/-- The whole number that a member of a duration record states. -/
def whole? : HostValue → Option Int
  | bigint n => some n
  | number x => if x.isIntegral ∧ x.truncate.natAbs < wholeBound then some x.truncate else none
  | _ => none

/-- The seconds and nanoseconds of a record with just these two fields. -/
def durationParts? (fields : List (String × HostValue)) : Option (Int × Int) :=
  if fields.length = 2 then do
    let seconds ← Entries.get? fields secondsField
    let nanos ← Entries.get? fields nanosField
    let s ← whole? seconds
    let n ← whole? nanos
    some (s, n)
  else none

/-- The duration of a record.  The seconds alone have to fit 128 bits when counted in
nanoseconds, even where the nanoseconds of the record would make up for them. -/
def duration? (seconds nanos : Int) : Option Time.Duration :=
  (Number.int128? (seconds * Time.nanosPerSecond)).bind fun whole =>
    Time.Duration.ofNanos? (whole + nanos)

mutual

/-- The runtime value of a host value. -/
def decode : HostValue → Except CodecError Value
  | null => .ok .null
  | bool b => .ok (.bool b)
  | number x => .ok (decodeNumber x)
  | bigint n =>
    match Number.int64? n with
    | some i => .ok (.int i)
    | none => .error (.bigintRange n)
  | text s => .ok (.text s)
  | bytes bs => .ok (.bytes bs)
  | date t => .ok (.timestamp t)
  | array items => (decodeItems items).map Value.list
  | function _ => .error .functionValue
  | record fields =>
    match pun? fields with
    | some (pun, value) =>
      if fields.length = 1 then decodePun pun value
      else .error (.punFields pun fields.length)
    | none =>
      match durationParts? fields with
      | some (seconds, nanos) =>
        match duration? seconds nanos with
        | some d => .ok (.duration d)
        | none => .error (.durationRange seconds nanos)
      | none => (decodeFields fields).map Value.map

def decodeItems : List HostValue → Except CodecError (List Value)
  | [] => .ok []
  | item :: rest =>
    match decode item with
    | .error e => .error e
    | .ok value => (decodeItems rest).map (value :: ·)

def decodeFields : List (String × HostValue) → Except CodecError (List (MapKey × Value))
  | [] => .ok []
  | (name, item) :: rest =>
    match decode item with
    | .error e => .error e
    | .ok value => (decodeFields rest).map ((.text name, value) :: ·)

end

end HostValue

namespace Value

/-! ### Encoding -/

mutual

/-- The host value of a runtime value. -/
def encode : Value → HostValue
  | null => .null
  | bool b => .bool b
  | int i => .bigint i.toInt
  | uint u => .bigint u.toNat
  | double x => .number x
  | text s => .text s
  | bytes bs => .bytes bs
  | list items => .array (encodeItems items)
  | map entries => .ofFields (encodeEntries entries)
  | timestamp t => .date t
  | duration d => .ofDuration d.seconds d.nanos
  | function name arity =>
    .record [("arity", .bigint (match arity with | some n => n | none => -1)),
      ("function", .text name)]

def encodeItems : List Value → List HostValue
  | [] => []
  | item :: rest => encode item :: encodeItems rest

def encodeEntries : List (MapKey × Value) → List (String × HostValue)
  | [] => []
  | (key, value) :: rest => (key.display, encode value) :: encodeEntries rest

end

end Value

end EmbeddedExpr
