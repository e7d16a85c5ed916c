import EmbeddedExpr.Value.Entries

/-!
# Values of the embedding application

The application has one number type, integers of any size, and records whose
fields stand in the order of their names.  Some records have a meaning of their
own: a single field that names a numeric kind pins that kind, and seconds with
nanoseconds are a duration.
-/

namespace EmbeddedExpr

/-- A function of the application as a value: the number of arguments it takes and
which function it is. -/
structure FunctionHandle where
  arity : Nat
  identity : Nat
  deriving DecidableEq, Repr

/-- A value of the embedding application. -/
inductive HostValue
  | null
  | bool (b : Bool)
  | number (x : Double)
  | bigint (n : Int)
  | text (s : String)
  | bytes (bs : List UInt8)
  | array (items : List HostValue)
  /-- Fields in ascending order of their names. -/
  | record (fields : List (String × HostValue))
  | date (t : Time.Timestamp)
  | function (f : FunctionHandle)

instance : Inhabited HostValue := ⟨.null⟩

namespace HostValue

/-- The name of the kind of a value. -/
def kindName : HostValue → String
  | null => "null"
  | bool _ => "boolean"
  | number _ => "number"
  | bigint _ => "bigint"
  | text _ => "string"
  | bytes _ => "bytes"
  | array _ => "array"
  | record _ => "record"
  | date _ => "date"
  | function _ => "function"

/-- A record from fields in any order; the last of several with one name stays. -/
def ofFields (fields : List (String × HostValue)) : HostValue :=
  record (Entries.ofList compareText fields)

def fields? : HostValue → Option (List (String × HostValue))
  | record fields => some fields
  | _ => none

def items? : HostValue → Option (List HostValue)
  | array items => some items
  | _ => none

/-- A field of a record. -/
def get? (value : HostValue) (name : String) : Option HostValue :=
  value.fields?.bind fun fields => Entries.get? fields name

/-! ### Records with a meaning -/

/-- The kinds that a record can pin. -/
inductive Pun
  | int | uint | double
  deriving DecidableEq, Repr

/-- The field name that pins a kind. -/
def Pun.field : Pun → String
  | int => "cel_int"
  | uint => "cel_uint"
  | double => "cel_float"

/-- The field of the seconds of a duration. -/
def secondsField : String := "sec"

/-- The field of the nanoseconds of a duration. -/
def nanosField : String := "nsec"

/-- A record that decodes to a signed integer. -/
def ofInt64 (i : Int64) : HostValue := record [(Pun.int.field, bigint i.toInt)]

/-- A record that decodes to an unsigned integer. -/
def ofUInt64 (u : UInt64) : HostValue := record [(Pun.uint.field, bigint u.toNat)]

/-- A record that decodes to a double. -/
def ofDouble (x : Double) : HostValue := record [(Pun.double.field, number x)]

/-- A record that decodes to a duration. -/
def ofDuration (seconds nanos : Int) : HostValue :=
  record [(nanosField, bigint nanos), (secondsField, bigint seconds)]

end HostValue

end EmbeddedExpr
