import EmbeddedExpr.Number.Double
import EmbeddedExpr.Time.Timestamp

/-!
# Runtime values

A value has one of twelve kinds.  Integers are 64-bit words, signed or not;
doubles, timestamps and durations are exact.  Map keys are scalars, ordered
Booleans first, then signed integers, unsigned integers and texts; the entries of
a map stand in the order of their keys.
-/

namespace EmbeddedExpr

/-- A key of a map. -/
inductive MapKey
  | bool (b : Bool)
  | int (i : Int64)
  | uint (u : UInt64)
  | text (s : String)
  deriving DecidableEq

/-- A runtime value. -/
inductive Value
  | null
  | bool (b : Bool)
  | int (i : Int64)
  | uint (u : UInt64)
  | double (x : Double)
  | text (s : String)
  | bytes (bs : List UInt8)
  | list (items : List Value)
  /-- Entries in ascending order of their keys. -/
  | map (entries : List (MapKey × Value))
  | timestamp (t : Time.Timestamp)
  | duration (d : Time.Duration)
  /-- A function referred to by name; the arity is missing where several argument
  counts are accepted. -/
  | function (name : String) (arity : Option Nat)

instance : Inhabited Value := ⟨.null⟩

/-- The kinds of values. -/
inductive Kind
  | null | bool | int | uint | double | text | bytes | list | map | timestamp | duration | function
  deriving DecidableEq, Repr

/-- The name of a kind in the language. -/
def Kind.name : Kind → String
  | null => "null_type"
  | bool => "bool"
  | int => "int"
  | uint => "uint"
  | double => "double"
  | text => "string"
  | bytes => "bytes"
  | list => "list"
  | map => "map"
  | timestamp => "timestamp"
  | duration => "duration"
  | function => "function"

/-- The kind of a value. -/
def Value.kind : Value → Kind
  | null => .null
  | bool _ => .bool
  | int _ => .int
  | uint _ => .uint
  | double _ => .double
  | text _ => .text
  | bytes _ => .bytes
  | list _ => .list
  | map _ => .map
  | timestamp _ => .timestamp
  | duration _ => .duration
  | function _ _ => .function

/-! ### Order of bytes -/

/-- Lists of bytes in dictionary order. -/
def compareBytes : List UInt8 → List UInt8 → Ordering
  | [], [] => .eq
  | [], _ :: _ => .lt
  | _ :: _, [] => .gt
  | a :: as, b :: bs => (compare a b).then (compareBytes as bs)

/-- Texts in dictionary order of their characters, which is that of their bytes. -/
def compareChars : List Char → List Char → Ordering
  | [], [] => .eq
  | [], _ :: _ => .lt
  | _ :: _, [] => .gt
  | a :: as, b :: bs => (compare a.toNat b.toNat).then (compareChars as bs)

def compareText (a b : String) : Ordering :=
  compareChars a.toList b.toList

namespace MapKey

/-- The rank of the kind of a key. -/
def rank : MapKey → Nat
  | bool _ => 0
  | int _ => 1
  | uint _ => 2
  | text _ => 3

/-- The order of keys: by kind, then within the kind. -/
def cmp : MapKey → MapKey → Ordering
  | bool a, bool b => compare a b
  | int a, int b => compare a.toInt b.toInt
  | uint a, uint b => compare a.toNat b.toNat
  | text a, text b => compareText a b
  | a, b => compare a.rank b.rank

/-- The key that a value is, if it is a scalar that can be one. -/
def ofValue? : Value → Option MapKey
  | .bool b => some (bool b)
  | .int i => some (int i)
  | .uint u => some (uint u)
  | .text s => some (text s)
  | _ => none

def toValue : MapKey → Value
  | bool b => .bool b
  | int i => .int i
  | uint u => .uint u
  | text s => .text s

/-- The text of a key, without quotes or marks. -/
def display : MapKey → String
  | bool b => if b then "true" else "false"
  | int i => toString i.toInt
  | uint u => toString u.toNat
  | text s => s

end MapKey

end EmbeddedExpr
