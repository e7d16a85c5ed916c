import EmbeddedExpr.Eval.Operators
import EmbeddedExpr.Number.Reading
import EmbeddedExpr.Text.Blank
import EmbeddedExpr.Time.Rfc3339

/-!
# Conversions between kinds

Doubles become integers by truncation, texts by reading them without the white
space around them; what does not fit or does not read is refused.
-/

namespace EmbeddedExpr.Builtin

open Eval (Fault)
open Value (int uint double text bytes timestamp duration)

/-- Functions on evaluated arguments. -/
abbrev Body := List Value → Except Fault Value

/-- The fault of a function that has no overload for its arguments. -/
def mismatch (function : String) (args : List Value) : Except Fault Value :=
  .error (.noOverloadFor function args)

/-- The fault of a function that refuses the value of an argument. -/
def refuse (function message : String) : Except Fault Value :=
  .error (.invalidArgument function message)

/-- A result that is present, or a refusal. -/
def orRefuse (function message : String) : Option Value → Except Fault Value
  | some value => .ok value
  | none => refuse function message

/-- The refusal of a text that does not read as a kind. -/
def unreadable (s kind : String) : String :=
  "cannot parse '" ++ s ++ "' as " ++ kind

/-! ### Numbers -/

def toInt : Body
  | [int i] => .ok (int i)
  | [uint u] => orRefuse "int" "value out of int range" ((Number.int64? u.toNat).map int)
  | [double x] =>
    orRefuse "int" "value out of int range"
      ((x.truncateWithin? (-0x8000000000000000) (0x8000000000000000)).map fun n => int (Int64.ofInt n))
  | [text s] =>
    orRefuse "int" (unreadable s "int")
      ((Number.readInt? (-0x8000000000000000) (0x8000000000000000) (Text.trim s.toList)).map fun n => int (Int64.ofInt n))
  | [.bool b] => .ok (int (if b then 1 else 0))
  | [timestamp t] => .ok (int (Int64.ofInt t.seconds))
  | [duration d] => .ok (int (Int64.ofInt d.seconds))
  | args => mismatch "int" args

def toUint : Body
  | [uint u] => .ok (uint u)
  | [int i] => orRefuse "uint" "value out of uint range" ((Number.uint64? i.toInt).map uint)
  | [double x] =>
    orRefuse "uint" "value out of uint range"
      ((x.truncateWithin? 0 (0x10000000000000000)).map fun n => uint (UInt64.ofNat n.toNat))
  | [text s] =>
    orRefuse "uint" (unreadable s "uint")
      ((Number.readInt? 0 (0x10000000000000000) (Text.trim s.toList)).map fun n => uint (UInt64.ofNat n.toNat))
  | [.bool b] => .ok (uint (if b then 1 else 0))
  | args => mismatch "uint" args

def toDouble : Body
  | [double x] => .ok (double x)
  | [int i] => .ok (double (Double.ofInt i.toInt))
  | [uint u] => .ok (double (Double.ofInt u.toNat))
  | [text s] =>
    orRefuse "double" (unreadable s "double")
      ((Number.readDouble? (Text.trim s.toList)).map double)
  | args => mismatch "double" args

/-! ### Texts, bytes and Booleans -/

def toText : Body
  | [text s] => .ok (text s)
  | [int i] => .ok (text (toString i.toInt))
  | [uint u] => .ok (text (toString u.toNat))
  | [double x] => .ok (text (Number.doubleText x))
  | [.bool b] => .ok (text (if b then "true" else "false"))
  | [bytes bs] => orRefuse "string" "bytes are not valid UTF-8" ((Text.ofUtf8? bs).map text)
  | [timestamp t] => .ok (text (Time.Rfc3339.write t))
  | [duration d] => .ok (text d.text)
  | [.null] => .ok (text "null")
  | args => mismatch "string" args

def toBytes : Body
  | [bytes bs] => .ok (bytes bs)
  | [text s] => .ok (bytes (Text.utf8 s.toList))
  | args => mismatch "bytes" args

/-- The spellings of a Boolean. -/
def readBool? (s : String) : Option Bool :=
  if ["true", "TRUE", "True", "t", "1"].contains s then some true
  else if ["false", "FALSE", "False", "f", "0"].contains s then some false
  else none

def toBool : Body
  | [.bool b] => .ok (.bool b)
  | [text s] => orRefuse "bool" (unreadable s "bool") ((readBool? s).map Value.bool)
  | args => mismatch "bool" args

/-- Its argument, as it is. -/
def identity : Body
  | [value] => .ok value
  | args => mismatch "dyn" args

/-- The name of the kind of its argument. -/
def kindOf : Body
  | [value] => .ok (text value.kind.name)
  | args => mismatch "type" args

/-! ### Time -/

/-- The fault of a text that is no timestamp. -/
def timestampMessage (s : String) (fault : Time.Rfc3339.Fault) : String :=
  "invalid timestamp '" ++ s ++ "': " ++ fault.message

/-- The fault of a text that is no duration. -/
def durationMessage (s : String) : String :=
  "invalid duration '" ++ s ++ "'"

def toTimestamp : Body
  | [timestamp t] => .ok (timestamp t)
  | [text s] =>
    match Time.Rfc3339.read s.toList with
    | .ok t => .ok (timestamp t)
    | .error fault => refuse "timestamp" (timestampMessage s fault)
  | [int i] =>
    orRefuse "timestamp" "seconds out of range" ((Time.Timestamp.ofParts? i.toInt 0).map timestamp)
  | args => mismatch "timestamp" args

def toDuration : Body
  | [duration d] => .ok (duration d)
  | [text s] =>
    orRefuse "duration" (durationMessage s) ((Time.Duration.ofText? s.toList).map duration)
  | [int i] => .ok (duration (Time.Duration.ofSeconds i))
  | args => mismatch "duration" args

end EmbeddedExpr.Builtin
