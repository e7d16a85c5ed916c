import EmbeddedExpr.Builtin.Conversion
import EmbeddedExpr.Time.Zone

/-!
# Fields of timestamps and durations

The fields of a timestamp are those of its local time in a zone, UTC unless
another is named.  Months and days of the month are counted from zero, except by
`getDate`; Sunday is day 0 of the week.  On a duration alone the clock functions
give the whole duration in their unit, `getMilliseconds` the part below a second.
-/

namespace EmbeddedExpr.Builtin

open Eval (Fault)
open Time (Duration LocalTime Zone)
open Value (int text timestamp duration)

/-- The timestamp argument in the zone of the second argument. -/
def localTime (name : String) (args : List Value) : Except Fault LocalTime :=
  match args with
  | [timestamp t] => .ok (LocalTime.ofTimestamp t Zone.utc)
  | [timestamp t, text zone] =>
    match Zone.ofText? zone.toList with
    | some z => .ok (LocalTime.ofTimestamp t z)
    | none => .error (.invalidArgument name ("unknown time zone '" ++ (text zone).display ++ "'"))
  | _ => .error (.noOverloadFor name args)

/-- A field of a timestamp. -/
def calendarField (name : String) (field : LocalTime → Int) (args : List Value) :
    Except Fault Value :=
  (localTime name args).map fun t => int (Int64.ofInt (field t))

/-- A field of a timestamp, or a measure of a duration. -/
def clockField (name : String) (field : LocalTime → Int) (measure : Duration → Int)
    (args : List Value) : Except Fault Value :=
  match args with
  | [duration d] => .ok (int (Int64.ofInt (measure d)))
  | _ => calendarField name field args

def getFullYear : Body := calendarField "getFullYear" fun t => t.date.year

def getMonth : Body := calendarField "getMonth" fun t => t.date.month - 1

def getDayOfMonth : Body := calendarField "getDayOfMonth" fun t => t.date.day - 1

def getDate : Body := calendarField "getDate" fun t => t.date.day

def getDayOfWeek : Body := calendarField "getDayOfWeek" fun t => Time.Date.weekday t.days

def getDayOfYear : Body := calendarField "getDayOfYear" fun t => t.date.dayOfYear

def getHours : Body := clockField "getHours" LocalTime.hour Duration.hours

def getMinutes : Body := clockField "getMinutes" LocalTime.minute Duration.minutes

def getSeconds : Body := clockField "getSeconds" LocalTime.second Duration.seconds

def getMilliseconds : Body :=
  clockField "getMilliseconds" LocalTime.millisecond fun d => d.nanos.tdiv 1000000

end EmbeddedExpr.Builtin
