import EmbeddedExpr.Number.Layout
import EmbeddedExpr.Text.Escape
import EmbeddedExpr.Time.Rfc3339
import EmbeddedExpr.Value.Basic

/-!
# Values as literals

The text of a value in the syntax of the language.  Kinds without a literal are
written as the call that makes them.
-/

namespace EmbeddedExpr.Value

/-- The text of a double.  It always reads as a double. -/
def doubleLiteral (x : Double) : String :=
  if x.isNaN then "double(\"NaN\")"
  else if x.isInfinite then
    if x.isNegative then "double(\"-Infinity\")" else "double(\"Infinity\")"
  else Number.Layout.literal.write x

/-- The text of a key as the value it is. -/
def displayKey : MapKey → String
  | .bool b => if b then "true" else "false"
  | .int i => toString i.toInt
  | .uint u => toString u.toNat ++ "u"
  | .text s => Text.escapeText s

mutual

/-- The text of a value. -/
def display : Value → String
  | null => "null"
  | bool b => if b then "true" else "false"
  | int i => toString i.toInt
  | uint u => toString u.toNat ++ "u"
  | double x => doubleLiteral x
  | text s => Text.escapeText s
  | bytes bs => "b\"" ++ String.ofList (Text.escapeBytes bs) ++ "\""
  | list items => "[" ++ displayItems items ++ "]"
  | map entries => "\x7b" ++ displayEntries entries ++ "\x7d"
  | timestamp t => "timestamp(\"" ++ Time.Rfc3339.write t ++ "\")"
  | duration d => "duration(\"" ++ d.text ++ "\")"
  | function name _ => name

/-- The texts of values, separated by commas. -/
def displayItems : List Value → String
  | [] => ""
  | [item] => display item
  | item :: rest => display item ++ ", " ++ displayItems rest

/-- The texts of entries, separated by commas. -/
def displayEntries : List (MapKey × Value) → String
  | [] => ""
  | [(key, value)] => displayKey key ++ ": " ++ display value
  | (key, value) :: rest => displayKey key ++ ": " ++ display value ++ ", " ++ displayEntries rest

end

end EmbeddedExpr.Value
