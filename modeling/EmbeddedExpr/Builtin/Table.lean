import EmbeddedExpr.Builtin.Clock
import EmbeddedExpr.Builtin.Collection
import EmbeddedExpr.Builtin.Math

/-!
# The table of builtins

Every function that an expression can call without a binding.  The receiver of a
member call is the first argument.
-/

namespace EmbeddedExpr

/-- A builtin function. -/
structure Builtin where
  name : String
  arity : Arity
  body : Builtin.Body

namespace Builtin

open Arity (exactly)

/-- The greatest number of arguments of a function that takes any number. -/
def unbounded : Nat := 0x10000000000000000 - 1

/-- All builtins. -/
def table : List Builtin := [
  ⟨"int", exactly 1, toInt⟩,
  ⟨"uint", exactly 1, toUint⟩,
  ⟨"double", exactly 1, toDouble⟩,
  ⟨"string", exactly 1, toText⟩,
  ⟨"bytes", exactly 1, toBytes⟩,
  ⟨"bool", exactly 1, toBool⟩,
  ⟨"dyn", exactly 1, identity⟩,
  ⟨"type", exactly 1, kindOf⟩,
  ⟨"timestamp", exactly 1, toTimestamp⟩,
  ⟨"duration", exactly 1, toDuration⟩,
  ⟨"size", exactly 1, size⟩,
  ⟨"contains", exactly 2, containsText⟩,
  ⟨"startsWith", exactly 2, startsWith⟩,
  ⟨"endsWith", exactly 2, endsWith⟩,
  ⟨"toLower", exactly 1, toLower⟩,
  ⟨"toUpper", exactly 1, toUpper⟩,
  ⟨"trim", exactly 1, trimText⟩,
  ⟨"split", exactly 2, splitText⟩,
  ⟨"abs", exactly 1, abs⟩,
  ⟨"ceil", exactly 1, ceil⟩,
  ⟨"floor", exactly 1, floor⟩,
  ⟨"round", exactly 1, round⟩,
  ⟨"sqrt", exactly 1, sqrt⟩,
  ⟨"pow", exactly 2, pow⟩,
  ⟨"min", ⟨1, unbounded⟩, min⟩,
  ⟨"max", ⟨1, unbounded⟩, max⟩,
  ⟨"getFullYear", ⟨1, 2⟩, getFullYear⟩,
  ⟨"getMonth", ⟨1, 2⟩, getMonth⟩,
  ⟨"getDayOfMonth", ⟨1, 2⟩, getDayOfMonth⟩,
  ⟨"getDate", ⟨1, 2⟩, getDate⟩,
  ⟨"getDayOfWeek", ⟨1, 2⟩, getDayOfWeek⟩,
  ⟨"getDayOfYear", ⟨1, 2⟩, getDayOfYear⟩,
  ⟨"getHours", ⟨1, 2⟩, getHours⟩,
  ⟨"getMinutes", ⟨1, 2⟩, getMinutes⟩,
  ⟨"getSeconds", ⟨1, 2⟩, getSeconds⟩,
  ⟨"getMilliseconds", ⟨1, 2⟩, getMilliseconds⟩]

/-- The builtin with a name. -/
def find? (name : String) : Option Builtin :=
  table.find? fun b => b.name == name

end Builtin

end EmbeddedExpr
