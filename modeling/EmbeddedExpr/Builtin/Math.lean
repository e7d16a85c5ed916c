import EmbeddedExpr.Builtin.Conversion

/-!
# Mathematics

The absolute value and the extrema keep the kinds of their arguments; rounding,
roots and powers turn integers into doubles first.
-/

namespace EmbeddedExpr.Builtin

open Eval (Fault)
open Value (int uint double list)

/-- A number as a double. -/
def asDouble? : Value → Option Double
  | double x => some x
  | int i => some (Double.ofInt i.toInt)
  | uint u => some (Double.ofInt u.toNat)
  | _ => none

def abs : Body
  | [int i] => Eval.orOverflow "abs" ((Number.int64? i.toInt.natAbs).map int)
  | [uint u] => .ok (uint u)
  | [double x] => .ok (double x.magnitude)
  | args => mismatch "abs" args

/-- A function of one double. -/
def onDouble (name : String) (f : Double → Double) (args : List Value) : Except Fault Value :=
  match args with
  | [value] =>
    match asDouble? value with
    | some x => .ok (double (f x))
    | none => mismatch name args
  | _ => mismatch name args

def ceil : Body := onDouble "ceil" Float.ceil

def floor : Body := onDouble "floor" Float.floor

/-- Rounds a half away from zero. -/
def round : Body := onDouble "round" Float.round

def sqrt : Body := onDouble "sqrt" Float.sqrt

def pow : Body
  | [base, exponent] =>
    match asDouble? base, asDouble? exponent with
    | some x, some y => .ok (double (Float.pow x y))
    | _, _ => mismatch "pow" [base, exponent]
  | args => mismatch "pow" args

/-! ### Extrema -/

/-- The better of two numbers: the candidate only if it comes before or after the
best one so far as `keep` says.  `none` if the candidate is no number. -/
def better? (keep : Ordering) (best candidate : Value) : Option Value :=
  match Value.numericOrder candidate best with
  | .incomparable => none
  | .unordered => some best
  | .ordered o => some (if o = keep then candidate else best)

/-- Whether a value is a number. -/
def isNumeric (value : Value) : Bool :=
  match Value.numericOrder value value with
  | .incomparable => false
  | _ => true

/-- The extremum of numbers given one by one or as a single list. -/
def extremum (name : String) (keep : Ordering) (args : List Value) : Except Fault Value :=
  let candidates := match args with
    | [list items] => items
    | _ => args
  match candidates with
  | [] => refuse name "requires at least one value"
  | first :: rest =>
    if isNumeric first then
      match rest.foldlM (better? keep) first with
      | some best => .ok best
      | none => mismatch name args
    else mismatch name args

def min : Body := extremum "min" .lt

def max : Body := extremum "max" .gt

end EmbeddedExpr.Builtin
