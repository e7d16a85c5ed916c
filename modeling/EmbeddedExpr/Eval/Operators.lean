import EmbeddedExpr.Eval.Fault
import EmbeddedExpr.Syntax.Operator
import EmbeddedExpr.Value.Literal
import EmbeddedExpr.Value.Relation

/-!
# Operators on values

Arithmetic never mixes numeric kinds and reports every result that does not fit
its kind; doubles follow IEEE 754.  Equality accepts all operands, the order
relations those with a common order, and every relation with a NaN but `!=` is
false.
-/

namespace EmbeddedExpr.Eval

open Value (int uint double text bytes list map timestamp duration)

/-- A result that is present, or the overflow of an operation. -/
def orOverflow (operation : String) : Option Value → Except Fault Value
  | some value => .ok value
  | none => .error (.overflow operation)

/-- A unary operator. -/
def applyUnary (op : UnaryOp) (operand : Value) : Except Fault Value :=
  match op, operand with
  | .neg, int i => orOverflow "negation" ((Number.int64? (-i.toInt)).map int)
  | .neg, double x => .ok (double (-x))
  | .neg, duration d => orOverflow "negation" (d.neg?.map duration)
  | .not, .bool b => .ok (.bool !b)
  | op, operand => .error (.noOverloadFor op.symbol [operand])

/-- The exact result of an arithmetic operator on integers, or the fault of a zero
divisor.  Division truncates and the remainder has the sign of the dividend. -/
def integerResult (op : ArithOp) (a b : Int) : Except Fault Int :=
  match op with
  | .add => .ok (a + b)
  | .sub => .ok (a - b)
  | .mul => .ok (a * b)
  | .div => if b = 0 then .error .divisionByZero else .ok (a.tdiv b)
  | .rem => if b = 0 then .error .moduloByZero else .ok (a.tmod b)

/-- Arithmetic on signed integers.  The remainder by a divisor whose quotient does
not fit overflows with it. -/
def signedArith (op : ArithOp) (a b : Int64) : Except Fault Value :=
  match integerResult op a.toInt b.toInt with
  | .error fault => .error fault
  | .ok result =>
    if op = .rem ∧ Number.int64? (a.toInt.tdiv b.toInt) = none then .error (.overflow op.noun)
    else orOverflow op.noun ((Number.int64? result).map int)

/-- Arithmetic on unsigned integers. -/
def unsignedArith (op : ArithOp) (a b : UInt64) : Except Fault Value :=
  match integerResult op a.toNat b.toNat with
  | .error fault => .error fault
  | .ok result => orOverflow op.noun ((Number.uint64? result).map uint)

/-- A binary arithmetic operator. -/
def applyArith (op : ArithOp) (left right : Value) : Except Fault Value :=
  match op, left, right with
  | op, int a, int b => signedArith op a b
  | op, uint a, uint b => unsignedArith op a b
  | .add, double a, double b => .ok (double (a + b))
  | .sub, double a, double b => .ok (double (a - b))
  | .mul, double a, double b => .ok (double (a * b))
  | .div, double a, double b => .ok (double (a / b))
  | .add, text a, text b => .ok (text (a ++ b))
  | .add, bytes a, bytes b => .ok (bytes (a ++ b))
  | .add, list a, list b => .ok (list (a ++ b))
  | .add, timestamp t, duration d => orOverflow "addition" ((t.add? d).map timestamp)
  | .add, duration d, timestamp t => orOverflow "addition" ((t.add? d).map timestamp)
  | .sub, timestamp t, duration d => orOverflow "subtraction" ((t.sub? d).map timestamp)
  | .sub, timestamp t, timestamp u => orOverflow "subtraction" ((t.since? u).map duration)
  | .add, duration a, duration b => orOverflow "addition" ((a.add? b).map duration)
  | .sub, duration a, duration b => orOverflow "subtraction" ((a.sub? b).map duration)
  | op, left, right => .error (.noOverloadFor op.symbol [left, right])

/-- Whether an order satisfies a relation. -/
def satisfies (op : RelationOp) (o : Ordering) : Bool :=
  match op with
  | .lt => o == .lt
  | .le => o != .gt
  | .gt => o == .gt
  | .ge => o != .lt
  | .eq => o == .eq
  | .ne => o != .eq
  | .mem => false

/-- An order relation. -/
def applyOrder (op : RelationOp) (left right : Value) : Except Fault Bool :=
  match Value.order left right with
  | .incomparable => .error (.noOverloadFor op.symbol [left, right])
  | .unordered => .ok false
  | .ordered o => .ok (satisfies op o)

/-- A relation. -/
def applyRelation (op : RelationOp) (left right : Value) : Except Fault Bool :=
  match op with
  | .eq => .ok (Value.equals left right)
  | .ne => .ok !(Value.equals left right)
  | .mem =>
    match Value.contains? right left with
    | some b => .ok b
    | none => .error (.noOverloadFor op.symbol [left, right])
  | .lt => applyOrder .lt left right
  | .le => applyOrder .le left right
  | .gt => applyOrder .gt left right
  | .ge => applyOrder .ge left right

/-- The fault of an index that no overload accepts. -/
def indexMismatch (target index : Value) : Fault :=
  .noOverloadFor "_[_]" [target, index]

/-- The position that an index names in a list: any number without a fraction, if
it is not negative. -/
def listPosition? (index : Value) : Option (Option Nat) :=
  match index with
  | int i => some (if 0 ≤ i.toInt then some i.toInt.toNat else none)
  | uint u => some (some u.toNat)
  | double x =>
    if x.isIntegral && decide (0 ≤ x.scaled) then some (some x.truncate.toNat) else none
  | _ => none

/-- `target[index]` on lists and maps. -/
def applyIndex (target index : Value) : Except Fault Value :=
  match target with
  | list items =>
    match listPosition? index with
    | none => .error (indexMismatch target index)
    | some position =>
      match position.bind fun p => items[p]? with
      | some value => .ok value
      | none => .error (.indexOutOfBounds index.display items.length)
  | map entries =>
    match MapKey.ofValue? index, index with
    | none, double _ | some _, _ =>
      match Value.lookup entries index with
      | some value => .ok value
      | none => .error (.noSuchKey index.display)
    | none, _ => .error (indexMismatch target index)
  | _ => .error (indexMismatch target index)

/-- `target.name` on maps. -/
def applyField (target : Value) (name : String) : Except Fault Value :=
  match target with
  | map entries =>
    match Entries.get? entries (.text name) with
    | some value => .ok value
    | none => .error (.noSuchKey name)
  | _ => .error (.noOverloadFor ("." ++ name) [target])

/-- Whether a map has a field. -/
def applyHas (target : Value) (name : String) : Except Fault Value :=
  match target with
  | map entries => .ok (.bool (Entries.get? entries (MapKey.text name)).isSome)
  | _ => .error (.noOverloadFor "has" [target])

end EmbeddedExpr.Eval
