import EmbeddedExpr.Value.Basic

/-!
# Causes of runtime errors

An operator, a function or the evaluator gives up for one of these causes.  The
wording of all messages is here.
-/

namespace EmbeddedExpr

/-- The argument counts that a function accepts, both ends included. -/
structure Arity where
  least : Nat
  most : Nat
  deriving DecidableEq, Repr

namespace Arity

def exactly (n : Nat) : Arity := ⟨n, n⟩

/-- The arity when it is a single number. -/
def fixed? (a : Arity) : Option Nat :=
  if a.least = a.most then some a.least else none

def accepts (a : Arity) (count : Nat) : Bool :=
  decide (a.least ≤ count ∧ count ≤ a.most)

/-- The arity in words. -/
def description (a : Arity) : String :=
  match a.fixed? with
  | some n => toString n
  | none => toString a.least ++ " to " ++ toString a.most

end Arity

namespace Eval

/-- The cause of a runtime error. -/
inductive Fault
  /-- No overload of an operation accepts operands of these kinds. -/
  | noOverload (operation : String) (operands : List Kind)
  | unknownIdentifier (name : String)
  | unknownFunction (name : String)
  | wrongArity (name : String) (expected : Arity) (got : Nat)
  /-- A bound function refused its arguments or broke off. -/
  | functionFailed (name message : String)
  /-- A builtin does not accept the value of an argument. -/
  | invalidArgument (function message : String)
  | divisionByZero
  | moduloByZero
  | overflow (operation : String)
  | indexOutOfBounds (index : String) (length : Nat)
  | noSuchKey (key : String)
  | duplicateKey (key : String)
  /-- The nesting of the evaluation reached its bound. -/
  | tooDeep (depth bound : Nat)
  /-- The comprehensions took more steps than allowed. -/
  | tooManyIterations (bound : Nat)
  deriving DecidableEq

namespace Fault

/-- The wording of a cause. -/
def message : Fault → String
  | noOverload operation operands =>
    "no matching overload for '" ++ operation ++ "' applied to (" ++
      ", ".intercalate (operands.map Kind.name) ++ ")"
  | unknownIdentifier name => "undeclared reference to '" ++ name ++ "'"
  | unknownFunction name => "unknown function '" ++ name ++ "'"
  | wrongArity name expected got =>
    "function '" ++ name ++ "' expects " ++ expected.description ++ " argument(s), got " ++
      toString got
  | functionFailed name message => "function '" ++ name ++ "' failed: " ++ message
  | invalidArgument function message => function ++ ": " ++ message
  | divisionByZero => "division by zero"
  | moduloByZero => "modulus by zero"
  | overflow operation => "overflow in " ++ operation
  | indexOutOfBounds index length =>
    "index " ++ index ++ " out of bounds (length: " ++ toString length ++ ")"
  | noSuchKey key => "no such key: " ++ key
  | duplicateKey key => "duplicate map key: " ++ key
  | tooDeep depth bound =>
    "evaluation stack overflow: depth " ++ toString depth ++ " exceeds maximum of " ++
      toString bound
  | tooManyIterations bound =>
    "comprehension iteration limit of " ++ toString bound ++ " exceeded"

/-- Whether a bound of the evaluation was reached.  Such a fault is never absorbed. -/
def isResource : Fault → Bool
  | tooDeep _ _ | tooManyIterations _ => true
  | _ => false

/-- The fault of an operation that has no overload for these values. -/
def noOverloadFor (operation : String) (operands : List Value) : Fault :=
  noOverload operation (operands.map Value.kind)

end Fault

end Eval

end EmbeddedExpr
