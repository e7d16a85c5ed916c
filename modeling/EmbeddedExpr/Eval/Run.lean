import EmbeddedExpr.Eval.Fault
import EmbeddedExpr.Syntax.Expr

/-!
# Runs

A run of the evaluator counts the steps of its comprehensions.  The count goes on
across errors, so that it is shared by all parts of an evaluation, and it is
bounded if the limits say so.
-/

namespace EmbeddedExpr.Eval

/-- A runtime error: its cause and the span of the expression that failed. -/
structure Failure where
  fault : Fault
  span : Span
  deriving DecidableEq

/-- The wording of an error with its place. -/
def Failure.message (e : Failure) : String :=
  e.fault.message ++ " at " ++ toString e.span.start ++ ".." ++ toString e.span.stop

/-- The bounds of an evaluation. -/
structure Limits where
  /-- How deep expressions may be nested. -/
  maxDepth : Nat
  /-- How many steps all comprehensions together may take. -/
  maxIterations : Option Nat
  deriving DecidableEq, Repr

/-- The bounds where nothing else is said. -/
def Limits.default : Limits := ⟨1000, none⟩

/-- Runs with a result: from the steps taken before to the outcome and the steps
taken after. -/
def Run (α : Type) := Nat → Except Failure α × Nat

namespace Run

variable {α β : Type}

def done (a : α) : Run α := fun steps => (.ok a, steps)

def andThen (r : Run α) (f : α → Run β) : Run β := fun steps =>
  match r steps with
  | (.ok a, steps) => f a steps
  | (.error e, steps) => (.error e, steps)

instance : Monad Run where
  pure := done
  bind := andThen

/-- Ends with an error. -/
def throw (e : Failure) : Run α := fun steps => (.error e, steps)

/-- A result, or the error of a fault at a span. -/
def lift (span : Span) : Except Fault α → Run α
  | .ok a => done a
  | .error fault => throw ⟨fault, span⟩

/-- The outcome of a run as a result. -/
def outcome (r : Run α) : Run (Except Failure α) := fun steps =>
  ((.ok (r steps).1), (r steps).2)

/-- A run one level deeper: an error at the span if that is too deep. -/
def nested (limits : Limits) (depth : Nat) (span : Span) (r : Run α) : Run α := fun steps =>
  if limits.maxDepth ≤ depth then (.error ⟨.tooDeep depth limits.maxDepth, span⟩, steps)
  else r steps

/-- One step of a comprehension; an error at the span if that is one too many. -/
def tick (limits : Limits) (span : Span) : Run Unit := fun steps =>
  match limits.maxIterations with
  | some bound =>
    if bound < steps + 1 then (.error ⟨.tooManyIterations bound, span⟩, steps + 1)
    else (.ok (), steps + 1)
  | none => (.ok (), steps + 1)

end Run

end EmbeddedExpr.Eval
