import EmbeddedExpr.Proofs.Eval.Failures
import EmbeddedExpr.Proofs.Grammar.Spans
import EmbeddedExpr.Proofs.Program.Compile

/-!
# The places of runtime errors

A failure keeps the span of the node that it is raised at, whichever of the four layers it comes
from: an operator, a function, the evaluator or a bound.  The nodes of a compiled tree are in
their place in the source, hence so is the failure.
-/

namespace EmbeddedExpr

open Text (IsBoundary)

namespace Eval

theorem Raised.span_eq {env : Environment} {p : Place} {failure : Failure}
    (h : Raised env p failure) : failure.span = p.expr.span := by
  cases h <;> rfl

/-- The span of a failure is that of a node of the tree. -/
theorem evaluate_error_span {e : Expr} {bindings : Bindings} {limits : Limits} {failure : Failure}
    (h : evaluate e bindings limits = .error failure) :
    ∃ p, (Place.root e).Reaches p ∧ failure.span = p.expr.span := by
  obtain ⟨p, hp, hraised⟩ := evaluate_error_raised h
  exact ⟨p, hp, hraised.span_eq⟩

end Eval

namespace Program

open Eval

/-- A failure of a compiled program is about a part of its source. -/
theorem execute_error_covers {bound : Nat} {source : String} {p : Program}
    (hcompile : compile bound source = .ok p) {bindings : Bindings} {limits : Limits}
    {failure : Failure} (h : p.execute bindings limits = .error failure) :
    failure.span.Covers source.toList := by
  have hplaced := Grammar.located_parse bound source.toList
  rw [(compile_eq_ok hcompile).2] at hplaced
  obtain ⟨q, hq, hspan⟩ := evaluate_error_span h
  rw [hspan]
  exact (hq.all hplaced).here.covers

/-- Every failure of an evaluation is located: it has the span of a node of the tree.  The span of
a failure of a compiled program is inside its source, ends between characters of it and has at
least one character. -/
theorem failure_located :
    (∀ (e : Expr) (bindings : Bindings) (limits : Limits) (failure : Failure),
      evaluate e bindings limits = .error failure →
        ∃ p, (Place.root e).Reaches p ∧ failure.span = p.expr.span) ∧
    ∀ (bound : Nat) (source : String) (p : Program), compile bound source = .ok p →
      ∀ (bindings : Bindings) (limits : Limits) (failure : Failure),
        p.execute bindings limits = .error failure →
          failure.span.start < failure.span.stop ∧
            failure.span.stop ≤ Text.byteLength source.toList ∧
              IsBoundary source.toList failure.span.start ∧
                IsBoundary source.toList failure.span.stop := by
  refine ⟨fun _ _ _ _ h => evaluate_error_span h, ?_⟩
  intro bound source p hcompile bindings limits failure h
  have hcovers := execute_error_covers hcompile h
  exact ⟨hcovers.nonempty, hcovers.stop.le_byteLength, hcovers.start, hcovers.stop⟩

/-- The division by zero that `||` puts off, and raises again since the other side fails too, is
at the offsets 2 to 7 of the source. -/
theorem failure_located_deferred :
    ∃ p, compile 9 "  1 / 0 > 1 || x" = .ok p ∧
      p.execute .empty .default = .error ⟨.divisionByZero, ⟨2, 7⟩⟩ ∧
        (∃ q, (Place.root p.expr).Reaches q ∧ ⟨2, 7⟩ = q.expr.span) ∧
          7 ≤ Text.byteLength "  1 / 0 > 1 || x".toList := by
  let p : Program := ⟨"  1 / 0 > 1 || x",
    .logic ⟨2, 16⟩ .or
      (.relation ⟨2, 11⟩ .gt
        (.arith ⟨2, 7⟩ .div (.literal ⟨2, 3⟩ (.int 1)) (.literal ⟨6, 7⟩ (.int 0)))
        (.literal ⟨10, 11⟩ (.int 1)))
      (.ident ⟨15, 16⟩ "x")⟩
  have hcompile : compile 9 "  1 / 0 > 1 || x" = .ok p := rfl
  have hfails : p.execute .empty .default = .error ⟨.divisionByZero, ⟨2, 7⟩⟩ := rfl
  exact ⟨p, hcompile, hfails, failure_located.1 _ _ _ _ hfails,
    (failure_located.2 _ _ _ hcompile _ _ _ hfails).2.1⟩

end Program

end EmbeddedExpr
