import EmbeddedExpr.Proofs.Eval.Simulation

/-!
# The bound on iterations

One evaluation without a bound on the steps of comprehensions tells what every bound does
to it.  The invariant is `CutAt limit`: from any count that the bound still allows, the
bounded run does what the free one does if that ends within the bound, and otherwise it
ends with the exhausted bound.  Since counts only grow, a free run that has once passed
the bound cannot come back below it; so the operators that absorb errors, which pass an
exhausted bound on, keep the invariant too.
-/

namespace EmbeddedExpr.Eval

/-- How a run under a bound on the steps corresponds to the run `free` without it. -/
structure CutAt (limit : Nat) {α : Type} (free bounded : Run α) : Prop where
  le_steps : free.Counts
  within (steps : Nat) : (free steps).2 ≤ limit → bounded steps = free steps
  beyond (steps : Nat) : steps ≤ limit → limit < (free steps).2 →
    ∃ span after, bounded steps = (.error ⟨.tooManyIterations limit, span⟩, after)

namespace CutAt

variable {limit : Nat} {α β : Type}

theorem done (a : α) : CutAt limit (Pure.pure a : Run α) (Pure.pure a) :=
  ⟨fun steps => Nat.le_refl steps, fun _ _ => rfl,
    fun _ hle hlt => absurd hlt (Nat.not_lt.mpr hle)⟩

theorem throw (e : Failure) : CutAt limit (Run.throw e : Run α) (Run.throw e) :=
  ⟨fun steps => Nat.le_refl steps, fun _ _ => rfl,
    fun _ hle hlt => absurd hlt (Nat.not_lt.mpr hle)⟩

theorem bind {free bounded : Run α} {next next' : α → Run β} (h : CutAt limit free bounded)
    (hnext : ∀ a, CutAt limit (next a) (next' a)) :
    CutAt limit (free >>= next) (bounded >>= next') := by
  constructor
  · exact Run.Counts.bind h.le_steps fun a => (hnext a).le_steps
  · intro steps hlimit
    cases hrun : free steps with
    | mk outcome middle =>
      cases outcome with
      | ok a =>
          rw [Run.bind_of_ok hrun] at hlimit ⊢
          have hmiddle : middle ≤ limit := Nat.le_trans ((hnext a).le_steps middle) hlimit
          have hsame := h.within steps (by rw [hrun]; exact hmiddle)
          rw [Run.bind_of_ok (hsame.trans hrun)]
          exact (hnext a).within middle hlimit
      | error e =>
          rw [Run.bind_of_error hrun] at hlimit ⊢
          have hsame := h.within steps (by rw [hrun]; exact hlimit)
          exact Run.bind_of_error (hsame.trans hrun) next'
  · intro steps hle hlimit
    -- either the first part passes the bound on its own, or what follows it does
    by_cases hcut : limit < (free steps).2
    · obtain ⟨span, after, hbounded⟩ := h.beyond steps hle hcut
      exact ⟨span, after, Run.bind_of_error hbounded next'⟩
    · have hsame := h.within steps (Nat.not_lt.mp hcut)
      cases hrun : free steps with
      | mk outcome middle =>
        rw [hrun] at hcut
        cases outcome with
        | ok a =>
            rw [Run.bind_of_ok hrun] at hlimit
            rw [Run.bind_of_ok (hsame.trans hrun)]
            exact (hnext a).beyond middle (Nat.not_lt.mp hcut) hlimit
        | error e =>
            rw [Run.bind_of_error hrun] at hlimit
            exact absurd hlimit hcut

/-- What goes on after an outcome is cut if the outcome was: it passes the exhausted bound
on. -/
theorem recover {free bounded : Run α} {next next' : Except Failure α → Run β}
    (h : CutAt limit free bounded) (hrethrows : Rethrows next')
    (hnext : ∀ o, CutAt limit (next o) (next' o)) :
    CutAt limit (free.outcome >>= next) (bounded.outcome >>= next') := by
  constructor
  · exact Run.Counts.bind (Run.Counts.outcome h.le_steps) fun o => (hnext o).le_steps
  · intro steps hlimit
    rw [Run.outcome_bind (r := free) rfl] at hlimit ⊢
    have hsame := h.within steps (Nat.le_trans ((hnext _).le_steps _) hlimit)
    rw [Run.outcome_bind (r := bounded) hsame]
    exact (hnext _).within _ hlimit
  · intro steps hle hlimit
    rw [Run.outcome_bind (r := free) rfl] at hlimit
    by_cases hcut : limit < (free steps).2
    · obtain ⟨span, after, hbounded⟩ := h.beyond steps hle hcut
      rw [Run.outcome_bind hbounded, hrethrows _ rfl]
      exact ⟨span, after, rfl⟩
    · have hmiddle := Nat.not_lt.mp hcut
      rw [Run.outcome_bind (r := bounded) (h.within steps hmiddle)]
      exact (hnext _).beyond _ hmiddle hlimit

theorem nested {free bounded : Run α} (h : CutAt limit free bounded) (maxDepth depth : Nat)
    (span : Span) :
    CutAt limit (Run.nested ⟨maxDepth, none⟩ depth span free)
      (Run.nested ⟨maxDepth, some limit⟩ depth span bounded) := by
  by_cases hdeep : maxDepth ≤ depth
  · rw [Run.nested_of_le hdeep, Run.nested_of_le hdeep]
    exact throw _
  · rw [Run.nested_of_not_le hdeep, Run.nested_of_not_le hdeep]
    exact h

/-- The step that passes the bound is the one that is cut. -/
theorem tick (maxDepth : Nat) (span : Span) :
    CutAt limit (Run.tick ⟨maxDepth, none⟩ span) (Run.tick ⟨maxDepth, some limit⟩ span) := by
  constructor
  · exact Run.Counts.tick ⟨maxDepth, none⟩ span
  · intro steps hlimit
    exact if_neg (Nat.not_lt.mpr hlimit)
  · intro steps _ hlimit
    exact ⟨span, steps + 1, if_pos hlimit⟩

end CutAt

/-- Cutting at a bound is kept by everything that evaluation is built from. -/
def Simulation.cutAt (limit : Nat) : Simulation where
  Rel := CutAt limit
  Known _ := True
  pure := CutAt.done
  throw _ := CutAt.throw _
  bind := CutAt.bind
  recover h _ hrethrows hok herror := h.recover hrethrows fun
    | .ok a => hok a
    | .error e => herror e trivial

theorem eval_cutAt (limit : Nat) (e : Expr) (bindings : Bindings) (maxDepth : Nat) :
    CutAt limit (eval ⟨bindings, ⟨maxDepth, none⟩⟩ [] 0 e)
      (eval ⟨bindings, ⟨maxDepth, some limit⟩⟩ [] 0 e) := by
  refine (Simulation.cutAt limit).eval_root fun p _ => ?_
  exact {
    faults := fun _ _ => trivial
    nested := fun h => h.nested maxDepth p.depth p.expr.span
    tick := CutAt.tick maxDepth p.expr.span
    name := fun _ _ => Simulation.lift _ fun _ _ => trivial
    call := fun _ => rfl }

/-- The steps that the comprehensions of an evaluation take, one for each item that they go
through. -/
def stepsTaken (e : Expr) (bindings : Bindings) (limits : Limits) : Nat :=
  (eval ⟨bindings, limits⟩ [] 0 e 0).2

/-- Under a bound an evaluation gives what it gives without, if the comprehensions take no
more steps than the bound allows, and the exhausted bound if they take more. -/
theorem evaluate_bounded (e : Expr) (bindings : Bindings) (maxDepth limit : Nat) :
    ∃ span, evaluate e bindings ⟨maxDepth, some limit⟩ =
      if stepsTaken e bindings ⟨maxDepth, none⟩ ≤ limit then
        evaluate e bindings ⟨maxDepth, none⟩
      else .error ⟨.tooManyIterations limit, span⟩ := by
  have h := eval_cutAt limit e bindings maxDepth
  by_cases hsteps : stepsTaken e bindings ⟨maxDepth, none⟩ ≤ limit
  · refine ⟨e.span, ?_⟩
    rw [if_pos hsteps, evaluate, evaluate, h.within 0 hsteps]
  · obtain ⟨span, after, hcut⟩ := h.beyond 0 (Nat.zero_le _) (Nat.not_le.mp hsteps)
    refine ⟨span, ?_⟩
    rw [if_neg hsteps, evaluate, hcut]

end EmbeddedExpr.Eval
