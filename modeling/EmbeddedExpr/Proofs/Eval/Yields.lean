import EmbeddedExpr.Eval.Evaluate
import EmbeddedExpr.Proofs.Eval.Simulation

/-!
# Runs that end with a result

A run yields a result if it ends with it no matter how many steps have been counted before.
What is put together from such runs is again one, which evaluates an expression by going through
its nodes.  Without a bound on the steps a quantifier over a test that fails on no item has the
answer of the test as a function (`anyDecisive_yields`).
-/

namespace EmbeddedExpr.Eval

namespace Run

variable {α β : Type}

/-- The run ends with the result `a`. -/
def Yields (r : Run α) (a : α) : Prop :=
  ∀ steps, ∃ after, r steps = (.ok a, after)

namespace Yields

variable {r : Run α} {a : α} {b : β} {limits : Limits} {span : Span}

theorem pure (a : α) : Yields (Pure.pure a) a := fun steps => ⟨steps, rfl⟩

theorem bind {next : α → Run β} (h : r.Yields a) (hnext : (next a).Yields b) :
    (r >>= next).Yields b := by
  intro steps
  obtain ⟨middle, hr⟩ := h steps
  obtain ⟨after, hafter⟩ := hnext middle
  exact ⟨after, by rw [bind_of_ok hr, hafter]⟩

theorem outcome (h : r.Yields a) : r.outcome.Yields (.ok a) := by
  intro steps
  obtain ⟨after, hr⟩ := h steps
  exact ⟨after, by rw [Run.outcome, hr]⟩

theorem lift {result : Except Fault α} (h : result = .ok a) : (Run.lift span result).Yields a := by
  rw [h]
  exact pure a

theorem nested {depth : Nat} (hdepth : depth < limits.maxDepth) (h : r.Yields a) :
    (Run.nested limits depth span r).Yields a := by
  rwa [nested_of_not_le (Nat.not_le.mpr hdepth)]

theorem tick (hfree : limits.maxIterations = none) : (Run.tick limits span).Yields () := by
  intro steps
  rw [Run.tick, hfree]
  exact ⟨_, rfl⟩

end Yields

end Run

open Run (Yields)

/-- A quantifier whose test fails on no item looks for an item with the decisive answer. -/
theorem anyDecisive_yields {step : Run Unit} (hstep : step.Yields ()) (decisive : Bool)
    {test : Value → Run Bool} {answer : Value → Bool} {items : List Value}
    (htest : ∀ item ∈ items, (test item).Yields (answer item)) :
    (anyDecisive step decisive test none items).Yields
      (if items.any (fun item => answer item == decisive) then decisive else !decisive) := by
  induction items with
  | nil => exact .pure _
  | cons item rest ih =>
      have hitem := htest item List.mem_cons_self
      have hrest := ih fun item hmem => htest item (List.mem_cons_of_mem _ hmem)
      rw [anyDecisive]
      refine .bind hstep (.bind hitem.outcome ?_)
      by_cases hdecisive : answer item = decisive
      · simpa [hdecisive] using Yields.pure decisive
      · simpa [hdecisive] using hrest

variable {env : Environment} {scope : Scope} {depth : Nat} {span : Span}

theorem eval_ident_yields (hdepth : depth < env.limits.maxDepth) {name : String} {value : Value}
    (h : resolve env.bindings scope name = .ok value) :
    (eval env scope depth (.ident span name)).Yields value :=
  .nested hdepth (.lift h)

/-- A name means the innermost iteration variable of this name. -/
theorem resolve_cons_self (bindings : Bindings) (scope : Scope) (name : String) (value : Value) :
    resolve bindings ((name, value) :: scope) name = .ok value := by
  simp only [resolve, List.find?_cons, beq_self_eq_true]

theorem resolve_cons_of_ne (bindings : Bindings) (scope : Scope) {var name : String}
    (hne : var ≠ name) (value : Value) :
    resolve bindings ((var, value) :: scope) name = resolve bindings scope name := by
  simp only [resolve, List.find?_cons, beq_eq_false_iff_ne.mpr hne]

theorem evaluate_of_yields {expr : Expr} {bindings : Bindings} {limits : Limits} {value : Value}
    (h : (eval ⟨bindings, limits⟩ [] 0 expr).Yields value) :
    evaluate expr bindings limits = .ok value := by
  obtain ⟨after, hrun⟩ := h 0
  rw [evaluate, hrun]

end EmbeddedExpr.Eval
