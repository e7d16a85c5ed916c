import EmbeddedExpr.Proofs.Eval.Yields

/-!
# Calls of builtins

A run ends with an outcome if it does no matter how many steps have been counted before; with a
result it yields this result (`Run.Yields`).  Where its name is not bound to a function, the call of
a builtin on an expression that has a value ends as the builtin does on this value
(`eval_call_ends`).  That the expression has a value leaves room for the call: no expression has one
at the bound on the depth (`lt_of_yields`).
-/

namespace EmbeddedExpr.Eval

namespace Run

variable {α β : Type}

/-- The run ends with the outcome, no matter how many steps have been counted before. -/
def Ends (r : Run α) (outcome : Except Failure α) : Prop :=
  ∀ steps, ∃ after, r steps = (outcome, after)

namespace Ends

variable {r : Run α} {a : α} {outcome : Except Failure β} {limits : Limits} {depth : Nat}

theorem lift (span : Span) (result : Except Fault α) :
    (Run.lift span result).Ends (result.mapError fun fault => ⟨fault, span⟩) := by
  intro steps
  cases result <;> exact ⟨steps, rfl⟩

theorem bind {next : α → Run β} (h : r.Yields a) (hnext : (next a).Ends outcome) :
    (r >>= next).Ends outcome := by
  intro steps
  obtain ⟨middle, hr⟩ := h steps
  obtain ⟨after, hafter⟩ := hnext middle
  exact ⟨after, by rw [bind_of_ok hr, hafter]⟩

theorem bind_error {e : Failure} {next : α → Run β} (h : r.Ends (.error e)) :
    (r >>= next).Ends (.error e) := by
  intro steps
  obtain ⟨after, hr⟩ := h steps
  exact ⟨after, bind_of_error hr next⟩

theorem nested {span : Span} (hdepth : depth < limits.maxDepth) {outcome : Except Failure α}
    (h : r.Ends outcome) : (Run.nested limits depth span r).Ends outcome := by
  rwa [nested_of_not_le (Nat.not_le.mpr hdepth)]

end Ends

end Run

open Run (Yields Ends)

variable {env : Environment} {scope : Scope} {depth : Nat} {e : Expr} {value : Value}

theorem eval_nested (env : Environment) (scope : Scope) (depth : Nat) (e : Expr) :
    ∃ r, eval env scope depth e = Run.nested env.limits depth e.span r := by
  cases e with
  | iterate span kind range var filter body => cases filter <;> exact ⟨_, rfl⟩
  | _ => exact ⟨_, rfl⟩

theorem evaluate_of_ends {bindings : Bindings} {limits : Limits} {outcome : Except Failure Value}
    (h : (eval ⟨bindings, limits⟩ [] 0 e).Ends outcome) : evaluate e bindings limits = outcome := by
  obtain ⟨after, hrun⟩ := h 0
  rw [evaluate, hrun]

/-- What has a result is not too deep. -/
theorem lt_of_yields (h : (eval env scope depth e).Yields value) : depth < env.limits.maxDepth := by
  obtain ⟨r, hr⟩ := eval_nested env scope depth e
  obtain ⟨after, hrun⟩ := h 0
  refine Nat.lt_of_not_le fun hdeep => ?_
  rw [hr, Run.nested_of_le hdeep] at hrun
  cases hrun

/-- A call of a builtin with one argument ends as its body does on the value of the argument. -/
theorem eval_call_ends {name : String} {body : Builtin.Body} (span : Span)
    (hunbound : env.bindings.function? name = none)
    (hfind : Builtin.find? name = some ⟨name, .exactly 1, body⟩)
    (h : (eval env scope (depth + 1) e).Yields value) :
    (eval env scope depth (.call span name [e])).Ends
      ((body [value]).mapError fun fault => ⟨fault, span⟩) := by
  have hdepth : depth < env.limits.maxDepth := Nat.lt_of_succ_lt (lt_of_yields h)
  have hinvoke : invoke env.bindings name [value] = body [value] := by
    rw [invoke, hunbound, hfind]
    rfl
  have hargs : (evalItems env scope (depth + 1) [e]).Yields [value] := by
    rw [evalItems, evalItems]
    exact .bind h (.bind (.pure []) (.pure [value]))
  refine .nested hdepth (.bind hargs ?_)
  rw [hinvoke]
  exact .lift span _

/-- So does a call on the string of what has a value. -/
theorem eval_call_string_ends {name s : String} {body : Builtin.Body} (outer inner : Span)
    (hstring : env.bindings.function? "string" = none)
    (hunbound : env.bindings.function? name = none)
    (hfind : Builtin.find? name = some ⟨name, .exactly 1, body⟩)
    (htext : Builtin.toText [value] = .ok (.text s))
    (h : (eval env scope (depth + 2) e).Yields value) :
    (eval env scope depth (.call outer name [.call inner "string" [e]])).Ends
      ((body [.text s]).mapError fun fault => ⟨fault, outer⟩) := by
  have hends := eval_call_ends inner hstring rfl h
  rw [htext] at hends
  exact eval_call_ends outer hunbound hfind hends

theorem eval_relation_yields {op : RelationOp} {left right : Expr} {l r : Value} {b : Bool}
    {span : Span} (hleft : (eval env scope (depth + 1) left).Yields l)
    (hright : (eval env scope (depth + 1) right).Yields r) (h : applyRelation op l r = .ok b) :
    (eval env scope depth (.relation span op left right)).Yields (.bool b) := by
  have hdepth : depth < env.limits.maxDepth := Nat.lt_of_succ_lt (lt_of_yields hleft)
  exact .nested hdepth (.bind hleft (.bind hright (.bind (.lift h) (.pure _))))

theorem eval_relation_error {op : RelationOp} {left right : Expr} {failure : Failure} {span : Span}
    (hdepth : depth < env.limits.maxDepth)
    (h : (eval env scope (depth + 1) left).Ends (.error failure)) :
    (eval env scope depth (.relation span op left right)).Ends (.error failure) := by
  exact .nested hdepth h.bind_error

end EmbeddedExpr.Eval
