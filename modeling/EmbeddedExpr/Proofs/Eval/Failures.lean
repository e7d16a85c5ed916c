import EmbeddedExpr.Proofs.Eval.Simulation

/-!
# Where failures come from

Every failure of an evaluation is raised at a node of the tree and keeps the span of that
node, whatever absorbs and raises again on its way up.  `Raised` lists what can be raised
at a place: an ordinary fault of an operation, a name without a meaning, or one of the two
bounds.  `evaluate_error_raised` is the inversion that the facts about failures start from.
-/

namespace EmbeddedExpr.Eval

/-- Runs whose failures are all known.  Nothing is compared: only the left run counts. -/
def Simulation.failures (known : Failure → Prop) : Simulation where
  Rel r _ := ∀ steps e after, r steps = (.error e, after) → known e
  Known := known
  pure a steps e after h := by cases h
  throw hknown steps e after h := by cases h; exact hknown
  bind {_ _ r _ next _} hr hnext steps e after h := by
    cases hfirst : r steps with
    | mk outcome middle =>
      cases outcome with
      | ok a => exact hnext a middle e after (by rwa [Run.bind_of_ok hfirst] at h)
      | error first =>
        rw [Run.bind_of_error hfirst] at h
        cases h
        exact hr steps e after hfirst
  recover {_ _ r _ next _} hr _ _ hok herror steps e after h := by
    cases hfirst : r steps with
    | mk outcome middle =>
      rw [Run.outcome_bind hfirst] at h
      cases outcome with
      | ok a => exact hok a middle e after h
      | error first => exact herror first (hr steps first middle hfirst) middle e after h

/-- What an evaluation can raise at a place. -/
inductive Raised (env : Environment) (p : Place) : Failure → Prop
  | fault {fault : Fault} : fault.isOrdinary = true → Raised env p ⟨fault, p.expr.span⟩
  | tooDeep : env.limits.maxDepth ≤ p.depth →
      Raised env p ⟨.tooDeep p.depth env.limits.maxDepth, p.expr.span⟩
  | tooManyIterations {bound : Nat} : env.limits.maxIterations = some bound →
      Raised env p ⟨.tooManyIterations bound, p.expr.span⟩
  | unknownIdentifier {name : String} : p.expr.name? = some name → name ∉ p.vars →
      env.bindings.value? name = none → env.bindings.function? name = none →
      Builtin.find? name = none → Raised env p ⟨.unknownIdentifier name, p.expr.span⟩

/-- What is raised at a place is all that a node can add to the failures below it. -/
theorem failures_at {env : Environment} {known : Failure → Prop} {p : Place}
    (h : ∀ e, Raised env p e → known e) : (Simulation.failures known).At 0 env env p where
  faults fault hfault := h _ (.fault hfault)
  nested {r _} hr steps e after heq := by
    unfold Run.nested at heq
    split at heq
    · rename_i hdeep; cases heq; exact h _ (.tooDeep hdeep)
    · exact hr steps e after heq
  tick steps e after heq := by
    unfold Run.tick at heq
    split at heq
    · rename_i bound hbound
      split at heq
      · cases heq; exact h _ (.tooManyIterations hbound)
      · cases heq
    · cases heq
  name {name scope} hname hscope := by
    refine Simulation.lift _ fun fault heq => ?_
    obtain ⟨rfl, hfresh, hvalue, hfunction, hbuiltin⟩ := resolve_eq_error heq
    exact h _ (.unknownIdentifier hname (hscope ▸ hfresh) hvalue hfunction hbuiltin)
  call _ := rfl

/-- Every failure of an evaluation is raised at a node of the tree. -/
theorem evaluate_error_raised {e : Expr} {bindings : Bindings} {limits : Limits}
    {failure : Failure} (h : evaluate e bindings limits = .error failure) :
    ∃ p, (Place.root e).Reaches p ∧ Raised ⟨bindings, limits⟩ p failure := by
  let known (failure : Failure) : Prop :=
    ∃ p, (Place.root e).Reaches p ∧ Raised ⟨bindings, limits⟩ p failure
  have hknown := (Simulation.failures known).eval_root
    fun p hp => failures_at fun _ hraised => ⟨p, hp, hraised⟩
  exact hknown 0 failure _ (Prod.ext h rfl)

end EmbeddedExpr.Eval
