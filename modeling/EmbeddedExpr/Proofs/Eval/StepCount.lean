import EmbeddedExpr.Proofs.Eval.IterationBound
import EmbeddedExpr.Proofs.Eval.MapLiterals
import Mathlib.Algebra.Ring.Nat

/-!
# What the steps count

Only `Run.tick` counts, and it counts one (`Run.tick_steps`).  Without a bound on the steps an
evaluation ends in the same way whatever has been counted before it, and it counts as many steps
(`Point.eval_adds`).  So the steps of an evaluation are read off its parts.

A comprehension goes through the items of its range up to the first one at which it ends
(`goneThrough`): a quantifier ends at a decisive answer, the others end at an error.  It takes one
step for each item that it goes through, besides those that its test and its body take for the item
(`stepsTaken_iterate`).
-/

namespace EmbeddedExpr.Eval

/-! ### Runs that count alike -/

namespace Run

variable {α β : Type}

/-- Whatever has been counted before, the run ends with the outcome and counts `n` steps more. -/
def Adds (r : Run α) (n : Nat) (outcome : Except Failure α) : Prop :=
  ∀ steps, r steps = (outcome, steps + n)

/-- Whatever has been counted before, the run ends in one way and counts `n` steps more. -/
def Takes (r : Run α) (n : Nat) : Prop := ∃ outcome, r.Adds n outcome

variable {r : Run α} {n m : Nat} {outcome : Except Failure α} {result : Except Failure β}

namespace Adds

theorem pure (a : α) : Adds (Pure.pure a) 0 (.ok a) := fun _ => rfl

theorem throw (e : Failure) : Adds (Run.throw e : Run α) 0 (.error e) := fun _ => rfl

theorem bind {a : α} {next : α → Run β} (h : r.Adds n (.ok a)) (hnext : (next a).Adds m result) :
    (r >>= next).Adds (n + m) result := by
  intro steps
  rw [bind_of_ok (h steps), hnext, Nat.add_assoc]

/-- What follows may count nothing. -/
theorem bind_quiet {a : α} {next : α → Run β} (h : r.Adds n (.ok a))
    (hnext : (next a).Adds 0 result) : (r >>= next).Adds n result :=
  h.bind hnext

theorem bind_error {e : Failure} (h : r.Adds n (.error e)) (next : α → Run β) :
    (r >>= next).Adds n (.error e) :=
  fun steps => bind_of_error (h steps) next

/-- What follows an outcome counts on, be it a result or a failure. -/
theorem recover {next : Except Failure α → Run β} (h : r.Adds n outcome)
    (hnext : (next outcome).Adds m result) : (r.outcome >>= next).Adds (n + m) result := by
  intro steps
  rw [outcome_bind (h steps), hnext, Nat.add_assoc]

/-- A step that nothing bounds counts one. -/
theorem tick {limits : Limits} (hfree : limits.maxIterations = none) (span : Span) :
    (Run.tick limits span).Adds 1 (.ok ()) := by
  intro steps
  rw [Run.tick, hfree]

end Adds

/-- What is only made of a result counts nothing. -/
theorem Takes.map (h : r.Takes n) (f : α → β) : (r >>= fun a => Pure.pure (f a)).Takes n := by
  obtain ⟨outcome, h⟩ := h
  cases outcome with
  | ok a => exact ⟨_, h.bind_quiet (.pure (f a))⟩
  | error e => exact ⟨_, h.bind_error _⟩

theorem Takes.nested (h : r.Takes n) (limits : Limits) (depth : Nat) (span : Span) :
    ∃ m, (Run.nested limits depth span r).Takes m := by
  obtain ⟨outcome, h⟩ := h
  by_cases hdeep : limits.maxDepth ≤ depth
  · rw [nested_of_le hdeep]
    exact ⟨0, _, .throw _⟩
  · rw [nested_of_not_le hdeep]
    exact ⟨n, _, h⟩

end Run

/-- Counting alike is kept by everything that evaluation is built from. -/
def Simulation.takes : Simulation where
  Rel r _ := ∃ n, r.Takes n
  Known _ := True
  pure a := ⟨0, _, .pure a⟩
  throw {_ e} _ := ⟨0, _, .throw e⟩
  bind h hnext := by
    obtain ⟨n, outcome, h⟩ := h
    cases outcome with
    | ok a =>
        obtain ⟨m, result, hnext⟩ := hnext a
        exact ⟨n + m, result, h.bind hnext⟩
    | error e => exact ⟨n, _, h.bind_error _⟩
  recover h _ _ hok herror := by
    obtain ⟨n, outcome, h⟩ := h
    cases outcome with
    | ok a =>
        obtain ⟨m, result, hnext⟩ := hok a
        exact ⟨n + m, result, h.recover hnext⟩
    | error e =>
        obtain ⟨m, result, hnext⟩ := herror e trivial
        exact ⟨n + m, result, h.recover hnext⟩

/-! ### Points of an evaluation -/

namespace Point

variable {p : Point} {e : Expr}

/-- The steps that an expression takes at the point. -/
def taken (p : Point) (e : Expr) : Nat := (eval p.env p.scope p.depth e p.steps).2 - p.steps

/-- The point where the operands of an expression are evaluated. -/
def inner (p : Point) : Point := { p with depth := p.depth + 1 }

/-- Without a bound an expression ends at any count as it does at the point, and takes as many
steps. -/
theorem eval_adds (hfree : p.env.limits.maxIterations = none) (e : Expr) :
    (eval p.env p.scope p.depth e).Adds (p.taken e) (p.outcome e) := by
  have hat (q : Place) : Simulation.takes.At 0 p.env p.env q := {
    faults := fun _ _ => trivial
    nested := fun ⟨_, h⟩ => h.nested p.env.limits q.depth q.expr.span
    tick := ⟨1, _, .tick hfree q.expr.span⟩
    name := fun _ _ => Simulation.lift _ fun _ _ => trivial
    call := fun _ => rfl }
  have htakes : ∃ n, (eval p.env p.scope p.depth e).Takes n :=
    Simulation.takes.eval (fun q _ => hat q) (rfl : _ = p.scope.map Prod.fst)
  obtain ⟨n, outcome, h⟩ := htakes
  have houtcome : p.outcome e = outcome := by rw [Point.outcome, h]
  have htaken : p.taken e = n := by rw [taken, h, Nat.add_sub_cancel_left]
  rw [houtcome, htaken]
  exact h

/-- As a test an expression takes no other steps. -/
theorem truth_adds (hfree : p.env.limits.maxIterations = none) (operation : String) (e : Expr) :
    (do
      let value ← eval p.env p.scope p.depth e
      asBool operation e.span value).Adds (p.taken e) (p.truth operation e) := by
  have h := eval_adds hfree e
  rw [truth]
  rcases houtcome : p.outcome e with failure | v
  · rw [houtcome] at h
    exact h.bind_error _
  · rw [houtcome] at h
    cases v with
    | bool b => exact h.bind_quiet (.pure b)
    | _ => exact h.bind_quiet (.throw _)

end Point

/-! ### Loops -/

/-- The items that a loop goes through, up to the first one at which it ends. -/
def goneThrough (ends : Value → Bool) : List Value → List Value
  | [] => []
  | item :: rest => item :: if ends item then [] else goneThrough ends rest

/-- One step for each item, and the steps that are taken for it besides. -/
def loopSteps (cost : Value → Nat) (gone : List Value) : Nat := gone.length + (gone.map cost).sum

theorem loopSteps_cons (cost : Value → Nat) (item : Value) (gone : List Value) :
    loopSteps cost (item :: gone) = 1 + (cost item + loopSteps cost gone) := by
  simp only [loopSteps, List.length_cons, List.map_cons, List.sum_cons]
  omega

/-- A quantifier ends at this outcome of its test. -/
def settles (decisive : Bool) : Except Failure Bool → Bool
  | .ok b => b == decisive
  | .error e => e.fault.isResource

def failed {α : Type} : Except Failure α → Bool
  | .ok _ => false
  | .error _ => true

section Loops

variable {step : Run Unit} {test : Value → Run Bool} {cost : Value → Nat}
  {gives : Value → Except Failure Bool}

theorem anyDecisive_takes (hstep : step.Adds 1 (.ok ()))
    (htest : ∀ item, (test item).Adds (cost item) (gives item)) (decisive : Bool)
    (deferred : Option Failure) (items : List Value) :
    (anyDecisive step decisive test deferred items).Takes
      (loopSteps cost (goneThrough (fun item => settles decisive (gives item)) items)) := by
  induction items generalizing deferred with
  | nil =>
      cases deferred with
      | none => exact ⟨_, .pure _⟩
      | some e => exact ⟨_, .throw e⟩
  | cons item rest ih =>
      have hitem := htest item
      rw [anyDecisive, goneThrough, loopSteps_cons]
      cases hgives : gives item with
      | ok b =>
          rw [hgives] at hitem
          by_cases hdecisive : b = decisive
          · have hends : settles decisive (.ok b) = true := beq_iff_eq.mpr hdecisive
            rw [if_pos hends]
            refine ⟨.ok decisive, hstep.bind (hitem.recover ?_)⟩
            simp only [if_pos hdecisive]
            exact .pure decisive
          · have hgoes : ¬ settles decisive (.ok b) = true := fun h => hdecisive (beq_iff_eq.mp h)
            obtain ⟨result, hrest⟩ := ih deferred
            rw [if_neg hgoes]
            refine ⟨result, hstep.bind (hitem.recover ?_)⟩
            simpa only [if_neg hdecisive] using hrest
      | error e =>
          rw [hgives] at hitem
          by_cases hresource : e.fault.isResource = true
          · have hends : settles decisive (.error e) = true := hresource
            rw [if_pos hends]
            refine ⟨.error e, hstep.bind (hitem.recover ?_)⟩
            simp only [if_pos hresource]
            exact .throw e
          · have hgoes : ¬ settles decisive (.error e) = true := hresource
            obtain ⟨result, hrest⟩ := ih (some (deferred.getD e))
            rw [if_neg hgoes]
            refine ⟨result, hstep.bind (hitem.recover ?_)⟩
            simpa only [if_neg hresource] using hrest

theorem passing_takes (hstep : step.Adds 1 (.ok ()))
    (htest : ∀ item, (test item).Adds (cost item) (gives item)) (items : List Value) :
    (passing step test items).Takes
      (loopSteps cost (goneThrough (fun item => failed (gives item)) items)) := by
  induction items with
  | nil => exact ⟨_, .pure _⟩
  | cons item rest ih =>
      have hitem := htest item
      rw [passing, goneThrough, loopSteps_cons]
      cases hgives : gives item with
      | ok b =>
          rw [hgives] at hitem
          obtain ⟨result, hrest⟩ := ih.map fun more => if b then item :: more else more
          exact ⟨result, hstep.bind (hitem.bind hrest)⟩
      | error e =>
          rw [hgives] at hitem
          exact ⟨_, hstep.bind (hitem.bind_error _)⟩

/-- The image is only taken of an item that passes the test. -/
theorem images_takes (filter : Option (Value → Run Bool)) {image : Value → Run Value}
    {imageCost : Value → Nat} {becomes : Value → Except Failure Value}
    (hstep : step.Adds 1 (.ok ()))
    (htest : ∀ item, (filter.elim (pure true) fun test => test item).Adds (cost item) (gives item))
    (himage : ∀ item, (image item).Adds (imageCost item) (becomes item)) (items : List Value) :
    (images step filter image items).Takes
      (loopSteps (fun item => cost item + if passes (gives item) then imageCost item else 0)
        (goneThrough (fun item => failed (gives item) ||
          (passes (gives item) && failed (becomes item))) items)) := by
  induction items with
  | nil => exact ⟨_, .pure _⟩
  | cons item rest ih =>
      have hunfold : images step filter image (item :: rest) = (do
          step
          let selected ← filter.elim (pure true) fun test => test item
          if selected then
            let value ← image item
            let more ← images step filter image rest
            pure (value :: more)
          else images step filter image rest) := by
        cases filter <;> rfl
      have hitem := htest item
      have hvalue := himage item
      rw [hunfold, goneThrough, loopSteps_cons, Nat.add_assoc]
      rcases hgives : gives item with e | _ | _
      case error =>
          rw [hgives] at hitem
          exact ⟨_, hstep.bind (hitem.bind_error _)⟩
      case ok.false =>
          rw [hgives] at hitem
          obtain ⟨result, hrest⟩ := ih
          refine ⟨result, hstep.bind (hitem.bind ?_)⟩
          simpa [passes, failed] using hrest
      case ok.true =>
          rw [hgives] at hitem
          cases hbecomes : becomes item with
          | ok value =>
              rw [hbecomes] at hvalue
              obtain ⟨result, hrest⟩ := ih.map fun more => value :: more
              exact ⟨result, hstep.bind (hitem.bind (hvalue.bind hrest))⟩
          | error e =>
              rw [hbecomes] at hvalue
              exact ⟨_, hstep.bind (hitem.bind (hvalue.bind_error _))⟩

end Loops

/-! ### Comprehensions -/

namespace Point

variable {p : Point} {s : Span} {kind : IterationKind} {range : Expr} {var : String}
  {filter : Option Expr} {body : Expr} {items : List Value} {n : Nat}

/-- The steps that a comprehension takes for the item at the point, besides the one for the item
itself.  Only `map` heeds a test. -/
def itemSteps (p : Point) : IterationKind → Option Expr → Expr → Nat
  | .map, some test, image => p.taken test + if p.holds test then p.taken image else 0
  | _, _, body => p.taken body

/-- Whether a comprehension ends at the item at the point. -/
def ends (p : Point) (kind : IterationKind) (filter : Option Expr) (body : Expr) : Bool :=
  match kind, filter with
  | .all, _ => settles false (p.truth kind.name body)
  | .exists, _ => settles true (p.truth kind.name body)
  | .existsOne, _ | .filter, _ => failed (p.truth kind.name body)
  | .map, none => failed (p.outcome body)
  | .map, some test =>
    failed (p.truth kind.name test) || (p.holds test && failed (p.outcome body))

/-- The items that a comprehension goes through. -/
def gone (p : Point) (kind : IterationKind) (var : String) (filter : Option Expr) (body : Expr)
    (items : List Value) : List Value :=
  goneThrough (fun item => (p.under var item).ends kind filter body) items

theorem iteration_takes (hfree : p.env.limits.maxIterations = none) (kind : IterationKind)
    (var : String) (filter : Option Expr) (body : Expr) (items : List Value) :
    (p.iteration kind var filter body items).Takes
      (loopSteps (fun item => (p.inner.under var item).itemSteps kind filter body)
        (p.inner.gone kind var filter body items)) := by
  have hstep := Run.Adds.tick hfree body.span
  have hbody (item : Value) := eval_adds (p := p.inner.under var item) hfree body
  have htest (e : Expr) (item : Value) :=
    truth_adds (p := p.inner.under var item) hfree kind.name e
  cases kind with
  | all | «exists» => exact (anyDecisive_takes hstep (htest body) _ none items).map Value.bool
  | existsOne => exact (passing_takes hstep (htest body) items).map _
  | filter => exact (passing_takes hstep (htest body) items).map Value.list
  | map => cases filter with
    | none =>
        have hpassed (item : Value) : ((none : Option (Value → Run Bool)).elim (pure true)
            fun test => test item).Adds 0 (.ok true) := .pure true
        have himages := images_takes none hstep hpassed hbody items
        simp only [passes, failed, if_true, Bool.false_or, Bool.true_and, Nat.zero_add] at himages
        exact himages.map Value.list
    | some test =>
        have himages := images_takes (some _) hstep (htest test) hbody items
        simp only [passes_truth] at himages
        exact himages.map Value.list

/-- The steps of a comprehension are those of its range and those of the loop. -/
theorem taken_iterate (hfree : p.env.limits.maxIterations = none)
    (hdepth : p.depth < p.env.limits.maxDepth) (hrange : p.inner.Ranges range items)
    (h : (p.iteration kind var filter body items).Takes n) :
    p.taken (.iterate s kind range var filter body) = p.inner.taken range + n := by
  obtain ⟨value, hvalue, hitems⟩ := hrange
  obtain ⟨outcome, hloop⟩ := h
  have hrangeRun := eval_adds (p := p.inner) hfree range
  rw [hvalue] at hrangeRun
  have hitemsRun : (rangeItems kind range.span value).Adds 0 (.ok items) := by
    cases value <;> cases hitems <;> exact .pure _
  have hitemsLoop : (rangeItems kind range.span value >>= p.iteration kind var filter body).Adds n
      outcome := by
    have hboth := hitemsRun.bind hloop
    rwa [Nat.zero_add] at hboth
  have hrun : (eval p.env p.scope p.depth (.iterate s kind range var filter body)).Adds
      (p.inner.taken range + n) outcome := by
    cases filter <;>
    · rw [eval, Run.nested_of_not_le (Nat.not_le.mpr hdepth)]
      exact hrangeRun.bind hitemsLoop
  rw [taken, hrun, Nat.add_sub_cancel_left]

end Point

/-- Without a bound on the steps a comprehension whose range has items takes those of its range, one
for each item that it goes through, and those of its test and its body for these items. -/
theorem stepsTaken_iterate {bindings : Bindings} {maxDepth : Nat} (s : Span) (kind : IterationKind)
    {range : Expr} (var : String) (filter : Option Expr) (body : Expr) {items : List Value}
    (hdepth : 0 < maxDepth) :
    let p := (Point.start bindings ⟨maxDepth, none⟩).inner
    p.Ranges range items →
    stepsTaken (.iterate s kind range var filter body) bindings ⟨maxDepth, none⟩ =
      p.taken range + (p.gone kind var filter body items).length +
        ((p.gone kind var filter body items).map fun item =>
          (p.under var item).itemSteps kind filter body).sum := by
  intro p hrange
  have hloop := Point.iteration_takes (p := Point.start bindings ⟨maxDepth, none⟩) rfl kind var
    filter body items
  rw [Nat.add_assoc]
  exact Point.taken_iterate (s := s) rfl hdepth hrange hloop

/-- `[1, 2, 3].exists(x, x == 2)` does not go through the last item. -/
example :
    let at0 : Span := ⟨0, 0⟩
    let int (i : Int64) : Expr := .literal at0 (.int i)
    stepsTaken
      (.iterate at0 .exists (.list at0 [int 1, int 2, int 3]) "x" none
        (.relation at0 .eq (.ident at0 "x") (int 2)))
      .empty .default = 2 := rfl

end EmbeddedExpr.Eval
