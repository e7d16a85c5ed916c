import EmbeddedExpr.Proofs.Eval.Failures
import EmbeddedExpr.Proofs.Program.Compile

/-!
# The bound on the depth

The depth of a node is the number of nodes above it, so no node of a tree stands deeper
than the tree is high, and an evaluation overflows only where a node stands at the bound.
The parser bounds the height of what it builds by a bound of its own, which is how a
compiled program keeps clear of the bound of its evaluation.

Two bounds are compared along the runs: under the larger one a run does what it does under
the smaller one, or the smaller one has overflowed (`Deepened`).  Nothing turns an overflow
into a result, since all that absorbs errors passes an exhausted bound on.
-/

namespace EmbeddedExpr.Eval

/-- An outcome that is an overflow of the depth. -/
def Overflowed {α : Type} (outcome : Except Failure α) : Prop :=
  ∃ depth bound span, outcome = .error ⟨.tooDeep depth bound, span⟩

/-- `deeper` goes as `r` does, unless `r` overflows. -/
def Deepened {α : Type} (r deeper : Run α) : Prop :=
  ∀ steps, Overflowed (r steps).1 ∨ deeper steps = r steps

namespace Deepened

variable {α β : Type}

theorem same (r : Run α) : Deepened r r := fun _ => .inr rfl

theorem bind {r deeper : Run α} {next next' : α → Run β} (h : Deepened r deeper)
    (hnext : ∀ a, Deepened (next a) (next' a)) : Deepened (r >>= next) (deeper >>= next') := by
  intro steps
  cases hrun : r steps with
  | mk outcome middle =>
    -- an overflow of the first run is one of both, and nothing comes after it
    rcases h steps with ⟨depth, bound, span, hoverflow⟩ | hsame
    · left
      rw [hrun] at hoverflow
      cases hoverflow
      exact ⟨depth, bound, span, congrArg Prod.fst (Run.bind_of_error hrun next)⟩
    · rw [hrun] at hsame
      cases outcome with
      | ok a =>
          rw [Run.bind_of_ok hrun, Run.bind_of_ok hsame]
          exact hnext a middle
      | error e => exact .inr (by rw [Run.bind_of_error hrun, Run.bind_of_error hsame])

theorem recover {r deeper : Run α} {next next' : Except Failure α → Run β}
    (h : Deepened r deeper) (hrethrows : Rethrows next)
    (hnext : ∀ o, Deepened (next o) (next' o)) :
    Deepened (r.outcome >>= next) (deeper.outcome >>= next') := by
  intro steps
  cases hrun : r steps with
  | mk outcome middle =>
    rw [Run.outcome_bind hrun]
    rcases h steps with ⟨depth, bound, span, hoverflow⟩ | hsame
    · left
      -- what absorbs other errors passes an overflow on
      rw [hrun] at hoverflow
      cases hoverflow
      rw [hrethrows _ rfl]
      exact ⟨depth, bound, span, rfl⟩
    · rw [Run.outcome_bind (hsame.trans hrun)]
      exact hnext outcome middle

theorem nested {small large : Nat} (hle : small ≤ large) {r deeper : Run α}
    (h : Deepened r deeper) (steps : Option Nat) (depth : Nat) (span : Span) :
    Deepened (Run.nested ⟨small, steps⟩ depth span r)
      (Run.nested ⟨large, steps⟩ depth span deeper) := by
  by_cases hdeep : small ≤ depth
  · rw [Run.nested_of_le hdeep]
    exact fun count => .inl ⟨depth, small, span, rfl⟩
  · have hclear : ¬ large ≤ depth := fun hlarge => hdeep (Nat.le_trans hle hlarge)
    rw [Run.nested_of_not_le hdeep, Run.nested_of_not_le hclear]
    exact h

end Deepened

/-- A larger bound on the depth is kept by everything that evaluation is built from. -/
def Simulation.deepened : Simulation where
  Rel := Deepened
  Known _ := True
  pure _ := Deepened.same _
  throw _ := Deepened.same _
  bind := Deepened.bind
  recover h hrethrows _ hok herror := h.recover hrethrows fun
    | .ok a => hok a
    | .error e => herror e trivial

theorem eval_deepened (e : Expr) (bindings : Bindings) {small large : Nat} (hle : small ≤ large)
    (steps : Option Nat) :
    Deepened (eval ⟨bindings, ⟨small, steps⟩⟩ [] 0 e) (eval ⟨bindings, ⟨large, steps⟩⟩ [] 0 e) := by
  refine Simulation.deepened.eval_root fun p _ => ?_
  exact {
    faults := fun _ _ => trivial
    nested := fun h => h.nested hle steps p.depth p.expr.span
    tick := Deepened.same _
    name := fun _ _ => Deepened.same _
    call := fun _ => rfl }

/-- An evaluation that does not overflow gives the same result under every larger bound. -/
theorem evaluate_deeper {e : Expr} {bindings : Bindings} {small large : Nat} (hle : small ≤ large)
    {steps : Option Nat} (h : ¬ Overflowed (evaluate e bindings ⟨small, steps⟩)) :
    evaluate e bindings ⟨large, steps⟩ = evaluate e bindings ⟨small, steps⟩ := by
  rcases eval_deepened e bindings hle steps 0 with hoverflow | hsame
  · exact absurd hoverflow h
  · exact congrArg Prod.fst hsame

/-- A tree lower than the bound does not overflow. -/
theorem not_overflowed_of_height_lt {e : Expr} {limits : Limits} (h : e.height < limits.maxDepth)
    (bindings : Bindings) : ¬ Overflowed (evaluate e bindings limits) := by
  rintro ⟨depth, bound, span, hoverflow⟩
  obtain ⟨p, hp, hraised⟩ := evaluate_error_raised hoverflow
  have hdepth := hp.depth_add_height_le
  simp only [Place.root, Nat.zero_add] at hdepth
  cases hraised with
  | fault hordinary => cases hordinary
  | tooDeep hdeep =>
      simp only at hdeep
      omega

end EmbeddedExpr.Eval

namespace EmbeddedExpr.Program

open Eval

/-- The bound on the depth adds nothing but overflows: a tree lower than the bound has none,
nor has a program compiled under a smaller bound, and where there is none, a larger bound
changes nothing. -/
theorem depth_bound_only_overflows (bindings : Bindings) (steps : Option Nat) :
    (∀ (e : Expr) (limit : Nat), e.height < limit →
      ¬ Overflowed (evaluate e bindings ⟨limit, steps⟩)) ∧
    (∀ (bound limit : Nat) (source : String) (p : Program), compile bound source = .ok p →
      bound < limit → ¬ Overflowed (p.execute bindings ⟨limit, steps⟩)) ∧
    (∀ (e : Expr) (small large : Nat), small ≤ large →
      ¬ Overflowed (evaluate e bindings ⟨small, steps⟩) →
      evaluate e bindings ⟨large, steps⟩ = evaluate e bindings ⟨small, steps⟩) := by
  refine ⟨fun e limit h => ?_, fun bound limit source p hcompile hlt => ?_,
    fun e small large hle h => ?_⟩
  · exact not_overflowed_of_height_lt h bindings
  · have hheight : p.expr.height ≤ bound := (expr_fits hcompile).1
    exact not_overflowed_of_height_lt (Nat.lt_of_le_of_lt hheight hlt) bindings
  · exact evaluate_deeper hle h

/-- The program `[[1]]`, two nodes above its leaf. -/
def nestedLists : Program :=
  ⟨"[[1]]", .list ⟨0, 5⟩ [.list ⟨1, 4⟩ [.literal ⟨2, 3⟩ (.int 1)]]⟩

/-- `[[1]]` compiles under the bound 2 and is evaluated under the bound 3, but not under 2. -/
theorem depth_bound_nestedLists :
    compile 2 "[[1]]" = .ok nestedLists ∧
      ¬ Overflowed (evaluate nestedLists.expr .empty ⟨3, none⟩) ∧
      ¬ Overflowed (nestedLists.execute .empty ⟨3, none⟩) ∧
      evaluate nestedLists.expr .empty ⟨7, none⟩ = evaluate nestedLists.expr .empty ⟨3, none⟩ ∧
      Overflowed (evaluate nestedLists.expr .empty ⟨2, none⟩) := by
  have hcompile : compile 2 "[[1]]" = .ok nestedLists := rfl
  obtain ⟨hlow, hcompiled, hdeeper⟩ := depth_bound_only_overflows .empty none
  have hclear := hlow nestedLists.expr 3 (by decide)
  exact ⟨hcompile, hclear, hcompiled 2 3 "[[1]]" nestedLists hcompile (by decide),
    hdeeper nestedLists.expr 3 7 (by decide) hclear, 2, 2, ⟨2, 3⟩, rfl⟩

end EmbeddedExpr.Program
