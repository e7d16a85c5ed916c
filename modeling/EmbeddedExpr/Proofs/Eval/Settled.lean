import EmbeddedExpr.Proofs.Eval.Simulation

/-!
# Outcomes that the limits leave alone

An evaluation that exhausts neither of its bounds has the outcome that it has at any lesser
depth and after any lesser number of steps.  The invariant is `Relaxed`: a run from fewer
steps does what the other one does, unless that one exhausts a bound.  So the outcome that an
expression has where it stands alone is the one that it has as a part of another evaluation
(`eval_settles`), which no longer depends on how many steps were taken before.

`Run.Settles steps outcome` says this of a run: after `steps` or more it ends with the
outcome, if it exhausts no bound.
-/

namespace EmbeddedExpr.Eval

/-- An outcome that is an exhausted bound. -/
def Exhausted {α : Type} (outcome : Except Failure α) : Prop :=
  ∃ e, outcome = .error e ∧ e.fault.isResource = true

/-- `relaxed`, from no more steps, goes as `r` does, unless `r` exhausts a bound. -/
structure Relaxed {α : Type} (r relaxed : Run α) : Prop where
  counts : r.Counts
  agrees {steps fewer : Nat} : fewer ≤ steps → ¬ Exhausted (r steps).1 →
    (relaxed fewer).1 = (r steps).1 ∧ (relaxed fewer).2 ≤ (r steps).2

namespace Relaxed

variable {α β : Type}

theorem done (a : α) : Relaxed (Pure.pure a : Run α) (Pure.pure a) :=
  ⟨fun steps => Nat.le_refl steps, fun hle _ => ⟨rfl, hle⟩⟩

theorem throw (e : Failure) : Relaxed (Run.throw e : Run α) (Run.throw e) :=
  ⟨fun steps => Nat.le_refl steps, fun hle _ => ⟨rfl, hle⟩⟩

theorem bind {r relaxed : Run α} {next next' : α → Run β} (h : Relaxed r relaxed)
    (hnext : ∀ a, Relaxed (next a) (next' a)) : Relaxed (r >>= next) (relaxed >>= next') := by
  refine ⟨h.counts.bind fun a => (hnext a).counts, fun {steps fewer} hle hclear => ?_⟩
  cases hrun : r steps with
  | mk outcome middle =>
    cases hrelaxed : relaxed fewer with
    | mk outcome' middle' =>
      have hagrees := h.agrees hle
      rw [hrun, hrelaxed] at hagrees
      cases outcome with
      | ok a =>
          rw [Run.bind_of_ok hrun] at hclear ⊢
          obtain ⟨rfl, hmiddle⟩ := hagrees nofun
          rw [Run.bind_of_ok hrelaxed]
          exact (hnext a).agrees hmiddle hclear
      | error e =>
          -- the error is that of the whole run, so it is no exhausted bound
          rw [Run.bind_of_error hrun] at hclear ⊢
          obtain ⟨rfl, hmiddle⟩ := hagrees fun ⟨e', he, hresource⟩ =>
            hclear ⟨e', by cases he; rfl, hresource⟩
          rw [Run.bind_of_error hrelaxed]
          exact ⟨rfl, hmiddle⟩

theorem recover {r relaxed : Run α} {next next' : Except Failure α → Run β}
    (h : Relaxed r relaxed) (hrethrows : Rethrows next)
    (hnext : ∀ o, Relaxed (next o) (next' o)) :
    Relaxed (r.outcome >>= next) (relaxed.outcome >>= next') := by
  refine ⟨h.counts.outcome.bind fun o => (hnext o).counts, fun {steps fewer} hle hclear => ?_⟩
  rw [Run.outcome_bind (r := r) rfl] at hclear ⊢
  have hfirst : ¬ Exhausted (r steps).1 := by
    rintro ⟨e, he, hresource⟩
    rw [he, hrethrows e hresource] at hclear
    exact hclear ⟨e, rfl, hresource⟩
  obtain ⟨hsame, hmiddle⟩ := h.agrees hle hfirst
  rw [Run.outcome_bind (r := relaxed) rfl, hsame]
  exact (hnext _).agrees hmiddle hclear

theorem nested (limits : Limits) {deeper depth : Nat} (hle : depth ≤ deeper) (span : Span)
    {r relaxed : Run α} (h : Relaxed r relaxed) :
    Relaxed (Run.nested limits deeper span r) (Run.nested limits depth span relaxed) := by
  by_cases hdeep : limits.maxDepth ≤ deeper
  · rw [Run.nested_of_le hdeep]
    exact ⟨(throw _).counts, fun _ hclear => absurd ⟨_, rfl, rfl⟩ hclear⟩
  · have hclear : ¬ limits.maxDepth ≤ depth := fun h => hdeep (Nat.le_trans h hle)
    rw [Run.nested_of_not_le hdeep, Run.nested_of_not_le hclear]
    exact h

theorem tick (limits : Limits) (span : Span) :
    Relaxed (Run.tick limits span) (Run.tick limits span) := by
  refine ⟨Run.Counts.tick limits span, fun {steps fewer} hle hclear => ?_⟩
  rw [Run.tick_steps, Run.tick_steps]
  refine ⟨?_, Nat.succ_le_succ hle⟩
  unfold Run.tick at hclear ⊢
  split
  · rename_i bound hbound
    simp only [hbound] at hclear
    by_cases hover : bound < steps + 1
    · rw [if_pos hover] at hclear
      exact absurd ⟨_, rfl, rfl⟩ hclear
    · rw [if_neg hover, if_neg (by omega)]
  · rfl

end Relaxed

/-- Fewer steps and a lesser depth are kept by everything that evaluation is built from. -/
def Simulation.relaxed : Simulation where
  Rel := Relaxed
  Known _ := True
  pure := Relaxed.done
  throw _ := Relaxed.throw _
  bind := Relaxed.bind
  recover h hrethrows _ hok herror := h.recover hrethrows fun
    | .ok a => hok a
    | .error e => herror e trivial

/-- An expression that stands `shift` levels deeper is evaluated to the same outcome. -/
theorem eval_relaxed (env : Environment) (scope : Scope) (depth shift : Nat) (e : Expr) :
    Relaxed (eval env scope (depth + shift) e) (eval env scope depth e) := by
  refine Simulation.relaxed.eval (fun p _ => ?_) (rfl : _ = scope.map Prod.fst)
  exact {
    faults := fun _ _ => trivial
    nested := fun h => h.nested env.limits (Nat.le_add_right p.depth shift) p.expr.span
    tick := Relaxed.tick env.limits p.expr.span
    name := fun _ _ => Simulation.lift _ fun _ _ => trivial
    call := fun _ => rfl }

/-! ### Settled runs -/

namespace Run

variable {α β : Type} {steps : Nat}

/-- After `steps` or more the run ends with the outcome, unless it exhausts a bound. -/
def Settles (steps : Nat) (r : Run α) (outcome : Except Failure α) : Prop :=
  ∀ later, steps ≤ later →
    later ≤ (r later).2 ∧ (Exhausted (r later).1 ∨ (r later).1 = outcome)

namespace Settles

variable {r : Run α} {outcome : Except Failure α} {result : Except Failure β}

theorem pure (a : α) : Settles steps (Pure.pure a) (.ok a) :=
  fun later _ => ⟨Nat.le_refl later, .inr rfl⟩

theorem throw (e : Failure) : Settles steps (throw e : Run α) (.error e) :=
  fun later _ => ⟨Nat.le_refl later, .inr rfl⟩

/-- A run that exhausts a bound settles on anything. -/
theorem exhausted {e : Failure} (he : e.fault.isResource = true) (outcome : Except Failure α) :
    Settles steps (Run.throw e) outcome :=
  fun later _ => ⟨Nat.le_refl later, .inl ⟨e, rfl, he⟩⟩

/-- The outcome of a settled run is all that decides how an evaluation goes on. -/
theorem recover {next : Except Failure α → Run β} (h : r.Settles steps outcome)
    (hrethrows : Rethrows next) (hnext : (next outcome).Settles steps result) :
    (r.outcome >>= next).Settles steps result := by
  intro later hlater
  obtain ⟨hcount, hr⟩ := h later hlater
  rw [outcome_bind (r := r) rfl]
  rcases hr with ⟨e, he, hresource⟩ | hr
  · rw [he, hrethrows e hresource]
    exact ⟨hcount, .inl ⟨e, rfl, hresource⟩⟩
  · obtain ⟨hcount', hresult⟩ := hnext (r later).2 (Nat.le_trans hlater hcount)
    rw [hr]
    exact ⟨Nat.le_trans hcount hcount', hresult⟩

theorem bind_error {e : Failure} (h : r.Settles steps (.error e)) (next : α → Run β) :
    (r >>= next).Settles steps (.error e) := by
  intro later hlater
  obtain ⟨hcount, hr⟩ := h later hlater
  have hfailed : ∃ e', (r later).1 = .error e' := by
    rcases hr with ⟨e', he', -⟩ | hr
    · exact ⟨e', he'⟩
    · exact ⟨e, hr⟩
  obtain ⟨e', he'⟩ := hfailed
  rw [bind_of_error (r := r) (Prod.ext he' rfl)]
  rw [he'] at hr
  refine ⟨hcount, hr.imp ?_ ?_⟩
  · rintro ⟨e'', ⟨⟩, hresource⟩
    exact ⟨e', rfl, hresource⟩
  · rintro ⟨⟩
    rfl

theorem bind {a : α} {next : α → Run β} (h : r.Settles steps (.ok a))
    (hnext : (next a).Settles steps result) : (r >>= next).Settles steps result := by
  intro later hlater
  obtain ⟨hcount, hr⟩ := h later hlater
  rcases hr with ⟨e, he, hresource⟩ | hr
  · rw [bind_of_error (r := r) (Prod.ext he rfl)]
    exact ⟨hcount, .inl ⟨e, rfl, hresource⟩⟩
  · rw [bind_of_ok (r := r) (Prod.ext hr rfl)]
    obtain ⟨hcount', hresult⟩ := hnext (r later).2 (Nat.le_trans hlater hcount)
    exact ⟨Nat.le_trans hcount hcount', hresult⟩

/-- One run after the other settles on one outcome after the other. -/
theorem andThen {next : α → Run β} {gives : α → Except Failure β} (h : r.Settles steps outcome)
    (hnext : ∀ a, outcome = .ok a → (next a).Settles steps (gives a)) :
    (r >>= next).Settles steps (outcome >>= gives) := by
  cases outcome with
  | ok a => exact h.bind (hnext a rfl)
  | error e => exact h.bind_error next

theorem nested {limits : Limits} {depth : Nat} {span : Span} (h : r.Settles steps outcome) :
    (Run.nested limits depth span r).Settles steps outcome := by
  intro later hlater
  unfold Run.nested
  split
  · exact ⟨Nat.le_refl later, .inl ⟨_, rfl, rfl⟩⟩
  · exact h later hlater

theorem tick (limits : Limits) (span : Span) : (Run.tick limits span).Settles steps (.ok ()) := by
  intro later _
  refine ⟨Run.Counts.tick limits span later, ?_⟩
  unfold Run.tick
  split
  · split
    · exact .inl ⟨_, rfl, rfl⟩
    · exact .inr rfl
  · exact .inr rfl

theorem eq_outcome (h : r.Settles steps outcome) (hclear : ¬ Exhausted (r steps).1) :
    (r steps).1 = outcome :=
  (h steps (Nat.le_refl steps)).2.resolve_left hclear

end Settles

end Run

/-! ### Points of an evaluation -/

/-- A point of an evaluation: what it is done with, and how far it has come. -/
structure Point where
  env : Environment
  scope : Scope
  depth : Nat
  steps : Nat

namespace Point

/-- What an expression evaluates to at the point. -/
def outcome (p : Point) (e : Expr) : Except Failure Value :=
  (eval p.env p.scope p.depth e p.steps).1

/-- The point under one more iteration variable. -/
def under (p : Point) (var : String) (item : Value) : Point :=
  { p with scope := (var, item) :: p.scope }

/-- Where the evaluation of a whole expression begins. -/
def start (bindings : Bindings) (limits : Limits) : Point := ⟨⟨bindings, limits⟩, [], 0, 0⟩

/-- Deeper and later on an expression still has the outcome that it has at the point. -/
theorem eval_settles_deeper (p : Point) (shift : Nat) (e : Expr) :
    (eval p.env p.scope (p.depth + shift) e).Settles p.steps (p.outcome e) := by
  have h := eval_relaxed p.env p.scope p.depth shift e
  intro later hlater
  refine ⟨h.counts later, ?_⟩
  by_cases hexhausted : Exhausted (eval p.env p.scope (p.depth + shift) e later).1
  · exact .inl hexhausted
  · exact .inr (h.agrees hlater hexhausted).1.symm

/-- So it has as a part of an expression at the point. -/
theorem eval_settles (p : Point) (e : Expr) :
    (eval p.env p.scope (p.depth + 1) e).Settles p.steps (p.outcome e) :=
  p.eval_settles_deeper 1 e

end Point

end EmbeddedExpr.Eval
