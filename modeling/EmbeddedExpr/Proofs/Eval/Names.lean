import EmbeddedExpr.Program.Basic
import EmbeddedExpr.Proofs.Eval.Failures
import EmbeddedExpr.Proofs.Syntax.Names

/-!
# Evaluation needs the free names and no others

The free names of an expression are found without evaluating it, by a walk that keeps
the variables bound so far; the evaluator keeps a scope of its own.  That the two agree
on every node is `Place.Reaches.mem_free`: an identifier that the scope does not hold is
free in the whole tree.  So two sets of bindings that agree on the free names and on the
called functions give the same evaluation (`eval_congr`), and a name without a meaning is
a free name that nothing binds (`unknownIdentifier_free`).
-/

namespace EmbeddedExpr.Eval

/-- Two sets of bindings that give a name one meaning. -/
def AgreeOn (b b' : Bindings) (name : String) : Prop :=
  b.value? name = b'.value? name ∧ b.function? name = b'.function? name

theorem resolve_congr {b b' : Bindings} {scope : Scope} {name : String}
    (h : name ∉ scope.map Prod.fst → AgreeOn b b' name) :
    resolve b scope name = resolve b' scope name := by
  unfold resolve
  cases hscope : scope.find? fun entry => entry.1 == name with
  | some entry => rfl
  | none =>
      obtain ⟨hvalue, hfunction⟩ := h (notMem_of_find?_eq_none hscope)
      simp only [hvalue, hfunction]

theorem invoke_congr {b b' : Bindings} {name : String}
    (h : b.function? name = b'.function? name) : invoke b name = invoke b' name := by
  funext args
  simp only [invoke, h]

/-- Equality of runs is a simulation. -/
def Simulation.equality : Simulation where
  Rel r r' := r = r'
  Known _ := True
  pure _ := rfl
  throw _ := rfl
  bind hr hnext := by rw [hr, funext hnext]
  recover {_ _ _ _ next next'} hr _ _ hok herror := by
    have hnext : next = next' := by
      funext o
      cases o with
      | ok a => exact hok a
      | error e => exact herror e trivial
    rw [hr, hnext]

/-- Evaluation depends on the bindings of the free names and the called functions only. -/
theorem eval_congr {e : Expr} {b b' : Bindings} (limits : Limits)
    (hfree : ∀ name ∈ e.freeNames, AgreeOn b b' name)
    (hcalled : ∀ name ∈ e.calledNames, b.function? name = b'.function? name) :
    eval ⟨b, limits⟩ [] 0 e = eval ⟨b', limits⟩ [] 0 e := by
  refine Simulation.equality.eval_root fun p hp => ?_
  exact {
    faults := fun _ _ => trivial
    nested := fun hr => congrArg _ hr
    tick := rfl
    name := fun hname hscope => by
      refine congrArg _ (resolve_congr fun hfresh => hfree _ (hp.mem_free hname ?_))
      rwa [← hscope]
    call := fun hcall =>
      invoke_congr (hcalled _ (hp.called_subset (Expr.callee_mem_calledNames hcall))) }

/-- A name for which evaluation finds no meaning is free, and neither the bindings nor the
builtins know it. -/
theorem unknownIdentifier_free {e : Expr} {b : Bindings} {limits : Limits} {name : String}
    {span : Span} (h : evaluate e b limits = .error ⟨.unknownIdentifier name, span⟩) :
    name ∈ e.freeNames ∧ b.value? name = none ∧ b.function? name = none ∧
      Builtin.find? name = none := by
  obtain ⟨p, hp, hraised⟩ := evaluate_error_raised h
  cases hraised with
  | fault hordinary => cases hordinary
  | unknownIdentifier hname hvars hvalue hfunction hbuiltin =>
      exact ⟨hp.mem_free hname hvars, hvalue, hfunction, hbuiltin⟩

/-- Evaluation depends on the bindings only through the free names and the called
functions.  A name is found to have no meaning only if it is free and neither bound nor a
builtin, so never when all parameters of a program are bound. -/
theorem evaluate_depends_on_free_names (e : Expr) (limits : Limits) :
    (∀ b b' : Bindings, (∀ name ∈ e.freeNames, AgreeOn b b' name) →
      (∀ name ∈ e.calledNames, b.function? name = b'.function? name) →
      evaluate e b limits = evaluate e b' limits) ∧
    (∀ (b : Bindings) (name : String) (span : Span),
      evaluate e b limits = .error ⟨.unknownIdentifier name, span⟩ →
      name ∈ e.freeNames ∧ b.value? name = none ∧ b.function? name = none ∧
        Builtin.find? name = none) ∧
    (∀ (source : String) (b : Bindings),
      (∀ name ∈ (Program.mk source e).params,
        (b.value? name).isSome ∨ (b.function? name).isSome) →
      ∀ (name : String) (span : Span),
        (Program.mk source e).execute b limits ≠ .error ⟨.unknownIdentifier name, span⟩) := by
  refine ⟨fun b b' hfree hcalled => ?_, fun b name span h => unknownIdentifier_free h, ?_⟩
  · rw [evaluate, evaluate, eval_congr limits hfree hcalled]
  · intro source b hbound name span h
    obtain ⟨hname, hvalue, hfunction, _⟩ := unknownIdentifier_free h
    rcases hbound name hname with h | h
    · simp [hvalue] at h
    · simp [hfunction] at h

/-- `[1, 2].map(x, sum(x, y))`, which needs `y` and the function `sum`, but not `x`. -/
def mapExample : Expr :=
  let at0 : Span := ⟨0, 0⟩
  .iterate at0 .map (.list at0 [.literal at0 (.int 1), .literal at0 (.int 2)]) "x" none
    (.call at0 "sum" [.ident at0 "x", .ident at0 "y"])

/-- The sum of two integers. -/
def sumExample : BoundFunction where
  arity := 2
  call
    | [.int a, .int b] => .ok (.int (a + b))
    | _ => .error (.refused "two integers")

/-- Binding the iteration variable and another function from outside changes nothing, and
without `y` it is `y` that has no meaning. -/
theorem evaluate_map_depends_on_free_names :
    let called := Bindings.empty.bindFunction "sum" sumExample
    let b := called.bindValue "y" (.int 1)
    let b' := (b.bindValue "x" (.int 7)).bindFunction "total" sumExample
    mapExample.calledNames = ["sum"] ∧
      evaluate mapExample b .default = .ok (.list [.int 2, .int 3]) ∧
      evaluate mapExample b .default = evaluate mapExample b' .default ∧
      ("y" ∈ mapExample.freeNames ∧ Builtin.find? "y" = none) ∧
      ∀ name span,
        (Program.mk "" mapExample).execute b .default ≠ .error ⟨.unknownIdentifier name, span⟩ := by
  intro called b b'
  have hfree : mapExample.freeNames = ["y"] := by decide
  have hcalled : mapExample.calledNames = ["sum"] := by decide
  obtain ⟨hagree, hunknown, hparams⟩ := evaluate_depends_on_free_names mapExample .default
  obtain ⟨hneeded, -, -, hbuiltin⟩ := hunknown called "y" ⟨0, 0⟩ rfl
  refine ⟨hcalled, rfl, hagree b b' ?_ ?_, ⟨hneeded, hbuiltin⟩, hparams "" b ?_⟩
  · rw [hfree]
    intro name hname
    obtain rfl := List.mem_singleton.mp hname
    exact ⟨rfl, rfl⟩
  · rw [hcalled]
    intro name hname
    obtain rfl := List.mem_singleton.mp hname
    rfl
  · intro name hname
    rw [Program.params, hfree] at hname
    obtain rfl := List.mem_singleton.mp hname
    exact Or.inl rfl

end EmbeddedExpr.Eval
